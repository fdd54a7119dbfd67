import Mathlib.Data.Finset.Card
import Mathlib.Data.List.Chain
import Mathlib.Logic.Relation
import Mathlib.Order.WellFounded

set_option autoImplicit false

/-!
# Graphs without cycles

The depth of a node grows along the edges. A path is found from its end on: what has been found is a
suffix of every path that it can become, and it is complete when it comes to the first node.
-/
namespace Ahorn.AcyclicGraph

open Relation (TransGen)

section Depth

open Classical

variable {α : Type} {r : α → α → Prop} {l : List α} {a b : α}

def Acyclic (r : α → α → Prop) : Prop := ∀ a, ¬ TransGen r a a

theorem Acyclic.of_wellFounded (hr : WellFounded r) : Acyclic r := fun a h =>
  hr.transGen.irrefl.irrefl a h

/-- The number of the listed nodes that lead to one. -/
noncomputable def depth (r : α → α → Prop) (l : List α) (a : α) : ℕ :=
  (l.toFinset.filter fun b => TransGen r b a).card

theorem depth_lt_depth (hr : Acyclic r) (hb : b ∈ l) (h : r b a) : depth r l b < depth r l a := by
  apply Finset.card_lt_card
  refine Finset.ssubset_iff_of_subset ?_ |>.mpr ⟨b, ?_, ?_⟩
  · intro c hc
    obtain ⟨hmem, hc⟩ := Finset.mem_filter.mp hc
    exact Finset.mem_filter.mpr ⟨hmem, hc.tail h⟩
  · exact Finset.mem_filter.mpr ⟨List.mem_toFinset.mpr hb, .single h⟩
  · intro hself
    exact hr b (Finset.mem_filter.mp hself).2

theorem depth_lt_length (hr : Acyclic r) (ha : a ∈ l) : depth r l a < l.length := by
  refine lt_of_lt_of_le ?_ (List.toFinset_card_le l)
  apply Finset.card_lt_card
  refine Finset.ssubset_iff_of_subset (Finset.filter_subset _ _) |>.mpr
    ⟨a, List.mem_toFinset.mpr ha, fun hself => ?_⟩
  exact hr a (Finset.mem_filter.mp hself).2

end Depth

variable {α : Type} {r : α → α → Prop} {first last a b : α} {path π : List α}

/-- A path from the first node to the last one. -/
structure IsPath (r : α → α → Prop) (first last : α) (path : List α) : Prop where
  chain : path.IsChain r
  head : path.head? = some first
  getLast : path.getLast? = some last

namespace IsPath

theorem single (r : α → α → Prop) (a : α) : IsPath r a a [a] where
  chain := .singleton a
  head := rfl
  getLast := rfl

theorem cons (h : IsPath r b last path) (hab : r a b) : IsPath r a last (a :: path) where
  chain := List.isChain_cons.mpr ⟨fun y hy => by
    rw [h.head] at hy
    exact Option.some.inj hy ▸ hab, h.chain⟩
  head := rfl
  getLast := by
    rw [List.getLast?_cons, h.getLast]
    rfl

theorem exists_of_reachable (h : Relation.ReflTransGen r a b) : ∃ path, IsPath r a b path := by
  induction h using Relation.ReflTransGen.head_induction_on with
  | refl => exact ⟨[b], single r b⟩
  | head hstep _ ih =>
    obtain ⟨path, hpath⟩ := ih
    exact ⟨_, hpath.cons hstep⟩

theorem transGen (h : (a :: path).IsChain r) (hb : b ∈ path) : TransGen r a b :=
  (h.imp fun _ _ => TransGen.single).rel_cons hb

theorem eq_of_suffix (hr : Acyclic r) (h : IsPath r first last π) (hs : first :: path <:+ π) :
    π = first :: path := by
  obtain ⟨front, rfl⟩ := hs
  cases front with
  | nil => rfl
  | cons a front =>
    have ha : a = first := Option.some.inj h.head
    subst ha
    have hmem : a ∈ front ++ a :: path := List.mem_append_right _ List.mem_cons_self
    exact absurd (transGen h.chain hmem) (hr a)

theorem exists_suffix (h : IsPath r first last π) (hs : b :: path <:+ π) (hb : b ≠ first) :
    ∃ a, r a b ∧ a :: b :: path <:+ π := by
  obtain ⟨front, rfl⟩ := hs
  rcases List.eq_nil_or_concat front with rfl | ⟨front, a, rfl⟩
  · exact absurd (Option.some.inj h.head) hb
  · have hsplit : front.concat a ++ b :: path = front ++ a :: b :: path := by simp
    rw [hsplit] at h ⊢
    exact ⟨a, (List.isChain_cons_cons.mp h.chain.right_of_append).1, List.suffix_append _ _⟩

theorem last_suffix (h : IsPath r first last π) : [last] <:+ π := by
  obtain ⟨front, rfl⟩ := List.getLast?_eq_some_iff.mp h.getLast
  exact List.suffix_append front [last]

end IsPath

theorem eq_of_suffixes (ha : a :: path <:+ π) (hb : b :: path <:+ π) : a = b :=
  (List.cons_eq_cons.mp
    ((List.suffix_of_suffix_length_le ha hb (le_refl _)).eq_of_length rfl)).1

end Ahorn.AcyclicGraph
