import Mathlib.Data.Finset.Card
import Mathlib.Logic.Hydra
import Mathlib.Logic.Relation

set_option autoImplicit false

/-!
# Graphs with increasing labels

The labels of a graph increase along its edges, except that an edge may lead through an intermediate
label, which has no place in the order. Such a graph has no cycles, and work on its labels that is
replaced by work on later ones comes to an end.
-/
namespace Ahorn

open Relation

variable {α : Type}

section Increasing

variable [LinearOrder α] {r : α → α → Prop} {intermediate : α → Prop}

/-- Edges increase the label, also across an intermediate one. -/
structure IncreasingBut (r : α → α → Prop) (intermediate : α → Prop) : Prop where
  lt : ∀ {a b}, r a b → ¬ intermediate a → ¬ intermediate b → a < b
  leaves : ∀ {d b}, r d b → intermediate d → ¬ intermediate b
  lt_across : ∀ {a d b}, r a d → r d b → ¬ intermediate a → intermediate d → a < b

namespace IncreasingBut

theorem lt_of_transGen (h : IncreasingBut r intermediate) {a b : α} (hpath : TransGen r a b)
    (ha : ¬ intermediate a) (hb : ¬ intermediate b) : a < b := by
  -- an intermediate label on the path comes right behind one that is not below the start
  have hboth : (¬ intermediate b → a < b) ∧
      (intermediate b → ∃ s, ¬ intermediate s ∧ r s b ∧ a ≤ s) := by
    clear hb
    induction hpath with
    | single hab => exact ⟨h.lt hab ha, fun _ => ⟨a, ha, hab, le_rfl⟩⟩
    | @tail b c _ hbc ih =>
      by_cases hb : intermediate b
      · obtain ⟨s, hs, hsb, has⟩ := ih.2 hb
        refine ⟨fun _ => has.trans_lt (h.lt_across hsb hbc hs hb), fun hc => ?_⟩
        exact absurd hc (h.leaves hbc hb)
      · exact ⟨fun hc => (ih.1 hb).trans (h.lt hbc hb hc), fun _ => ⟨b, hb, hbc, (ih.1 hb).le⟩⟩
  exact hboth.1 hb

theorem not_reflTransGen (h : IncreasingBut r intermediate) {a b : α} (ha : ¬ intermediate a)
    (hb : ¬ intermediate b) (hlt : b < a) : ¬ ReflTransGen r a b := by
  intro hpath
  rcases reflTransGen_iff_eq_or_transGen.mp hpath with rfl | hpath
  · exact lt_irrefl _ hlt
  · exact lt_asymm hlt (h.lt_of_transGen hpath ha hb)

theorem wellFounded (h : IncreasingBut r intermediate) (s : Finset α) (hs : ∀ {a b}, r a b → b ∈ s) :
    WellFounded fun b a => r a b := by
  have hfewer : ∀ {a b}, a < b → b ∈ s → (s.filter (b < ·)).card < (s.filter (a < ·)).card := by
    intro a b hab hb
    apply Finset.card_lt_card
    refine Finset.ssubset_iff_of_subset (fun c hc => ?_) |>.mpr ⟨b, ?_, ?_⟩
    · obtain ⟨hc, hbc⟩ := Finset.mem_filter.mp hc
      exact Finset.mem_filter.mpr ⟨hc, hab.trans hbc⟩
    · exact Finset.mem_filter.mpr ⟨hb, hab⟩
    · exact fun hb' => lt_irrefl b (Finset.mem_filter.mp hb').2
  have hacc : ∀ (n : ℕ) (a : α), (s.filter (a < ·)).card = n → ¬ intermediate a →
      Acc (fun b a => r a b) a := by
    intro n
    induction n using Nat.strong_induction_on with
    | _ n ih =>
      intro a hn ha
      refine Acc.intro a fun b hab => ?_
      by_cases hb : intermediate b
      · refine Acc.intro b fun c hbc => ?_
        have hlt := hfewer (h.lt_across hab hbc ha hb) (hs hbc)
        exact ih _ (hn ▸ hlt) c rfl (h.leaves hbc hb)
      · exact ih _ (hn ▸ hfewer (h.lt hab ha hb) (hs hab)) b rfl hb
  refine ⟨fun a => ?_⟩
  by_cases ha : intermediate a
  · exact Acc.intro a fun b hab => hacc _ b rfl (h.leaves hab ha)
  · exact hacc _ a rfl ha

end IncreasingBut

end Increasing

section Work

variable {r : α → α → Prop}

theorem cutExpand_cons {a : α} {t s : Multiset α} (h : ∀ b ∈ t, r b a) :
    CutExpand r (t + s) (a ::ₘ s) := by
  refine ⟨t, a, h, ?_⟩
  rw [← Multiset.singleton_add, add_comm {a} s, add_comm t s, add_right_comm]

theorem reflTransGen_cutExpand_add (t s : Multiset α) :
    ReflTransGen (CutExpand r) s (t + s) := by
  induction t using Multiset.induction with
  | empty => rw [zero_add]
  | cons a t ih =>
    rw [Multiset.cons_add]
    apply ih.tail
    have h := cutExpand_cons (a := a) (t := 0) (s := t + s) (r := r) fun b hb =>
      absurd hb (Multiset.notMem_zero b)
    rwa [zero_add] at h

end Work

end Ahorn
