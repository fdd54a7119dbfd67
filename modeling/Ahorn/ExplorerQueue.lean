import Mathlib.Algebra.GroupWithZero.Nat
import Mathlib.Order.Defs.Unbundled
import Ahorn.BinaryHeaps
import Ahorn.EtfaContext

set_option autoImplicit false

/-!
# The queue of the explorer

The explorer keeps the contexts in a vector that the heap functions of the standard library order by
the depth-first heuristic.
-/
namespace Ahorn.Etfa

open BinaryHeap

def Context.getCallStackDepth (c : Context) : ℕ := c.callStack.length

/-- Lower cycles come first, then deeper nested contexts, then higher labels. -/
def DepthFirstHeuristic.compare (context1 context2 : Context) : Bool :=
  if context1.cycle > context2.cycle then true
  else if context1.cycle = context2.cycle then
    if context1.getCallStackDepth > context2.getCallStackDepth then false
    else if context1.getCallStackDepth = context2.getCallStackDepth then
      if context1.state.vertex.label > context2.state.vertex.label then false
      else true
    else true
  else false

structure Explorer where
  {size : ℕ}
  contexts : Vector Context size

namespace Explorer

def empty : Explorer := ⟨#v[]⟩

def push (context : Context) (e : Explorer) : Explorer :=
  ⟨pushHeap DepthFirstHeuristic.compare (e.contexts.push context)⟩

theorem neZero_succ (n : ℕ) : NeZero (n + 1) := ⟨Nat.succ_ne_zero n⟩

attribute [local instance (high)] neZero_succ

/-- Without a context to return the function is undefined. -/
def pop : Explorer → Option (Context × Explorer)
  | @mk 0 _ => none
  | @mk (_ + 1) contexts =>
    let contexts := popHeap DepthFirstHeuristic.compare contexts
    some (contexts.back, ⟨contexts.pop⟩)

def run : List (Operation Context) → Explorer → Option (List Context × Explorer)
  | [], e => some ([], e)
  | .push context :: ops, e => run ops (e.push context)
  | .pop :: ops, e => do
    let (context, e) ← e.pop
    let (contexts, e) ← run ops e
    some (context :: contexts, e)

end Explorer

/-- The first context is in a later cycle than the second one, or in the same and less deeply
nested, or there at a label that is not higher. -/
def Behind (c d : Context) : Prop :=
  d.cycle < c.cycle ∨ c.cycle = d.cycle ∧
    (c.getCallStackDepth < d.getCallStackDepth ∨
      c.getCallStackDepth = d.getCallStackDepth ∧ c.state.vertex.label ≤ d.state.vertex.label)

theorem compare_iff (c d : Context) : DepthFirstHeuristic.compare c d = true ↔ Behind c d := by
  unfold DepthFirstHeuristic.compare Behind
  split_ifs <;> simp only [true_iff, false_iff] <;> omega

theorem compare_follows : Follows Behind DepthFirstHeuristic.compare where
  trans c d e := by
    unfold Behind
    omega
  below c d h := (compare_iff c d).mp h
  above c d h := by
    have hnot : ¬Behind c d := fun hb => by
      rw [(compare_iff c d).mpr hb] at h
      cases h
    unfold Behind at hnot ⊢
    omega

namespace Explorer

def held (e : Explorer) : Multiset Context := e.contexts.toList

theorem card_held (e : Explorer) : e.held.card = e.size := by
  unfold held
  simp

theorem push_held (context : Context) (e : Explorer) :
    (e.push context).held = context ::ₘ e.held := by
  unfold held push
  rw [Multiset.cons_coe, Multiset.coe_eq_coe]
  refine (pushHeap_perm _ _).trans ?_
  rw [Vector.toList_push]
  exact List.perm_append_singleton _ _

theorem push_isHeap (context : Context) {e : Explorer} (he : IsHeap Behind e.contexts) :
    IsHeap Behind (e.push context).contexts := pushHeap_isHeap compare_follows he context

theorem pop_eq {e : Explorer} (he : IsHeap Behind e.contexts) (hpos : 0 < e.size) :
    ∃ context e', e.pop = some (context, e') ∧ e.held = context ::ₘ e'.held ∧
      (∀ d ∈ e.held, Behind d context) ∧ IsHeap Behind e'.contexts := by
  obtain ⟨contexts⟩ := e
  rename_i size
  cases size with
  | zero => exact absurd hpos (lt_irrefl 0)
  | succ n =>
    obtain ⟨front, hfront, hheap⟩ := popHeap_isHeap compare_follows he
    have hperm := popHeap_perm DepthFirstHeuristic.compare contexts
    dsimp only at hfront
    rw [hfront, Vector.toList_push] at hperm
    have hheld : held ⟨contexts⟩ = contexts.get 0 ::ₘ held ⟨front⟩ := by
      unfold held
      rw [Multiset.cons_coe, Multiset.coe_eq_coe]
      exact hperm.symm.trans (List.perm_append_singleton _ _)
    refine ⟨contexts.get 0, ⟨front⟩, ?_, hheld, fun d hd => ?_, hheap⟩
    · unfold pop
      dsimp only
      rw [hfront, Vector.back_eq_getElem]
      simp
    · obtain ⟨j, hj, rfl⟩ := Vector.getElem_of_mem (Vector.mem_toList_iff.mp hd)
      exact he.greatest compare_follows ⟨j, hj⟩

theorem run_serves (ops : List (Operation Context)) (e : Explorer) (he : IsHeap Behind e.contexts)
    (hops : Available e.size ops) :
    ∃ popped e', run ops e = some (popped, e') ∧ Serves Behind ops e.held popped e'.held := by
  induction ops generalizing e with
  | nil => exact ⟨[], e, rfl, .done _⟩
  | cons op ops ih =>
    cases op with
    | push context =>
      obtain ⟨popped, e', hrun, hserves⟩ := ih (e.push context) (push_isHeap context he) hops
      rw [push_held] at hserves
      exact ⟨popped, e', hrun, .push hserves⟩
    | pop =>
      have hpos : 0 < e.size := by
        by_contra h
        have hzero : e.size = 0 := by omega
        rw [hzero] at hops
        exact hops
      obtain ⟨context, rest, hpop, hheld, hbehind, hheap⟩ := pop_eq he hpos
      have hsize : e.size = rest.size + 1 := by
        rw [← card_held, hheld, Multiset.card_cons, card_held]
      rw [hsize] at hops
      obtain ⟨popped, e', hrun, hserves⟩ := ih rest hheap hops
      refine ⟨context :: popped, e', ?_, ?_⟩
      · unfold run
        rw [hpop]
        change (run ops rest).bind _ = _
        rw [hrun]
        rfl
      · rw [hheld] at hbehind ⊢
        exact .pop hbehind hserves

end Explorer

/-- The comparison of a context with itself holds, so that it orders no contexts strictly; all the
same the explorer returns a best context each time, and neither loses nor doubles one. -/
theorem explorer_serves (S : Set Context) (ops : List (Operation Context)) :
    (IsStrictWeakOrder S (fun c d => DepthFirstHeuristic.compare c d = true) ↔ S = ∅) ∧
      ((∃ popped e, Explorer.run ops .empty = some (popped, e) ∧
        Serves Behind ops 0 popped e.held) ↔ Available 0 ops) := by
  constructor
  · constructor
    · intro hstrict
      by_contra hne
      obtain ⟨c, hc⟩ := Set.nonempty_iff_ne_empty.mpr hne
      have hself := (compare_iff c c).mpr (compare_follows.refl c)
      exact hstrict.irrefl ⟨c, hc⟩ hself
    · intro hempty
      subst hempty
      exact { irrefl := fun c => c.2.elim
              trans := fun c => c.2.elim
              incomp_trans := fun c => c.2.elim }
  · constructor
    · rintro ⟨popped, e, -, hserves⟩
      exact hserves.available
    · intro hops
      exact Explorer.run_serves ops .empty (fun j => j.elim0) hops

def idleCfg : UnitCfg where
  labelToVertex :=
    (OrderedMap.empty.emplace 0 { label := 0, type := .entry }).emplace 1 { label := 1, type := .exit }
  edges := [{ sourceLabel := 0, targetLabel := 1 }]
  entryLabel := 0
  exitLabel := 1
  type := .program
  name := "Idle"
  interface := []
  flattenedInterface := .empty

/-- Two contexts at its exit, one for each truth value of a constant. -/
def atExit (b : Bool) : Context where
  cycle := 0
  state :=
    { vertex := { label := 1, type := .exit }
      symbolicValuations := .empty
      pathConstraint := [.eq (.constant .bool "Idle.x_0__0") (.booleanValue b)]
      flattenedNameToVersion := .empty }
  callStack := [{ cfg := idleCfg, scope := "Idle", returnLabel := -1 }]

/-- Each of the two is less than the other. -/
theorem atExit_not_isStrictWeakOrder :
    ¬IsStrictWeakOrder (Set.range atExit) (fun c d => DepthFirstHeuristic.compare c d = true) := by
  intro hstrict
  have hlt : DepthFirstHeuristic.compare (atExit true) (atExit false) = true := by decide
  have hgt : DepthFirstHeuristic.compare (atExit false) (atExit true) = true := by decide
  exact hstrict.irrefl _ (hstrict.trans ⟨_, true, rfl⟩ ⟨_, false, rfl⟩ ⟨_, true, rfl⟩ hlt hgt)

end Ahorn.Etfa
