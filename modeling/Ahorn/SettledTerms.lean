import Mathlib.Data.Finset.Card
import Mathlib.Logic.Relation
import Ahorn.AcyclicGraphs
import Ahorn.Definitions
import Ahorn.PartialModels

set_option autoImplicit false

/-!
# Terms that definitions settle

A term is settled if the definitions of its constants lead to values, and never to an input, when
every term on the way is simplified first. It then has the same value whatever the inputs are. The
way is no longer than the number of names below a name.
-/
namespace Ahorn

theorem PartialModel.isLiteral_literal {N : Type} {s : SmtSort} (v : s.Carrier) :
    (PartialModel.literal v : Term N s).isLiteral = true := by
  cases s <;> rfl

namespace Simplifier

variable {N : Type}

theorem occurrences_constant (simplifier : Simplifier N) (k : SmtSort × N) :
    ∀ k', k' ∈ (simplifier.simplify (.constant k.1 k.2)).occurrences ↔ k' = k := by
  have hsubset : ∀ k', k' ∈ (simplifier.simplify (.constant k.1 k.2)).occurrences → k' = k :=
    fun k' hk' => List.mem_singleton.mp (simplifier.occurrences_simplify _ hk')
  refine fun k' => ⟨hsubset k', ?_⟩
  rintro rfl
  by_contra hk
  -- without the constant, models that differ on it would give the term the same value
  have hsame : ∀ M M' : Model N, M k'.1 k'.2 = M' k'.1 k'.2 := by
    intro M M'
    have hM := simplifier.eval_simplify (.constant k'.1 k'.2) M
    have hM' := simplifier.eval_simplify (.constant k'.1 k'.2) M'
    refine hM.symm.trans ((Term.eval_congr _ fun q hq => ?_).trans hM')
    exact absurd (hsubset q hq ▸ hq) hk
  obtain ⟨s, n⟩ := k'
  classical
  have hupdate : ∀ v v' : s.Carrier, v = v' := by
    intro v v'
    have h := hsame (PartialModel.update (PartialModel.complete []) ⟨s, n, v⟩)
      (PartialModel.update (PartialModel.complete []) ⟨s, n, v'⟩)
    rw [PartialModel.update_self _ ⟨s, n, v⟩, PartialModel.update_self _ ⟨s, n, v'⟩] at h
    exact h
  cases s with
  | bool => cases hupdate true false
  | int => exact Int.zero_ne_one (hupdate (0 : ℤ) (1 : ℤ))

theorem constants_constant [DecidableEq N] (simplifier : Simplifier N) (k : SmtSort × N) :
    (simplifier.simplify (.constant k.1 k.2)).constants = [k] := by
  have hmem := simplifier.occurrences_constant k
  unfold Term.constants
  generalize (simplifier.simplify (.constant k.1 k.2)).occurrences = l at hmem
  cases l with
  | nil => exact absurd ((hmem k).mpr rfl) List.not_mem_nil
  | cons k' l =>
    obtain rfl := (hmem k').mp List.mem_cons_self
    have hrest : (l.filter fun b => !b == k') = [] := by
      rw [List.filter_eq_nil_iff]
      intro b hb
      rw [(hmem b).mp (List.mem_cons_of_mem _ hb)]
      simp
    rw [List.eraseDups_cons, hrest, List.eraseDups_nil]

end Simplifier

namespace Simplifier

/-- A result without constants is a value. -/
def Evaluates {N : Type} (simplifier : Simplifier N) : Prop :=
  ∀ {s : SmtSort} (t : Term N s), (simplifier.simplify t).occurrences = [] →
    (simplifier.simplify t).isLiteral = true

theorem evaluates_folding (N : Type) [DecidableEq N] : (PartialModel.folding N).Evaluates := by
  intro s t h
  change (if t.occurrences = [] then PartialModel.literal (t.eval (PartialModel.complete []))
    else t).isLiteral = true
  change (if t.occurrences = [] then PartialModel.literal (t.eval (PartialModel.complete []))
    else t).occurrences = [] at h
  split_ifs at h ⊢ with ht
  · exact PartialModel.isLiteral_literal _
  · exact absurd h ht

end Simplifier

namespace Definitions

variable {N : Type} {simplifier : Simplifier N} {D : Definitions N} {s : SmtSort}

/-- The definitions of the constants lead to values. -/
inductive Settled (simplifier : Simplifier N) (D : Definitions N) : {s : SmtSort} → Term N s → Prop
  | intro {s : SmtSort} {t : Term N s}
      (h : ∀ k ∈ (simplifier.simplify t).occurrences, ∀ e, D k.2 = some e → Settled simplifier D e.2) :
      Settled simplifier D t

theorem settled_iff {t : Term N s} : D.Settled simplifier t ↔
    ∀ k ∈ (simplifier.simplify t).occurrences, ∀ e, D k.2 = some e → D.Settled simplifier e.2 :=
  ⟨fun ⟨h⟩ => h, .intro⟩

theorem settled_constant {k : SmtSort × N} {e : SortedTerm N} (he : D k.2 = some e) :
    D.Settled simplifier (.constant k.1 k.2 : Term N k.1) ↔ D.Settled simplifier e.2 := by
  rw [settled_iff]
  constructor
  · intro h
    exact h k ((simplifier.occurrences_constant k k).mpr rfl) e he
  · intro h k' hk' e' he'
    rw [(simplifier.occurrences_constant k k').mp hk', he] at he'
    cases he'
    exact h

theorem settled_of_closed {t : Term N s} (ht : t.occurrences = []) : D.Settled simplifier t := by
  refine .intro fun k hk => ?_
  have hk := simplifier.occurrences_simplify t hk
  rw [ht] at hk
  exact absurd hk List.not_mem_nil

theorem not_settled_input {n : N} (hn : D n = some ⟨s, .constant s n⟩) :
    ¬ D.Settled simplifier (.constant s n) := by
  intro h
  generalize ht : (Term.constant s n : Term N s) = t at h
  induction h with
  | @intro s' t _ ih =>
    have hmem : (s', n) ∈ (simplifier.simplify t).occurrences := by
      rw [← ht]
      exact (simplifier.occurrences_constant (s', n) (s', n)).mpr rfl
    exact ih (s', n) hmem ⟨s', .constant s' n⟩ hn hn rfl

theorem Settled.eval_eq (hD : ∀ n s t, D n = some ⟨s, t⟩ → D.Closed t) {M M' : Model N}
    (hM : D.Respects M) (hM' : D.Respects M') {t : Term N s} (ht : D.Settled simplifier t)
    (hclosed : D.Closed t) : t.eval M = t.eval M' := by
  induction ht with
  | @intro s t _ ih =>
    rw [← simplifier.eval_simplify t M, ← simplifier.eval_simplify t M']
    apply Term.eval_congr
    intro k hk
    obtain ⟨t', ht'⟩ := hclosed k (simplifier.occurrences_simplify t hk)
    rw [hM _ _ _ ht', hM' _ _ _ ht']
    exact ih k hk _ ht' (hD _ _ _ ht')

section Depth

open Classical Relation

/-- The number of the listed names that the definition of a name leads to. -/
noncomputable def depth (D : Definitions N) (names : List N) (n : N) : ℕ :=
  (names.toFinset.filter fun k => TransGen D.Uses k n).card

theorem depth_lt_of_uses (hD : WellFounded D.Uses) {names : List N} {k n : N} (hk : k ∈ names)
    (h : D.Uses k n) : D.depth names k < D.depth names n := by
  exact AcyclicGraph.depth_lt_depth (.of_wellFounded hD) hk h

theorem depth_lt_length (hD : WellFounded D.Uses) {names : List N} {n : N} (hn : n ∈ names) :
    D.depth names n < names.length := by
  exact AcyclicGraph.depth_lt_length (.of_wellFounded hD) hn

end Depth

end Definitions

end Ahorn
