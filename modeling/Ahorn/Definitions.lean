import Mathlib.Logic.Basic
import Mathlib.Order.WellFounded
import Ahorn.Terms

set_option autoImplicit false

/-!
# Systems of definitions

Names defined by terms over names. A name defined as itself is an input. In a system without
cycles, values of the inputs determine a value for every defined name.
-/
namespace Ahorn

abbrev Definitions (N : Type) := N → Option (SortedTerm N)

namespace Definitions

variable {N : Type} {D E : Definitions N} {s : SmtSort}

/-- Every constant of the term is defined, at the sort it is used with. -/
def Closed (D : Definitions N) (t : Term N s) : Prop :=
  ∀ k ∈ t.occurrences, ∃ t', D k.2 = some ⟨k.1, t'⟩

/-- The first name occurs in the definition of the second, which is not an input. -/
def Uses (D : Definitions N) (k n : N) : Prop :=
  ∃ s t, D n = some ⟨s, t⟩ ∧ t ≠ .constant s n ∧ ∃ s', (s', k) ∈ t.occurrences

structure Acyclic (D : Definitions N) : Prop where
  closed : ∀ n s t, D n = some ⟨s, t⟩ → D.Closed t
  wellFounded : WellFounded D.Uses

/-- The model satisfies every definition as an equation. -/
def Respects (D : Definitions N) (M : Model N) : Prop :=
  ∀ n s t, D n = some ⟨s, t⟩ → M s n = t.eval M

/-- The model satisfies every definition and gives the inputs the given values. -/
structure Reads (D : Definitions N) (inputs M : Model N) : Prop where
  respects : D.Respects M
  inputs : ∀ n s, D n = some ⟨s, .constant s n⟩ → M s n = inputs s n

theorem eq_constant_of_self (hD : WellFounded D.Uses) {n : N} {e : SortedTerm N} (hn : D n = some e)
    {s : SmtSort} (h : (s, n) ∈ e.2.occurrences) : e = ⟨e.1, .constant e.1 n⟩ := by
  by_contra hne
  have huses : D.Uses n n := by
    refine ⟨e.1, e.2, hn, fun ht => hne ?_, s, h⟩
    rw [← ht]
  exact hD.irrefl.irrefl n huses

theorem acyclic_none : Acyclic (fun _ : N => none) where
  closed := fun _ _ _ h => nomatch h
  wellFounded := ⟨fun n => Acc.intro n fun _ ⟨_, _, h, _⟩ => nomatch h⟩

theorem Closed.mono (h : ∀ n e, D n = some e → E n = some e) {t : Term N s} (ht : D.Closed t) :
    E.Closed t := by
  intro k hk
  obtain ⟨t', ht'⟩ := ht k hk
  exact ⟨t', h _ _ ht'⟩

theorem Reads.mono (h : ∀ n e, D n = some e → E n = some e) {inputs M : Model N}
    (hM : E.Reads inputs M) : D.Reads inputs M where
  respects := fun n s t ht => hM.respects n s t (h _ _ ht)
  inputs := fun n s hn => hM.inputs n s (h _ _ hn)

theorem Acyclic.reads_unique (hD : D.Acyclic) {inputs M M' : Model N} (h : D.Reads inputs M)
    (h' : D.Reads inputs M') {n : N} {t : Term N s} (hn : D n = some ⟨s, t⟩) :
    M s n = M' s n := by
  induction n using hD.wellFounded.induction generalizing s with
  | _ n ih =>
    by_cases ht : t = .constant s n
    · subst ht
      rw [h.inputs n s hn, h'.inputs n s hn]
    · rw [h.respects n s t hn, h'.respects n s t hn]
      apply Term.eval_congr
      intro k hk
      obtain ⟨t', ht'⟩ := hD.closed n s t hn k hk
      exact ih k.2 ⟨s, t, hn, ht, k.1, hk⟩ ht'

theorem Acyclic.eval_unique (hD : D.Acyclic) {inputs M M' : Model N} (h : D.Reads inputs M)
    (h' : D.Reads inputs M') {t : Term N s} (ht : D.Closed t) : t.eval M = t.eval M' := by
  apply Term.eval_congr
  intro k hk
  obtain ⟨t', ht'⟩ := ht k hk
  exact hD.reads_unique h h' ht'

section Existence

open Classical

/-- The value of a name, from the values of the names its definition uses. -/
noncomputable def valueStep (D : Definitions N) (inputs : Model N) (n : N)
    (values : (k : N) → D.Uses k n → (s : SmtSort) → s.Carrier) (s : SmtSort) : s.Carrier :=
  if h : ∃ t, D n = some ⟨s, t⟩ ∧ t ≠ .constant s n then
    (choose h).eval fun s' k => if hk : D.Uses k n then values k hk s' else inputs s' k
  else inputs s n

theorem exists_reads (hD : WellFounded D.Uses) (inputs : Model N) :
    ∃ M, D.Reads inputs M ∧ ∀ n s, D n = none → M s n = inputs s n := by
  let M : Model N := fun s n => hD.fix (D.valueStep inputs) n s
  have hM : ∀ s n, M s n = D.valueStep inputs n (fun k _ s' => M s' k) s := by
    intro s n
    exact congrFun (hD.fix_eq (D.valueStep inputs) n) s
  refine ⟨M, ⟨?_, ?_⟩, ?_⟩
  · intro n s t hn
    by_cases ht : t = .constant s n
    · rw [ht]
      rfl
    · have h : ∃ t, D n = some ⟨s, t⟩ ∧ t ≠ .constant s n := ⟨t, hn, ht⟩
      have hchoose : choose h = t := by
        have hspec := hn.symm.trans (choose_spec h).1
        cases hspec
        rfl
      rw [hM, valueStep, dif_pos h, hchoose]
      apply Term.eval_congr
      intro k hk
      exact dif_pos ⟨s, t, hn, ht, k.1, hk⟩
  · intro n s hn
    rw [hM, valueStep, dif_neg]
    rintro ⟨t, ht, hne⟩
    rw [hn] at ht
    cases ht
    exact hne rfl
  · intro n s hn
    rw [hM, valueStep, dif_neg]
    rintro ⟨t, ht, -⟩
    rw [hn] at ht
    cases ht

theorem Acyclic.exists_reads (hD : D.Acyclic) (inputs : Model N) : ∃ M, D.Reads inputs M := by
  obtain ⟨M, hM, -⟩ := D.exists_reads hD.wellFounded inputs
  exact ⟨M, hM⟩

end Existence

/-- The definitions of the first system, and those of the second for the names it leaves open. -/
def union (D E : Definitions N) : Definitions N := fun n => (D n).or (E n)

theorem union_left {n : N} {e : SortedTerm N} (h : D n = some e) : D.union E n = some e := by
  rw [union, h, Option.some_or]

theorem union_right {n : N} (h : D n = none) : D.union E n = E n := by
  rw [union, h, Option.none_or]

theorem Acyclic.union (hD : D.Acyclic) (hE : WellFounded E.Uses)
    (hclosed : ∀ n s t, D n = none → E n = some ⟨s, t⟩ → (D.union E).Closed t) :
    (D.union E).Acyclic := by
  have hleft : ∀ n, (∃ e, D n = some e) → Acc (D.union E).Uses n := by
    intro n
    induction n using hD.wellFounded.induction with
    | _ n ih =>
      rintro ⟨e, he⟩
      refine Acc.intro n ?_
      rintro k ⟨s, t, ht, hne, s', hk⟩
      rw [union_left he] at ht
      cases ht
      obtain ⟨t', ht'⟩ := hD.closed n s t he _ hk
      exact ih k ⟨s, t, he, hne, s', hk⟩ ⟨_, ht'⟩
  refine ⟨?_, ⟨?_⟩⟩
  · intro n s t ht
    cases hn : D n with
    | some e =>
      rw [union_left hn] at ht
      cases ht
      exact (hD.closed n s t hn).mono fun _ _ => union_left
    | none =>
      rw [union_right hn] at ht
      exact hclosed n s t hn ht
  · intro n
    induction n using hE.induction with
    | _ n ih =>
      cases hn : D n with
      | some e => exact hleft n ⟨e, hn⟩
      | none =>
        refine Acc.intro n ?_
        rintro k ⟨s, t, ht, hne, s', hk⟩
        rw [union_right hn] at ht
        exact ih k ⟨s, t, ht, hne, s', hk⟩

def define [DecidableEq N] (n : N) (e : SortedTerm N) : Definitions N :=
  fun n' => if n' = n then some e else none

theorem Acyclic.define [DecidableEq N] (hD : D.Acyclic) {n : N} {t : Term N s} (hn : D n = none)
    (ht : t = .constant s n ∨ D.Closed t) : (D.union (Definitions.define n ⟨s, t⟩)).Acyclic := by
  have hself : ∀ {n' : N} {s' : SmtSort} {t' : Term N s'},
      Definitions.define n ⟨s, t⟩ n' = some ⟨s', t'⟩ → n' = n ∧ (⟨s, t⟩ : SortedTerm N) = ⟨s', t'⟩ := by
    intro n' s' t' h
    unfold Definitions.define at h
    split_ifs at h with hn'
    exact ⟨hn', Option.some.inj h⟩
  refine hD.union ⟨?_⟩ ?_
  · intro n'
    refine Acc.intro n' ?_
    rintro k ⟨s', t', ht', hne, s'', hk⟩
    obtain ⟨rfl, he⟩ := hself ht'
    cases he
    have hkn : k ≠ n' := by
      rintro rfl
      rcases ht with rfl | ht
      · exact hne rfl
      · obtain ⟨t', ht'⟩ := ht _ hk
        rw [hn] at ht'
        cases ht'
    refine Acc.intro k ?_
    rintro k' ⟨s', t', ht', _⟩
    exact absurd (hself ht').1 hkn
  · intro n' s' t' hn' ht'
    obtain ⟨rfl, he⟩ := hself ht'
    cases he
    rcases ht with rfl | ht
    · intro k hk
      obtain rfl := List.mem_singleton.mp hk
      exact ⟨_, (union_right hn).trans ht'⟩
    · exact ht.mono fun _ _ => union_left

end Definitions

end Ahorn
