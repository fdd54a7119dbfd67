import Mathlib.Data.List.Dedup
import Ahorn.Terms

set_option autoImplicit false

/-!
# Partial models

A solver that finds the terms satisfiable answers with interpretations of their constants. It may
leave out a constant whose value does not matter.
-/
namespace Ahorn

structure Interpretation (N : Type) where
  sort : SmtSort
  name : N
  value : sort.Carrier

abbrev PartialModel (N : Type) := List (Interpretation N)

namespace PartialModel

variable {N : Type}

/-- The model gives the interpreted constants their values. -/
def Extends (M : Model N) (m : PartialModel N) : Prop := ∀ i ∈ m, M i.sort i.name = i.value

/-- The interpretation of a constant, or the value it has otherwise. -/
def orElse [DecidableEq N] (M : Model N) : PartialModel N → Model N
  | [] => M
  | i :: m => fun s n =>
    if h : i.sort = s ∧ i.name = n then h.1 ▸ i.value else orElse M m s n

/-- The model with default values for the constants it leaves out. That a solver enters such a
default into its model as well is left out: it matters only to a term with the same constant that is
evaluated later without default values. -/
def complete [DecidableEq N] (m : PartialModel N) : Model N :=
  m.orElse fun s _ =>
    match s with
    | .bool => false
    | .int => (0 : ℤ)

/-- A new interpretation takes the place of an old one. -/
def interpret [DecidableEq N] (i : Interpretation N) (m : PartialModel N) : PartialModel N :=
  i :: m.filter fun j => (j.sort, j.name) ≠ (i.sort, i.name)

def literal : {s : SmtSort} → s.Carrier → Term N s
  | .bool, b => .booleanValue b
  | .int, i => .integerValue i

/-- The value of an interpreted constant; any other constant stays. -/
def term [DecidableEq N] : PartialModel N → (s : SmtSort) → N → Term N s
  | [], s, n => .constant s n
  | i :: m, s, n => if h : i.sort = s ∧ i.name = n then h.1 ▸ literal i.value else term m s n

/-- The value a term is simplified to once the interpreted constants are replaced, if it is one. -/
def eval? [DecidableEq N] (simplifier : Simplifier N) (m : PartialModel N) {s : SmtSort}
    (t : Term N s) : Option s.Carrier :=
  match s, simplifier.simplify (t.bind m.term) with
  | _, .booleanValue b => some b
  | _, .integerValue i => some i
  | _, _ => none

/-- The interpreted constants are different ones. -/
def Distinct (m : PartialModel N) : Prop :=
  m.Pairwise fun i j => (i.sort, i.name) ≠ (j.sort, j.name)

theorem Distinct.eq {m : PartialModel N} (hm : m.Distinct) {i j : Interpretation N} (hi : i ∈ m)
    (hj : j ∈ m) (h : (i.sort, i.name) = (j.sort, j.name)) : i = j := by
  induction m with
  | nil => exact absurd hi List.not_mem_nil
  | cons k m ih =>
    obtain ⟨hk, hm⟩ := List.pairwise_cons.mp hm
    rcases List.mem_cons.mp hi with hik | hi <;> rcases List.mem_cons.mp hj with hjk | hj
    · exact hik.trans hjk.symm
    · exact absurd h (hik ▸ hk j hj)
    · exact absurd h.symm (hjk ▸ hk i hi)
    · exact ih hm hi hj

theorem extends_orElse [DecidableEq N] (M : Model N) {m : PartialModel N} (hm : m.Distinct) :
    m.Extends (m.orElse M) := by
  induction m with
  | nil => exact fun _ h => absurd h List.not_mem_nil
  | cons i m ih =>
    obtain ⟨hi, hm⟩ := List.pairwise_cons.mp hm
    intro j hj
    rcases List.mem_cons.mp hj with rfl | hj
    · exact dif_pos ⟨rfl, rfl⟩
    · refine (dif_neg ?_).trans (ih hm j hj)
      rintro ⟨hs, hn⟩
      exact hi j hj (Prod.ext hs hn)

theorem orElse_of_notMem [DecidableEq N] (M : Model N) {m : PartialModel N} {s : SmtSort} {n : N}
    (h : ∀ i ∈ m, (i.sort, i.name) ≠ (s, n)) : m.orElse M s n = M s n := by
  induction m with
  | nil => rfl
  | cons i m ih =>
    refine (dif_neg ?_).trans (ih fun j hj => h j (List.mem_cons_of_mem _ hj))
    rintro ⟨hs, hn⟩
    exact h i List.mem_cons_self (Prod.ext hs hn)

/-- The model has an interpretation of the constant. -/
def Interprets (m : PartialModel N) (k : SmtSort × N) : Prop := ∃ i ∈ m, (i.sort, i.name) = k

section Evaluation

variable [DecidableEq N] {m : PartialModel N} {s : SmtSort}

/-- A model with another value of one constant. -/
def update (M : Model N) (i : Interpretation N) : Model N := orElse M [i]

omit [DecidableEq N] in
theorem eval_literal (v : s.Carrier) (M : Model N) : (literal v : Term N s).eval M = v := by
  cases s <;> rfl

theorem update_of_ne {M : Model N} {i : Interpretation N} {n : N}
    (h : (i.sort, i.name) ≠ (s, n)) : update M i s n = M s n :=
  orElse_of_notMem M fun _ hj => List.mem_singleton.mp hj ▸ h

theorem update_self (M : Model N) (i : Interpretation N) : update M i i.sort i.name = i.value :=
  dif_pos ⟨rfl, rfl⟩

theorem eval_term (M : Model N) (m : PartialModel N) (s : SmtSort) (n : N) :
    (m.term s n).eval M = m.orElse M s n := by
  induction m with
  | nil => rfl
  | cons i m ih =>
    unfold term orElse
    split_ifs with h
    · obtain ⟨rfl, rfl⟩ := h
      exact eval_literal i.value M
    · exact ih

omit [DecidableEq N] in
theorem occurrences_cast {s' : SmtSort} (h : s' = s) (v : s'.Carrier) :
    (h ▸ literal v : Term N s).occurrences = [] := by
  subst h
  cases s' <;> rfl

theorem occurrences_term {k : SmtSort × N} (h : m.Interprets k) :
    (m.term k.1 k.2).occurrences = [] := by
  induction m with
  | nil =>
    obtain ⟨i, hi, -⟩ := h
    exact absurd hi List.not_mem_nil
  | cons j m ih =>
    unfold term
    split_ifs with hj
    · exact occurrences_cast hj.1 j.value
    · obtain ⟨i, hi, hik⟩ := h
      rcases List.mem_cons.mp hi with rfl | hi
      · exact absurd ⟨congrArg Prod.fst hik, congrArg Prod.snd hik⟩ hj
      · exact ih ⟨i, hi, hik⟩

theorem orElse_orElse (M : Model N) (m : PartialModel N) : m.orElse (m.orElse M) = m.orElse M := by
  have hcases : ∀ s n, (∃ x, ∀ M : Model N, m.orElse M s n = x) ∨
      ∀ M : Model N, m.orElse M s n = M s n := by
    intro s n
    induction m with
    | nil => exact Or.inr fun _ => rfl
    | cons i m ih =>
      by_cases h : i.sort = s ∧ i.name = n
      · exact Or.inl ⟨h.1 ▸ i.value, fun M => dif_pos h⟩
      · refine ih.imp ?_ ?_
        · rintro ⟨x, hx⟩
          exact ⟨x, fun M => (dif_neg h).trans (hx M)⟩
        · intro hx M
          exact (dif_neg h).trans (hx M)
  funext s n
  rcases hcases s n with ⟨x, hx⟩ | hx
  · rw [hx, hx]
  · rw [hx (m.orElse M)]

theorem eval?_eq {simplifier : Simplifier N} {t : Term N s} {v : s.Carrier}
    (h : m.eval? simplifier t = some v) (M : Model N) : t.eval (m.orElse M) = v := by
  have heval : (simplifier.simplify (t.bind m.term)).eval M = t.eval (m.orElse M) := by
    rw [simplifier.eval_simplify, Term.eval_bind]
    congr 1
    funext s n
    exact eval_term M m s n
  rw [← heval]
  unfold eval? at h
  generalize simplifier.simplify (t.bind m.term) = u at h
  cases u <;> cases h <;> rfl

theorem eval?_complete {simplifier : Simplifier N} {t : Term N s} {v : s.Carrier}
    (h : m.eval? simplifier t = some v) : t.eval m.complete = v := by
  have hcomplete := eval?_eq h m.complete
  unfold complete at hcomplete ⊢
  rwa [orElse_orElse] at hcomplete

/-- The simplifier turns a term without constants into a value. -/
def Reduces (simplifier : Simplifier N) : Prop :=
  ∀ {s : SmtSort} (t : Term N s), t.occurrences = [] → ∃ v : s.Carrier,
    simplifier.simplify t = literal v

theorem eval?_of_interprets {simplifier : Simplifier N} (hsimplifier : Reduces simplifier)
    {t : Term N s} (h : ∀ k ∈ t.occurrences, m.Interprets k) :
    ∃ v, m.eval? simplifier t = some v := by
  have hclosed : (t.bind m.term).occurrences = [] := by
    rw [List.eq_nil_iff_forall_not_mem]
    intro k hk
    obtain ⟨c, hc, hkc⟩ := (Term.mem_occurrences_bind _ _ _).mp hk
    rw [occurrences_term (h c hc)] at hkc
    exact absurd hkc List.not_mem_nil
  obtain ⟨v, hv⟩ := hsimplifier _ hclosed
  refine ⟨v, ?_⟩
  unfold eval?
  rw [hv]
  cases s <;> rfl

theorem interprets_interpret {i : Interpretation N} {k : SmtSort × N} :
    (m.interpret i).Interprets k ↔ (i.sort, i.name) = k ∨ m.Interprets k := by
  unfold Interprets interpret
  constructor
  · rintro ⟨j, hj, hjk⟩
    rcases List.mem_cons.mp hj with rfl | hj
    · exact Or.inl hjk
    · exact Or.inr ⟨j, List.mem_of_mem_filter hj, hjk⟩
  · intro h
    by_cases hik : (i.sort, i.name) = k
    · exact ⟨i, List.mem_cons_self, hik⟩
    · obtain ⟨j, hj, hjk⟩ := h.resolve_left hik
      refine ⟨j, List.mem_cons_of_mem _ (List.mem_filter.mpr ⟨hj, ?_⟩), hjk⟩
      simpa [hjk] using Ne.symm hik

theorem orElse_filter {M : Model N} {i : Interpretation N} {n : N}
    (h : (i.sort, i.name) ≠ (s, n)) :
    orElse M (m.filter fun j => (j.sort, j.name) ≠ (i.sort, i.name)) s n = m.orElse M s n := by
  induction m with
  | nil => rfl
  | cons j m ih =>
    by_cases hj : (j.sort, j.name) = (i.sort, i.name)
    · rw [List.filter_cons_of_neg (by simpa using hj), ih]
      have hother : ¬ (j.sort = s ∧ j.name = n) := by
        rintro ⟨hs, hn⟩
        exact h (hj.symm.trans (Prod.ext hs hn))
      exact ((dif_neg hother : orElse M (j :: m) s n = orElse M m s n)).symm
    · rw [List.filter_cons, if_pos (decide_eq_true hj)]
      unfold orElse
      rw [ih]

theorem complete_interpret (m : PartialModel N) (i : Interpretation N) :
    (m.interpret i).complete = update m.complete i := by
  funext s n
  by_cases h : (i.sort, i.name) = (s, n)
  · cases h
    rw [update_self]
    exact dif_pos ⟨rfl, rfl⟩
  · rw [update_of_ne h]
    refine (dif_neg ?_).trans (orElse_filter h)
    rintro ⟨hs, hn⟩
    exact h (Prod.ext hs hn)

end Evaluation

/-- The rewriting that replaces terms without constants by their values. -/
def folding (N : Type) [DecidableEq N] : Simplifier N where
  simplify := fun t => if t.occurrences = [] then literal (t.eval (complete [])) else t
  eval_simplify := by
    intro s t M
    split_ifs with h
    · rw [eval_literal]
      exact Term.eval_congr t fun k hk => absurd (h ▸ hk) List.not_mem_nil
    · rfl
  occurrences_simplify := by
    intro s t
    split_ifs with h
    · cases s <;> exact List.nil_subset _
    · exact List.Subset.refl _

theorem reduces_folding (N : Type) [DecidableEq N] : Reduces (folding N) :=
  fun _ h => ⟨_, if_pos h⟩

end PartialModel

/-- A decision procedure that answers with a model of the constants in the terms. -/
structure ModelFinder (N : Type) where
  find : List (Term N .bool) → Option (PartialModel N)
  sound : ∀ {ts m}, find ts = some m → ∀ M, m.Extends M → ∀ t ∈ ts, t.Holds M
  complete : ∀ {ts}, find ts = none → ∀ M, ∃ t ∈ ts, ¬ t.Holds M
  distinct : ∀ {ts m}, find ts = some m → m.Distinct
  occurs : ∀ {ts m}, find ts = some m → ∀ i ∈ m, ∃ t ∈ ts, (i.sort, i.name) ∈ t.occurrences

namespace ModelFinder

variable {N : Type}

def solver [DecidableEq N] (finder : ModelFinder N) : Solver N where
  check := fun ts => (finder.find ts).isSome
  check_iff := by
    intro ts
    cases hm : finder.find ts with
    | some m =>
      have hholds := finder.sound hm (m.orElse m.complete)
        (PartialModel.extends_orElse _ (finder.distinct hm))
      exact iff_of_true rfl ⟨_, hholds⟩
    | none =>
      refine iff_of_false Bool.false_ne_true ?_
      rintro ⟨M, hM⟩
      obtain ⟨t, ht, hnot⟩ := finder.complete hm M
      exact hnot (hM t ht)

theorem exists_of_holds (finder : ModelFinder N) {ts : List (Term N .bool)} {M : Model N}
    (h : ∀ t ∈ ts, t.Holds M) : ∃ m, finder.find ts = some m := by
  cases hm : finder.find ts with
  | some m => exact ⟨m, rfl⟩
  | none =>
    obtain ⟨t, ht, hnot⟩ := finder.complete hm M
    exact absurd (h t ht) hnot

/-- The interpretations of the constants of the terms under a model. -/
def interpretations [DecidableEq N] (M : Model N) (ts : List (Term N .bool)) : PartialModel N :=
  (ts.flatMap Term.occurrences).dedup.map fun k => ⟨k.1, k.2, M k.1 k.2⟩

theorem mem_interpretations [DecidableEq N] {M : Model N} {ts : List (Term N .bool)}
    {i : Interpretation N} : i ∈ interpretations M ts ↔
      (∃ t ∈ ts, (i.sort, i.name) ∈ t.occurrences) ∧ i.value = M i.sort i.name := by
  unfold interpretations
  simp only [List.mem_map, List.mem_dedup, List.mem_flatMap, Prod.exists]
  constructor
  · rintro ⟨s, n, h, rfl⟩
    exact ⟨h, rfl⟩
  · rintro ⟨h, hv⟩
    obtain ⟨s, n, v⟩ := i
    exact ⟨s, n, h, by rw [← hv]⟩

open Classical in
/-- The finder that exists classically; its models interpret every constant of the terms. -/
noncomputable def classical (N : Type) : ModelFinder N where
  find := fun ts =>
    if h : ∃ M : Model N, ∀ t ∈ ts, t.Holds M then some (interpretations h.choose ts) else none
  sound := by
    intro ts m hm M hM t ht
    split_ifs at hm with h
    cases hm
    rw [Term.Holds, ← h.choose_spec t ht]
    apply Term.eval_congr
    intro k hk
    exact hM ⟨k.1, k.2, h.choose k.1 k.2⟩ (mem_interpretations.mpr ⟨⟨t, ht, hk⟩, rfl⟩)
  complete := by
    intro ts hnone M
    split_ifs at hnone with h
    by_contra hall
    push Not at hall
    exact h ⟨M, hall⟩
  distinct := by
    intro ts m hm
    split_ifs at hm with h
    cases hm
    unfold PartialModel.Distinct interpretations
    rw [List.pairwise_map]
    exact (List.nodup_dedup _).imp fun hne h => hne h
  occurs := by
    intro ts m hm i hi
    split_ifs at hm with h
    cases hm
    exact (mem_interpretations.mp hi).1

theorem classical_interprets {ts : List (Term N .bool)} {m : PartialModel N}
    (hm : (classical N).find ts = some m) {u : Term N .bool} (hu : u ∈ ts) {q : SmtSort × N}
    (hq : q ∈ u.occurrences) : ∃ i ∈ m, i.name = q.2 := by
  classical
  unfold classical at hm
  dsimp only at hm
  split_ifs at hm with h
  cases hm
  exact ⟨⟨q.1, q.2, h.choose q.1 q.2⟩, mem_interpretations.mpr ⟨⟨u, hu, hq⟩, rfl⟩, rfl⟩

def Reflexive [DecidableEq N] : Term N .bool → Bool
  | .eq l r => decide (l = r)
  | _ => false

theorem holds_of_reflexive [DecidableEq N] {u : Term N .bool} (h : Reflexive u = true)
    (M : Model N) : u.Holds M := by
  unfold Reflexive at h
  split at h
  · rw [of_decide_eq_true h]
    exact decide_eq_true rfl
  · cases h

/-- The finder that simplifies equations of a term with itself to true before it looks for a model,
so its models leave out the constants that occur nowhere else. -/
noncomputable def simplifying (N : Type) [DecidableEq N] : ModelFinder N where
  find := fun ts => (classical N).find (ts.filter fun u => !Reflexive u)
  sound := by
    intro ts m hm M hM u hu
    by_cases hreflexive : Reflexive u = true
    · exact holds_of_reflexive hreflexive M
    · refine (classical N).sound hm M hM u (List.mem_filter.mpr ⟨hu, ?_⟩)
      rw [Bool.eq_false_iff.mpr hreflexive]
      rfl
  complete := by
    intro ts hnone M
    obtain ⟨u, hu, hnot⟩ := (classical N).complete hnone M
    exact ⟨u, List.mem_of_mem_filter hu, hnot⟩
  distinct := fun hm => (classical N).distinct hm
  occurs := by
    intro ts m hm i hi
    obtain ⟨u, hu, hq⟩ := (classical N).occurs hm i hi
    exact ⟨u, List.mem_of_mem_filter hu, hq⟩

end ModelFinder

end Ahorn
