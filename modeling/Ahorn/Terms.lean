import Mathlib.Data.List.Basic
import Mathlib.Data.Int.Notation

set_option autoImplicit false

/-!
# Sorted terms

Quantifier-free terms over Booleans and unbounded integers, as they are handed to a solver. A term
is indexed by its sort, so an ill-sorted term cannot be built. Constants are the uninterpreted ones:
a constant is a name together with its sort.
-/
namespace Ahorn

inductive SmtSort where
  | bool | int
  deriving DecidableEq, Repr

def SmtSort.Carrier : SmtSort → Type
  | bool => Bool
  | int => ℤ

inductive Connective where
  | and | or | xor | implies
  deriving DecidableEq, Repr

inductive Arithmetic where
  | add | sub
  deriving DecidableEq, Repr

inductive Comparison where
  | lt | le | gt | ge
  deriving DecidableEq, Repr

inductive Term (N : Type) : SmtSort → Type where
  | booleanValue (b : Bool) : Term N .bool
  | integerValue (i : ℤ) : Term N .int
  | constant (s : SmtSort) (name : N) : Term N s
  | not (t : Term N .bool) : Term N .bool
  | neg (t : Term N .int) : Term N .int
  | connective (op : Connective) (l r : Term N .bool) : Term N .bool
  | arithmetic (op : Arithmetic) (l r : Term N .int) : Term N .int
  | comparison (op : Comparison) (l r : Term N .int) : Term N .bool
  | eq {s : SmtSort} (l r : Term N s) : Term N .bool
  | ite {s : SmtSort} (c : Term N .bool) (t e : Term N s) : Term N s
  deriving DecidableEq

abbrev SortedTerm (N : Type) := (s : SmtSort) × Term N s

abbrev Model (N : Type) := (s : SmtSort) → N → s.Carrier

def Connective.eval : Connective → Bool → Bool → Bool
  | and, l, r => l && r
  | or, l, r => l || r
  | xor, l, r => l ^^ r
  | implies, l, r => !l || r

def Arithmetic.eval : Arithmetic → ℤ → ℤ → ℤ
  | add, l, r => l + r
  | sub, l, r => l - r

def Comparison.eval : Comparison → ℤ → ℤ → Bool
  | lt, l, r => decide (l < r)
  | le, l, r => decide (l ≤ r)
  | gt, l, r => decide (l > r)
  | ge, l, r => decide (l ≥ r)

instance (s : SmtSort) : DecidableEq s.Carrier :=
  match s with
  | .bool => inferInstanceAs (DecidableEq Bool)
  | .int => inferInstanceAs (DecidableEq ℤ)

namespace Term

variable {N P : Type} {s : SmtSort}

def eval (M : Model N) : {s : SmtSort} → Term N s → s.Carrier
  | _, booleanValue b => b
  | _, integerValue i => i
  | _, constant s n => M s n
  | _, not t => Bool.not (t.eval M)
  | _, neg t => Int.neg (t.eval M)
  | _, connective op l r => op.eval (l.eval M) (r.eval M)
  | _, arithmetic op l r => op.eval (l.eval M) (r.eval M)
  | _, comparison op l r => op.eval (l.eval M) (r.eval M)
  | _, eq l r => decide (l.eval M = r.eval M)
  | _, ite c t e => bif c.eval M then t.eval M else e.eval M

/-- The constants of a term from left to right, with their repetitions. -/
def occurrences : {s : SmtSort} → Term N s → List (SmtSort × N)
  | _, booleanValue _ | _, integerValue _ => []
  | _, constant s n => [(s, n)]
  | _, not t | _, neg t => t.occurrences
  | _, connective _ l r | _, arithmetic _ l r | _, comparison _ l r | _, eq l r =>
    l.occurrences ++ r.occurrences
  | _, ite c t e => c.occurrences ++ t.occurrences ++ e.occurrences

def isLiteral : {s : SmtSort} → Term N s → Bool
  | _, booleanValue _ | _, integerValue _ => true
  | _, _ => false

def constants [DecidableEq N] (t : Term N s) : List (SmtSort × N) := t.occurrences.eraseDups

@[simp] theorem mem_constants [DecidableEq N] (t : Term N s) (k : SmtSort × N) :
    k ∈ t.constants ↔ k ∈ t.occurrences := List.mem_eraseDups

theorem eq_of_constants [DecidableEq N] {t : Term N s} {k c : SmtSort × N}
    (h : t.constants = [k]) (hc : c ∈ t.occurrences) : c = k := by
  rw [← mem_constants, h] at hc
  exact List.mem_singleton.mp hc

theorem occurrences_of_constants [DecidableEq N] {t : Term N s} (h : t.constants = []) :
    t.occurrences = [] := by
  rw [List.eq_nil_iff_forall_not_mem]
  intro k hk
  rw [← mem_constants, h] at hk
  exact List.not_mem_nil hk

theorem eval_congr {M M' : Model N} (t : Term N s)
    (h : ∀ k ∈ t.occurrences, M k.1 k.2 = M' k.1 k.2) : t.eval M = t.eval M' := by
  induction t with
  | booleanValue _ | integerValue _ => rfl
  | constant s n => exact h (s, n) (List.mem_singleton.mpr rfl)
  | not t ih | neg t ih => rw [eval, eval, ih h]
  | connective op l r ihl ihr | arithmetic op l r ihl ihr | comparison op l r ihl ihr
  | eq l r ihl ihr =>
    rw [eval, eval, ihl fun k hk => h k (List.mem_append_left _ hk),
      ihr fun k hk => h k (List.mem_append_right _ hk)]
  | ite c t e ihc iht ihe =>
    rw [eval, eval, ihc fun k hk => h k (List.mem_append_left _ (List.mem_append_left _ hk)),
      iht fun k hk => h k (List.mem_append_left _ (List.mem_append_right _ hk)),
      ihe fun k hk => h k (List.mem_append_right _ hk)]

def bind (θ : (s : SmtSort) → N → Term P s) : {s : SmtSort} → Term N s → Term P s
  | _, booleanValue b => booleanValue b
  | _, integerValue i => integerValue i
  | _, constant s n => θ s n
  | _, not t => not (t.bind θ)
  | _, neg t => neg (t.bind θ)
  | _, connective op l r => connective op (l.bind θ) (r.bind θ)
  | _, arithmetic op l r => arithmetic op (l.bind θ) (r.bind θ)
  | _, comparison op l r => comparison op (l.bind θ) (r.bind θ)
  | _, eq l r => eq (l.bind θ) (r.bind θ)
  | _, ite c t e => ite (c.bind θ) (t.bind θ) (e.bind θ)

theorem eval_bind (θ : (s : SmtSort) → N → Term P s) (M : Model P) (t : Term N s) :
    (t.bind θ).eval M = t.eval fun s n => (θ s n).eval M := by
  induction t with
  | booleanValue _ | integerValue _ | constant _ _ => rfl
  | not t ih | neg t ih => rw [bind, eval, eval, ih]
  | connective op l r ihl ihr | arithmetic op l r ihl ihr | comparison op l r ihl ihr
  | eq l r ihl ihr => rw [bind, eval, eval, ihl, ihr]
  | ite c t e ihc iht ihe => rw [bind, eval, eval, ihc, iht, ihe]

theorem mem_occurrences_bind (θ : (s : SmtSort) → N → Term P s) (t : Term N s)
    (k : SmtSort × P) :
    k ∈ (t.bind θ).occurrences ↔ ∃ c ∈ t.occurrences, k ∈ (θ c.1 c.2).occurrences := by
  induction t with
  | booleanValue _ | integerValue _ => simp [bind, occurrences]
  | constant s n => simp [bind, occurrences]
  | not t ih | neg t ih => rw [bind, occurrences, ih, occurrences]
  | connective op l r ihl ihr | arithmetic op l r ihl ihr | comparison op l r ihl ihr
  | eq l r ihl ihr =>
    simp only [bind, occurrences, List.mem_append, ihl, ihr, or_and_right, exists_or]
  | ite c t e ihc iht ihe =>
    simp only [bind, occurrences, List.mem_append, ihc, iht, ihe, or_and_right, exists_or]

theorem bind_congr {θ θ' : (s : SmtSort) → N → Term P s} (t : Term N s)
    (h : ∀ k ∈ t.occurrences, θ k.1 k.2 = θ' k.1 k.2) : t.bind θ = t.bind θ' := by
  induction t with
  | booleanValue _ | integerValue _ => rfl
  | constant s n => exact h (s, n) (List.mem_singleton.mpr rfl)
  | not t ih | neg t ih => rw [bind, bind, ih h]
  | connective op l r ihl ihr | arithmetic op l r ihl ihr | comparison op l r ihl ihr
  | eq l r ihl ihr =>
    rw [bind, bind, ihl fun k hk => h k (List.mem_append_left _ hk),
      ihr fun k hk => h k (List.mem_append_right _ hk)]
  | ite c t e ihc iht ihe =>
    rw [bind, bind, ihc fun k hk => h k (List.mem_append_left _ (List.mem_append_left _ hk)),
      iht fun k hk => h k (List.mem_append_left _ (List.mem_append_right _ hk)),
      ihe fun k hk => h k (List.mem_append_right _ hk)]

theorem bind_bind {Q : Type} (θ : (s : SmtSort) → N → Term P s)
    (θ' : (s : SmtSort) → P → Term Q s) (t : Term N s) :
    (t.bind θ).bind θ' = t.bind fun s n => (θ s n).bind θ' := by
  induction t with
  | booleanValue _ | integerValue _ | constant _ _ => rfl
  | not t ih | neg t ih => rw [bind, bind, bind, ih]
  | connective op l r ihl ihr | arithmetic op l r ihl ihr | comparison op l r ihl ihr
  | eq l r ihl ihr => rw [bind, bind, bind, ihl, ihr]
  | ite c t e ihc iht ihe => rw [bind, bind, bind, ihc, iht, ihe]

theorem bind_constant (t : Term N s) : t.bind constant = t := by
  induction t with
  | booleanValue _ | integerValue _ | constant _ _ => rfl
  | not t ih | neg t ih => rw [bind, ih]
  | connective op l r ihl ihr | arithmetic op l r ihl ihr | comparison op l r ihl ihr
  | eq l r ihl ihr => rw [bind, ihl, ihr]
  | ite c t e ihc iht ihe => rw [bind, ihc, iht, ihe]

def rename (f : N → P) (t : Term N s) : Term P s := t.bind fun s n => constant s (f n)

theorem eval_rename (f : N → P) (M : Model P) (t : Term N s) :
    (t.rename f).eval M = t.eval fun s n => M s (f n) := eval_bind _ M t

theorem mem_occurrences_rename (f : N → P) (t : Term N s) (k : SmtSort × P) :
    k ∈ (t.rename f).occurrences ↔ ∃ n, (k.1, n) ∈ t.occurrences ∧ k.2 = f n := by
  unfold rename
  rw [mem_occurrences_bind]
  constructor
  · rintro ⟨c, hc, hk⟩
    obtain rfl := List.mem_singleton.mp hk
    exact ⟨c.2, hc, rfl⟩
  · rintro ⟨n, hn, hk⟩
    refine ⟨_, hn, ?_⟩
    rw [← hk]
    exact List.mem_singleton.mpr rfl

theorem rename_rename_of_leftInverse {f : N → P} {g : P → N} {t : Term N s}
    (h : ∀ k ∈ t.occurrences, g (f k.2) = k.2) : (t.rename f).rename g = t := by
  unfold rename
  rw [bind_bind]
  refine (bind_congr t fun k hk => ?_).trans (bind_constant t)
  change constant k.1 (g (f k.2)) = constant k.1 k.2
  rw [h k hk]

def single [DecidableEq N] {s : SmtSort} (n : N) (t : Term N s) (s' : SmtSort) (n' : N) :
    Term N s' :=
  if h : s = s' ∧ n = n' then h.1 ▸ t else constant s' n'

def substitute [DecidableEq N] {s' : SmtSort} (t : Term N s) (n : N) (r : Term N s') : Term N s :=
  t.bind (single n r)

@[simp] theorem single_self [DecidableEq N] {s : SmtSort} (n : N) (t : Term N s) :
    single n t s n = t := by
  simp [single]

theorem single_of_ne [DecidableEq N] {s s' : SmtSort} {n n' : N} (t : Term N s)
    (h : (s, n) ≠ (s', n')) : single n t s' n' = constant s' n' := by
  rw [single, dif_neg]
  simpa using h

theorem eval_substitute [DecidableEq N] {s' : SmtSort} {n : N} {r : Term N s'} {M : Model N}
    (h : r.eval M = M s' n) (t : Term N s) : (t.substitute n r).eval M = t.eval M := by
  rw [substitute, eval_bind]
  apply eval_congr
  intro k _
  by_cases hk : (s', n) = k
  · subst hk
    rw [single_self]
    exact h
  · rw [single_of_ne r hk]
    rfl

theorem mem_occurrences_substitute [DecidableEq N] {s' : SmtSort} {n : N} {r : Term N s'}
    {t : Term N s} {k : SmtSort × N} (h : k ∈ (t.substitute n r).occurrences) :
    k ∈ r.occurrences ∨ k ∈ t.occurrences ∧ k ≠ (s', n) := by
  obtain ⟨c, hc, hk⟩ := (mem_occurrences_bind _ _ _).mp h
  by_cases hcn : (s', n) = c
  · subst hcn
    rw [single_self] at hk
    exact Or.inl hk
  · rw [single_of_ne r hcn] at hk
    obtain rfl := List.mem_singleton.mp hk
    exact Or.inr ⟨hc, fun heq => hcn heq.symm⟩

theorem foldl_substitute_eq_bind [DecidableEq N] (f : N → N) (ks : List (SmtSort × N))
    (hf : ∀ k ∈ ks, ∀ k' ∈ ks, k'.2 = f k.2 → k'.2 = k.2) (t : Term N s) :
    ks.foldl (fun t k => t.substitute k.2 (constant k.1 (f k.2))) t =
      t.bind fun s n => constant s (if (s, n) ∈ ks then f n else n) := by
  induction ks generalizing t with
  | nil => simpa using (bind_constant t).symm
  | cons k ks ih =>
    rw [List.foldl_cons, ih (fun q hq q' hq' => hf q (List.mem_cons_of_mem _ hq) q'
      (List.mem_cons_of_mem _ hq')), substitute, bind_bind]
    apply bind_congr
    rintro ⟨s', n⟩ -
    by_cases hk : k = (s', n)
    · subst hk
      rw [single_self, if_pos List.mem_cons_self]
      change constant s' (if (s', f n) ∈ ks then f (f n) else f n) = _
      split_ifs with hm
      · -- the new name is the old one
        have hself : f n = n := hf (s', n) List.mem_cons_self _ (List.mem_cons_of_mem _ hm) rfl
        rw [hself, hself]
      · rfl
    · rw [single_of_ne _ hk]
      have hiff : (s', n) ∈ k :: ks ↔ (s', n) ∈ ks := by
        rw [List.mem_cons]
        exact ⟨fun h => h.resolve_left fun h => hk h.symm, Or.inr⟩
      simp only [bind, hiff]

def conjunction : List (Term N .bool) → Term N .bool
  | [] => booleanValue true
  | t :: ts => connective .and t (conjunction ts)

def disjunction : List (Term N .bool) → Term N .bool
  | [] => booleanValue false
  | t :: ts => connective .or t (disjunction ts)

def Holds (M : Model N) (t : Term N .bool) : Prop := t.eval M = true

instance (M : Model N) (t : Term N .bool) : Decidable (t.Holds M) :=
  instDecidableEqBool (t.eval M) true

theorem holds_conjunction (M : Model N) (ts : List (Term N .bool)) :
    (conjunction ts).Holds M ↔ ∀ t ∈ ts, t.Holds M := by
  induction ts with
  | nil =>
    simp only [List.not_mem_nil, false_imp_iff, implies_true, iff_true]
    rfl
  | cons t ts ih =>
    simp only [List.forall_mem_cons, ← ih]
    exact Bool.and_eq_true_iff

theorem holds_disjunction (M : Model N) (ts : List (Term N .bool)) :
    (disjunction ts).Holds M ↔ ∃ t ∈ ts, t.Holds M := by
  induction ts with
  | nil =>
    simp only [List.not_mem_nil, false_and, exists_false, iff_false]
    exact Bool.false_ne_true
  | cons t ts ih =>
    simp only [List.exists_mem_cons_iff, ← ih]
    exact Bool.or_eq_true_iff

theorem mem_occurrences_conjunction (ts : List (Term N .bool)) (k : SmtSort × N) :
    k ∈ (conjunction ts).occurrences ↔ ∃ t ∈ ts, k ∈ t.occurrences := by
  induction ts with
  | nil => simp [conjunction, occurrences]
  | cons t ts ih => simp [conjunction, occurrences, ih]

end Term

/-- An equivalence-preserving rewriting of terms that introduces no constants. -/
structure Simplifier (N : Type) where
  simplify : {s : SmtSort} → Term N s → Term N s
  eval_simplify : ∀ {s : SmtSort} (t : Term N s) (M : Model N), (simplify t).eval M = t.eval M
  occurrences_simplify : ∀ {s : SmtSort} (t : Term N s),
    (simplify t).occurrences ⊆ t.occurrences

/-- The rewriting that leaves every term as it is. -/
def Simplifier.identity (N : Type) : Simplifier N where
  simplify := fun t => t
  eval_simplify := fun _ _ => rfl
  occurrences_simplify := fun _ => List.Subset.refl _

/-- A decision procedure for the satisfiability of a list of terms. -/
structure Solver (N : Type) where
  check : List (Term N .bool) → Bool
  check_iff : ∀ ts, check ts = true ↔ ∃ M : Model N, ∀ t ∈ ts, t.Holds M

open Classical in
/-- The decision procedure that exists classically. -/
noncomputable def Solver.classical (N : Type) : Solver N where
  check := fun ts => decide (∃ M : Model N, ∀ t ∈ ts, t.Holds M)
  check_iff := fun _ => decide_eq_true_iff

end Ahorn
