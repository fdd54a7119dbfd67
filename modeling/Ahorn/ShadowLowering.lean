import Ahorn.Definitions
import Ahorn.OrderedMap
import Ahorn.Encoder
import Mathlib.Data.String.Basic
import Mathlib.Logic.Relation

set_option autoImplicit false

/-!
# Lowering to one version

A change is executed in both versions at once: a shadow constant stands for its two operands. Before
a divergent context is examined its expressions are lowered to the old or to the new version.
-/
namespace Ahorn

namespace Shadow

inductive ShadowProcessingMode where
  | old | new
  deriving DecidableEq, Repr

/-- The operands of a shadow constant. -/
structure ShadowPair (N : Type) where
  sort : SmtSort
  first : Term N sort
  second : Term N sort

def ShadowPair.operand {N : Type} (p : ShadowPair N) : ShadowProcessingMode → SortedTerm N
  | .old => ⟨p.sort, p.first⟩
  | .new => ⟨p.sort, p.second⟩

/-- Valuations together with the operands of the shadow constants. -/
structure ShadowStore (N : Type) where
  valuations : Definitions N
  shadowValuations : N → Option (ShadowPair N)

/-- A computation that may fail, and that may not have come to its end yet. -/
abbrev Lowering := ExceptT String Option

def unfinished {α : Type} : Lowering α := ExceptT.mk none

section Code

variable {N : Type} [DecidableEq N]

def ShadowStore.shadowOf (S : ShadowStore N) : SortedTerm N → Option (ShadowPair N)
  | ⟨_, .constant _ n⟩ => S.shadowValuations n
  | _ => none

/-- Put the lowered constants one after the other in the place of the constants. -/
def substituteLowered (lower : SortedTerm N → Lowering (SortedTerm N)) {s : SmtSort} :
    List (SmtSort × N) → Term N s → Lowering (Term N s)
  | [], lowered => pure lowered
  | k :: ks, lowered => do
    let r ← lower ⟨k.1, .constant k.1 k.2⟩
    if r.1 = k.1 then substituteLowered lower ks (lowered.substitute k.2 r.2)
    else throw "Invalid argument"

/-- The expression in one of the two versions; `missing` is the failure at a name without a
valuation. -/
def lowerToShadowExpression (simplifier : Simplifier N) (missing : String) (S : ShadowStore N)
    (mode : ShadowProcessingMode) : ℕ → SortedTerm N → Lowering (SortedTerm N)
  | 0, _ => unfinished
  | fuel + 1, expression =>
    match S.shadowOf expression with
    | some p => pure (p.operand mode)
    | none =>
      match expression.2.constants with
      | [] => if expression.2.isLiteral then pure expression else throw "assertion failed"
      | [(_, contextualizedName)] =>
        match S.valuations contextualizedName with
        | none => throw missing
        | some nested =>
          match nested.2.constants with
          | [] => if nested.2.isLiteral then pure expression else throw "assertion failed"
          | [(_, nestedName)] =>
            if contextualizedName = nestedName then pure expression
            else lowerToShadowExpression simplifier missing S mode fuel nested
          | _ => lowerToShadowExpression simplifier missing S mode fuel nested
      | constants => do
        let lowered ← substituteLowered (lowerToShadowExpression simplifier missing S mode fuel)
          constants expression.2
        pure ⟨expression.1, simplifier.simplify lowered⟩

end Code

abbrev Valuations := OrderedMap String (SortedTerm String)

abbrev ShadowValuations := OrderedMap String (ShadowPair String)

def storeOf (valuations : Valuations) (shadowValuations : ShadowValuations) :
    ShadowStore String :=
  ⟨valuations.find?, shadowValuations.find?⟩

structure DivergentState where
  concreteValuations : Valuations
  concreteShadowValuations : ShadowValuations
  symbolicValuations : Valuations
  symbolicShadowValuations : ShadowValuations

def DivergentState.concreteStore (st : DivergentState) : ShadowStore String :=
  storeOf st.concreteValuations st.concreteShadowValuations

def DivergentState.symbolicStore (st : DivergentState) : ShadowStore String :=
  storeOf st.symbolicValuations st.symbolicShadowValuations

def DivergenceEncoder.lowerToShadowExpression (simplifier : Simplifier String)
    (st : DivergentState) (mode : ShadowProcessingMode) :
    ℕ → SortedTerm String → Lowering (SortedTerm String) :=
  Shadow.lowerToShadowExpression simplifier "map::at" st.symbolicStore mode

/-- The concrete state asserts that the name has a valuation. -/
def DivergenceEvaluator.lowerToShadowExpression (simplifier : Simplifier String)
    (st : DivergentState) (mode : ShadowProcessingMode) :
    ℕ → SortedTerm String → Lowering (SortedTerm String) :=
  Shadow.lowerToShadowExpression simplifier "assertion failed" st.concreteStore mode

def Engine.lowerToShadowExpression (simplifier : Simplifier String) (valuations : Valuations)
    (shadowValuations : ShadowValuations) :
    ℕ → SortedTerm String → Lowering (SortedTerm String) :=
  Shadow.lowerToShadowExpression simplifier "map::at" (storeOf valuations shadowValuations) .new

section Lowering

variable {N : Type} [DecidableEq N]

namespace ShadowStore

/-- The only constant of the expression has a valuation that goes on. -/
def Nested (S : ShadowStore N) (e nested : SortedTerm N) : Prop :=
  S.shadowOf e = none ∧ ∃ k, e.2.constants = [k] ∧ S.valuations k.2 = some nested ∧
    nested.2.constants ≠ [] ∧ ∀ s, nested.2.constants ≠ [(s, k.2)]

def Several (S : ShadowStore N) (e : SortedTerm N) : Prop :=
  S.shadowOf e = none ∧ 2 ≤ e.2.constants.length

/-- The lowering of the first expression lowers the second. -/
def Calls (S : ShadowStore N) (e e' : SortedTerm N) : Prop :=
  S.Nested e e' ∨ S.Several e ∧ ∃ k ∈ e.2.constants, e' = ⟨k.1, .constant k.1 k.2⟩

end ShadowStore

variable {simplifier : Simplifier N} {missing : String} {S : ShadowStore N}
variable {mode : ShadowProcessingMode} {fuel : ℕ} {e n : SortedTerm N} {k : SmtSort × N}

theorem lower_shadow {p : ShadowPair N} (h : S.shadowOf e = some p) :
    lowerToShadowExpression simplifier missing S mode (fuel + 1) e = pure (p.operand mode) := by
  unfold lowerToShadowExpression
  rw [h]

theorem lower_closed (h : S.shadowOf e = none) (hc : e.2.constants = []) :
    lowerToShadowExpression simplifier missing S mode (fuel + 1) e =
      if e.2.isLiteral then pure e else throw "assertion failed" := by
  unfold lowerToShadowExpression
  rw [h]
  simp only
  rw [hc]

theorem lower_missing (h : S.shadowOf e = none) (hc : e.2.constants = [k])
    (hk : S.valuations k.2 = none) :
    lowerToShadowExpression simplifier missing S mode (fuel + 1) e = throw missing := by
  unfold lowerToShadowExpression
  rw [h]
  simp only
  rw [hc]
  simp only
  rw [hk]

theorem lower_literal (h : S.shadowOf e = none) (hc : e.2.constants = [k])
    (hk : S.valuations k.2 = some n) (hn : n.2.constants = []) :
    lowerToShadowExpression simplifier missing S mode (fuel + 1) e =
      if n.2.isLiteral then pure e else throw "assertion failed" := by
  unfold lowerToShadowExpression
  rw [h]
  simp only
  rw [hc]
  simp only
  rw [hk]
  simp only
  rw [hn]

theorem lower_self {s : SmtSort} (h : S.shadowOf e = none) (hc : e.2.constants = [k])
    (hk : S.valuations k.2 = some n) (hn : n.2.constants = [(s, k.2)]) :
    lowerToShadowExpression simplifier missing S mode (fuel + 1) e = pure e := by
  unfold lowerToShadowExpression
  rw [h]
  simp only
  rw [hc]
  simp only
  rw [hk]
  simp only
  rw [hn]
  simp

theorem lower_nested (h : S.Nested e n) :
    lowerToShadowExpression simplifier missing S mode (fuel + 1) e =
      lowerToShadowExpression simplifier missing S mode fuel n := by
  obtain ⟨hshadow, k, hc, hk, hne, hself⟩ := h
  rw [lowerToShadowExpression, hshadow]
  simp only
  rw [hc]
  simp only
  rw [hk]
  simp only
  cases hn : n.2.constants with
  | nil => exact absurd hn hne
  | cons c rest =>
    cases rest with
    | cons c' rest => rfl
    | nil =>
      have hdiff : k.2 ≠ c.2 := fun heq => hself c.1 (by rw [hn, heq])
      simp [hdiff]

theorem lower_several (h : S.Several e) :
    lowerToShadowExpression simplifier missing S mode (fuel + 1) e =
      (substituteLowered (lowerToShadowExpression simplifier missing S mode fuel) e.2.constants
        e.2 >>= fun lowered => pure ⟨e.1, simplifier.simplify lowered⟩) := by
  rw [lowerToShadowExpression, h.1]
  simp only
  have hlen := h.2
  cases hc : e.2.constants with
  | nil => simp [hc] at hlen
  | cons c rest =>
    cases rest with
    | nil => simp [hc] at hlen
    | cons c' rest => rfl

/-- The cases of the lowering. -/
inductive Shape (S : ShadowStore N) (e : SortedTerm N) : Prop
  | shadow (p : ShadowPair N) (h : S.shadowOf e = some p)
  | closed (h : S.shadowOf e = none) (hc : e.2.constants = [])
  | missing (k : SmtSort × N) (h : S.shadowOf e = none) (hc : e.2.constants = [k])
    (hk : S.valuations k.2 = none)
  | literal (k : SmtSort × N) (n : SortedTerm N) (h : S.shadowOf e = none)
    (hc : e.2.constants = [k]) (hk : S.valuations k.2 = some n) (hn : n.2.constants = [])
  | self (k : SmtSort × N) (n : SortedTerm N) (s : SmtSort) (h : S.shadowOf e = none)
    (hc : e.2.constants = [k]) (hk : S.valuations k.2 = some n)
    (hn : n.2.constants = [(s, k.2)])
  | nested (n : SortedTerm N) (h : S.Nested e n)
  | several (h : S.Several e)

theorem shape (S : ShadowStore N) (e : SortedTerm N) : Shape S e := by
  cases h : S.shadowOf e with
  | some p => exact .shadow p h
  | none =>
    cases hc : e.2.constants with
    | nil => exact .closed h hc
    | cons k rest =>
      cases rest with
      | cons k' rest => exact .several ⟨h, by rw [hc]; simp⟩
      | nil =>
        cases hk : S.valuations k.2 with
        | none => exact .missing k h hc hk
        | some n =>
          by_cases hnil : n.2.constants = []
          · exact .literal k n h hc hk hnil
          · by_cases hself : ∃ s, n.2.constants = [(s, k.2)]
            · obtain ⟨s, hs⟩ := hself
              exact .self k n s h hc hk hs
            · exact .nested n ⟨h, k, hc, hk, hnil, not_exists.mp hself⟩

theorem finished_of_bind {α β : Type} {x : Lowering α} {f : α → Lowering β}
    (h : (x >>= f) ≠ unfinished) : x ≠ unfinished := by
  rintro rfl
  exact h rfl

theorem finished_cases {α : Type} {x : Lowering α} (h : x ≠ unfinished) :
    (∃ a, x = pure a) ∨ ∃ message, x = throw message := by
  match x, h with
  | none, h => exact absurd rfl h
  | some (.ok a), _ => exact Or.inl ⟨a, rfl⟩
  | some (.error message), _ => exact Or.inr ⟨message, rfl⟩

theorem pure_ne_unfinished {α : Type} (a : α) : (pure a : Lowering α) ≠ unfinished := nofun

theorem throw_ne_unfinished {α : Type} (message : String) :
    (throw message : Lowering α) ≠ unfinished := nofun

theorem pure_injective {α : Type} {a b : α} (h : (pure a : Lowering α) = pure b) : a = b := by
  injection h with h
  injection h

theorem substituteLowered_mono {lower lower' : SortedTerm N → Lowering (SortedTerm N)}
    (hlower : ∀ e, lower e ≠ unfinished → lower' e = lower e) {s : SmtSort}
    (ks : List (SmtSort × N)) (t : Term N s) (h : substituteLowered lower ks t ≠ unfinished) :
    substituteLowered lower' ks t = substituteLowered lower ks t := by
  induction ks generalizing t with
  | nil => rfl
  | cons k ks ih =>
    unfold substituteLowered at h ⊢
    rw [hlower _ (finished_of_bind h)]
    rcases finished_cases (finished_of_bind h) with ⟨r, hr⟩ | ⟨message, hr⟩
    · rw [hr, pure_bind] at h ⊢
      by_cases hsort : r.1 = k.1
      · rw [if_pos hsort] at h
        rw [pure_bind, if_pos hsort, if_pos hsort]
        exact ih _ h
      · rw [pure_bind, if_neg hsort, if_neg hsort]
    · rw [hr]
      rfl

theorem lower_succ (h : lowerToShadowExpression simplifier missing S mode fuel e ≠ unfinished) :
    lowerToShadowExpression simplifier missing S mode (fuel + 1) e =
      lowerToShadowExpression simplifier missing S mode fuel e := by
  induction fuel generalizing e with
  | zero => exact absurd rfl h
  | succ fuel ih =>
    cases shape S e with
    | shadow p hp => rw [lower_shadow hp, lower_shadow hp]
    | closed hs hc => rw [lower_closed hs hc, lower_closed hs hc]
    | missing k hs hc hk => rw [lower_missing hs hc hk, lower_missing hs hc hk]
    | literal k n hs hc hk hn => rw [lower_literal hs hc hk hn, lower_literal hs hc hk hn]
    | self k n s hs hc hk hn => rw [lower_self hs hc hk hn, lower_self hs hc hk hn]
    | nested n hn =>
      rw [lower_nested hn] at h
      rw [lower_nested hn, lower_nested hn]
      exact ih h
    | several hs =>
      rw [lower_several hs] at h
      rw [lower_several hs, lower_several hs,
        substituteLowered_mono (fun e => ih) _ _ (finished_of_bind h)]

theorem lower_mono {fuel' : ℕ} (hle : fuel ≤ fuel')
    (h : lowerToShadowExpression simplifier missing S mode fuel e ≠ unfinished) :
    lowerToShadowExpression simplifier missing S mode fuel' e =
      lowerToShadowExpression simplifier missing S mode fuel e := by
  induction fuel', hle using Nat.le_induction with
  | base => rfl
  | succ fuel' _ ih =>
    rw [← ih]
    apply lower_succ
    rw [ih]
    exact h

theorem lower_unique {fuel' : ℕ} {r r' : SortedTerm N}
    (h : lowerToShadowExpression simplifier missing S mode fuel e = pure r)
    (h' : lowerToShadowExpression simplifier missing S mode fuel' e = pure r') : r = r' := by
  apply pure_injective
  rcases Nat.le_total fuel fuel' with hle | hle
  · rw [← h, ← h']
    exact (lower_mono hle (h ▸ pure_ne_unfinished r)).symm
  · rw [← h, ← h']
    exact lower_mono hle (h' ▸ pure_ne_unfinished r')

theorem exists_fuel {α : Type} {P : ℕ → α → Prop} (hmono : ∀ f f' a, f ≤ f' → P f a → P f' a)
    (l : List α) (h : ∀ a ∈ l, ∃ f, P f a) : ∃ f, ∀ a ∈ l, P f a := by
  induction l with
  | nil => exact ⟨0, nofun⟩
  | cons a l ih =>
    rw [List.forall_mem_cons] at h
    obtain ⟨f, hf⟩ := h.1
    obtain ⟨f', hf'⟩ := ih h.2
    refine ⟨max f f', List.forall_mem_cons.mpr ⟨hmono _ _ _ (Nat.le_max_left f f') hf, ?_⟩⟩
    intro b hb
    exact hmono _ _ _ (Nat.le_max_right f f') (hf' b hb)

theorem substituteLowered_finished {lower : SortedTerm N → Lowering (SortedTerm N)} {s : SmtSort}
    (ks : List (SmtSort × N)) (t : Term N s)
    (h : ∀ k ∈ ks, lower ⟨k.1, .constant k.1 k.2⟩ ≠ unfinished) :
    substituteLowered lower ks t ≠ unfinished := by
  induction ks generalizing t with
  | nil => exact pure_ne_unfinished t
  | cons k ks ih =>
    rw [List.forall_mem_cons] at h
    unfold substituteLowered
    rcases finished_cases h.1 with ⟨r, hr⟩ | ⟨message, hr⟩
    · rw [hr, pure_bind]
      by_cases hsort : r.1 = k.1
      · rw [if_pos hsort]
        exact ih _ h.2
      · rw [if_neg hsort]
        exact throw_ne_unfinished _
    · rw [hr]
      exact throw_ne_unfinished message

/-- The lowering ends where the lowerings it needs end. -/
theorem finished_step (h : ∀ e', S.Calls e e' →
      ∃ fuel, lowerToShadowExpression simplifier missing S mode fuel e' ≠ unfinished) :
    ∃ fuel, lowerToShadowExpression simplifier missing S mode fuel e ≠ unfinished := by
  cases shape S e with
  | shadow p hp =>
    refine ⟨1, ?_⟩
    rw [lower_shadow hp]
    exact pure_ne_unfinished _
  | closed hs hc =>
    refine ⟨1, ?_⟩
    rw [lower_closed hs hc]
    split_ifs
    exacts [pure_ne_unfinished _, throw_ne_unfinished _]
  | missing k hs hc hk =>
    refine ⟨1, ?_⟩
    rw [lower_missing hs hc hk]
    exact throw_ne_unfinished _
  | literal k n hs hc hk hn =>
    refine ⟨1, ?_⟩
    rw [lower_literal hs hc hk hn]
    split_ifs
    exacts [pure_ne_unfinished _, throw_ne_unfinished _]
  | self k n s hs hc hk hn =>
    refine ⟨1, ?_⟩
    rw [lower_self hs hc hk hn]
    exact pure_ne_unfinished _
  | nested n hn =>
    obtain ⟨fuel, hfuel⟩ := h n (Or.inl hn)
    refine ⟨fuel + 1, ?_⟩
    rw [lower_nested hn]
    exact hfuel
  | several hs =>
    have hall : ∃ f, ∀ k ∈ e.2.constants, lowerToShadowExpression simplifier missing S mode f
        ⟨k.1, .constant k.1 k.2⟩ ≠ unfinished := by
      apply exists_fuel
      · intro f f' k hle hf
        rw [lower_mono hle hf]
        exact hf
      · intro k hk
        exact h _ (Or.inr ⟨hs, k, hk, rfl⟩)
    obtain ⟨fuel, hfuel⟩ := hall
    refine ⟨fuel + 1, ?_⟩
    rw [lower_several hs]
    rcases finished_cases (substituteLowered_finished e.2.constants e.2 hfuel) with
      ⟨r, hr⟩ | ⟨message, hr⟩
    · rw [hr]
      exact pure_ne_unfinished _
    · rw [hr]
      exact throw_ne_unfinished message

theorem constants_constant (k : SmtSort × N) :
    (Term.constant k.1 k.2 : Term N k.1).constants = [k] := rfl

theorem calls_constant (h : S.Calls ⟨k.1, .constant k.1 k.2⟩ e) : S.valuations k.2 = some e := by
  rcases h with ⟨-, k', hk', hvaluation, -⟩ | ⟨⟨-, hlen⟩, -⟩
  · rw [constants_constant] at hk'
    obtain rfl := List.singleton_injective hk'
    exact hvaluation
  · exact absurd hlen (by simp [constants_constant])

theorem acc_of_constants
    (h : ∀ k ∈ e.2.constants, ∀ n, S.Nested e n ∨ S.Several e → S.valuations k.2 = some n →
      Acc (fun e' e => S.Calls e e') n) :
    Acc (fun e' e => S.Calls e e') e := by
  refine Acc.intro e fun e' hcall => ?_
  rcases hcall with hnested | ⟨hseveral, k, hk, rfl⟩
  · obtain ⟨-, k, hk, hvaluation, -⟩ := id hnested
    exact h k (by rw [hk]; exact List.mem_singleton_self k) e' (Or.inl hnested) hvaluation
  · refine Acc.intro _ fun n hn => ?_
    exact h k hk n (Or.inr hseveral) (calls_constant hn)

/-- What a computation comes to, whatever the message of a failure. -/
def outcome {α : Type} (x : Lowering α) : Option (Option α) := x.run.map Except.toOption

theorem outcome_bind {α β : Type} {x y : Lowering α} {f g : α → Lowering β}
    (h : outcome x = outcome y) (hf : ∀ a, outcome (f a) = outcome (g a)) :
    outcome (x >>= f) = outcome (y >>= g) := by
  match x, y, h with
  | none, none, _ => rfl
  | some (.ok a), some (.ok b), h =>
    obtain rfl : a = b := Option.some.inj (Option.some.inj h)
    exact hf a
  | some (.error _), some (.error _), _ => rfl

theorem substituteLowered_outcome {lower lower' : SortedTerm N → Lowering (SortedTerm N)}
    (h : ∀ e, outcome (lower e) = outcome (lower' e)) {s : SmtSort} (ks : List (SmtSort × N))
    (t : Term N s) :
    outcome (substituteLowered lower ks t) = outcome (substituteLowered lower' ks t) := by
  induction ks generalizing t with
  | nil => rfl
  | cons k ks ih =>
    unfold substituteLowered
    apply outcome_bind (h _)
    intro r
    split_ifs
    · exact ih _
    · rfl

theorem lower_outcome (missing missing' : String) (fuel : ℕ) (e : SortedTerm N) :
    outcome (lowerToShadowExpression simplifier missing S mode fuel e) =
      outcome (lowerToShadowExpression simplifier missing' S mode fuel e) := by
  induction fuel generalizing e with
  | zero => rfl
  | succ fuel ih =>
    cases shape S e with
    | shadow p hp => rw [lower_shadow hp, lower_shadow hp]
    | closed hs hc => rw [lower_closed hs hc, lower_closed hs hc]
    | missing k hs hc hk =>
      rw [lower_missing hs hc hk, lower_missing hs hc hk]
      rfl
    | literal k n hs hc hk hn => rw [lower_literal hs hc hk hn, lower_literal hs hc hk hn]
    | self k n s hs hc hk hn => rw [lower_self hs hc hk hn, lower_self hs hc hk hn]
    | nested n hn =>
      rw [lower_nested hn, lower_nested hn]
      exact ih n
    | several hs =>
      rw [lower_several hs, lower_several hs]
      apply outcome_bind (substituteLowered_outcome ih _ _)
      intro _
      rfl

end Lowering

end Shadow

end Ahorn
