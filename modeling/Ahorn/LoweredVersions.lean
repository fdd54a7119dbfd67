import Ahorn.ShadowLowering

set_option autoImplicit false

/-!
# Lowered versions

A lowering is to give the expression in which every change has been decided for one version. It goes
on with the definition of a constant instead of the expression around it, so what stands around the
constant has to be worth as much as the definition.
-/
namespace Ahorn.Shadow

section Resolution

variable {N : Type} [DecidableEq N]

namespace ShadowStore

/-- The valuations with the shadow constants replaced by the operands of one version. -/
def replaced (S : ShadowStore N) (mode : ShadowProcessingMode) : Definitions N :=
  Definitions.union (fun n => (S.shadowValuations n).map fun p => p.operand mode) S.valuations

/-- Every constant is a shadow constant or has a valuation, at the sort it is used with. -/
def Named (S : ShadowStore N) (e : SortedTerm N) : Prop :=
  ∀ k ∈ e.2.occurrences, (∃ t, S.valuations k.2 = some ⟨k.1, t⟩) ∨
    ∃ p, S.shadowValuations k.2 = some p ∧ p.sort = k.1

/-- The valuations have no cycles except that a name may stand for itself. -/
structure WellFormed (S : ShadowStore N) : Prop where
  wellFounded : WellFounded S.valuations.Uses
  named : ∀ n e, S.valuations n = some e → S.Named e
  sorted : ∀ n e p, S.valuations n = some e → S.shadowValuations n = some p → p.sort = e.1

/-- The name is a shadow constant, or its definition leads to one. -/
inductive Reaches (S : ShadowStore N) : N → Prop
  | shadow {n : N} {p : ShadowPair N} (h : S.shadowValuations n = some p) : Reaches S n
  | definition {n : N} {e : SortedTerm N} {k : SmtSort × N} (h : S.valuations n = some e)
    (hk : k ∈ e.2.occurrences) (hr : Reaches S k.2) : Reaches S n

/-- The lowering of the first expression comes to the second. -/
def Visits (S : ShadowStore N) : SortedTerm N → SortedTerm N → Prop :=
  Relation.ReflTransGen S.Calls

/-- The expressions that are lowered without leaving out what stands around a constant. -/
inductive Handled (S : ShadowStore N) (mode : ShadowProcessingMode) : SortedTerm N → Prop
  | shadow {e : SortedTerm N} {p : ShadowPair N} (h : S.shadowOf e = some p)
    (hp : ∀ k ∈ (p.operand mode).2.occurrences, ¬ S.Reaches k.2) : Handled S mode e
  | literal {e : SortedTerm N} (h : e.2.isLiteral = true) : Handled S mode e
  | settled {e n : SortedTerm N} {k : SmtSort × N} (h : e.2.constants = [k])
    (hk : S.shadowValuations k.2 = none) (hn : S.valuations k.2 = some n)
    (hend : n.2.isLiteral = true ∨ n = ⟨k.1, .constant k.1 k.2⟩) : Handled S mode e
  | nested {s : SmtSort} {t nested : Term N s} (h : S.Nested ⟨s, t⟩ ⟨s, nested⟩)
    (hvalue : ∀ M, (S.replaced mode).Respects M → t.eval M = nested.eval M) :
    Handled S mode ⟨s, t⟩
  | several {e : SortedTerm N} (h : S.Several e) : Handled S mode e

end ShadowStore

/-- The lowering ends, with a term of the same sort and value that leads to no shadow constant. -/
def Resolves (lower : ℕ → SortedTerm N → Lowering (SortedTerm N)) (S : ShadowStore N)
    (mode : ShadowProcessingMode) (e : SortedTerm N) : Prop :=
  ∃ fuel, ∃ r : Term N e.1, lower fuel e = pure ⟨e.1, r⟩ ∧
    (∀ k ∈ r.occurrences, ¬ S.Reaches k.2) ∧
    ∀ M, (S.replaced mode).Respects M → r.eval M = e.2.eval M

variable {simplifier : Simplifier N} {missing : String} {S : ShadowStore N}
variable {mode : ShadowProcessingMode} {e e' : SortedTerm N}

theorem acc_valuation (hS : S.WellFormed) {n : N} (h : S.valuations n = some e) :
    Acc (fun e' e => S.Calls e e') e := by
  induction n using hS.wellFounded.induction generalizing e with
  | _ n ih =>
    apply acc_of_constants
    intro k hk n' hgo hn'
    have hne : e.2 ≠ .constant e.1 n := by
      intro hself
      have hc : e.2.constants = [(e.1, n)] := by
        rw [hself]
        rfl
      rcases hgo with ⟨-, k', hk', hvaluation, -, hstop⟩ | ⟨-, hlen⟩
      · rw [hc] at hk'
        obtain rfl := List.singleton_injective hk'
        rw [h] at hvaluation
        cases hvaluation
        exact hstop e.1 hc
      · simp [hc] at hlen
    exact ih k.2 ⟨e.1, e.2, h, hne, k.1, (Term.mem_constants _ _).mp hk⟩ hn'

theorem acc_calls (hS : S.WellFormed) (e : SortedTerm N) : Acc (fun e' e => S.Calls e e') e :=
  acc_of_constants fun _ _ _ _ h => acc_valuation hS h

theorem lower_terminates (simplifier : Simplifier N) (missing : String)
    (mode : ShadowProcessingMode) (hS : S.WellFormed) (e : SortedTerm N) :
    ∃ fuel, lowerToShadowExpression simplifier missing S mode fuel e ≠ unfinished := by
  induction acc_calls hS e with
  | intro e _ ih => exact finished_step ih

theorem named_of_calls (hS : S.WellFormed) (he : S.Named e) (h : S.Calls e e') : S.Named e' := by
  rcases h with ⟨-, k, -, hvaluation, -⟩ | ⟨-, k, hk, rfl⟩
  · exact hS.named k.2 e' hvaluation
  · intro k' hk'
    obtain rfl := List.mem_singleton.mp hk'
    exact he _ ((Term.mem_constants _ _).mp hk)

omit [DecidableEq N] in
theorem not_reaches {k : SmtSort × N} {n : SortedTerm N} (hk : S.shadowValuations k.2 = none)
    (hn : S.valuations k.2 = some n) (hend : ∀ c ∈ n.2.occurrences, c.2 = k.2) :
    ¬ S.Reaches k.2 := by
  intro hr
  generalize hname : k.2 = name at hr
  induction hr with
  | shadow h =>
    rw [← hname, hk] at h
    cases h
  | definition h hc _ ih =>
    rw [← hname, hn] at h
    cases h
    exact ih (hend _ hc).symm

omit [DecidableEq N] in
theorem occurrences_of_isLiteral {s : SmtSort} {t : Term N s} (h : t.isLiteral = true) :
    t.occurrences = [] := by
  cases t with
  | booleanValue _ | integerValue _ => rfl
  | _ => cases h

theorem eq_constant_of_self (hS : S.WellFormed) {n : SortedTerm N} {s : SmtSort} {x : N}
    (h : S.valuations x = some n) (hc : n.2.constants = [(s, x)]) :
    n = ⟨n.1, .constant n.1 x⟩ := by
  by_contra hne
  have huses : S.valuations.Uses x x := by
    refine ⟨n.1, n.2, h, fun heq => hne (Sigma.ext rfl (heq_of_eq heq)), s, ?_⟩
    rw [← Term.mem_constants, hc]
    exact List.mem_singleton_self _
  exact (hS.wellFounded.irrefl.irrefl x) huses

/-- The result `r` has the value of `t` and leads to no shadow constant. -/
def IsResolution (S : ShadowStore N) (mode : ShadowProcessingMode) {s : SmtSort} (t r : Term N s) :
    Prop :=
  (∀ k ∈ r.occurrences, ¬ S.Reaches k.2) ∧
    ∀ M, (S.replaced mode).Respects M → r.eval M = t.eval M

theorem substituteLowered_ok {lower : SortedTerm N → Lowering (SortedTerm N)} {s : SmtSort}
    (ks : List (SmtSort × N)) (t : Term N s)
    (h : ∀ k ∈ ks, ∃ r : Term N k.1, lower ⟨k.1, .constant k.1 k.2⟩ = pure ⟨k.1, r⟩ ∧
      IsResolution S mode (.constant k.1 k.2) r) :
    ∃ r, substituteLowered lower ks t = pure r ∧
      (∀ c ∈ r.occurrences, S.Reaches c.2 → c ∈ t.occurrences ∧ c ∉ ks) ∧
      ∀ M, (S.replaced mode).Respects M → r.eval M = t.eval M := by
  induction ks generalizing t with
  | nil => exact ⟨t, rfl, fun c hc _ => ⟨hc, List.not_mem_nil⟩, fun _ _ => rfl⟩
  | cons k ks ih =>
    rw [List.forall_mem_cons] at h
    obtain ⟨lowered, hlowered, hreaches, hvalue⟩ := h.1
    obtain ⟨r, hr, hrreaches, hrvalue⟩ := ih (t.substitute k.2 lowered) h.2
    refine ⟨r, ?_, ?_, ?_⟩
    · unfold substituteLowered
      rw [hlowered, pure_bind, if_pos rfl]
      exact hr
    · intro c hc hcr
      obtain ⟨hmem, hnot⟩ := hrreaches c hc hcr
      rcases Term.mem_occurrences_substitute hmem with hold | ⟨hold, hne⟩
      · exact absurd hcr (hreaches c hold)
      · refine ⟨hold, fun hcons => ?_⟩
        exact (List.mem_cons.mp hcons).elim hne hnot
    · intro M hM
      rw [hrvalue M hM]
      exact Term.eval_substitute (hvalue M hM) t

omit [DecidableEq N] in
theorem isResolution_shadow {p : ShadowPair N} (hS : S.WellFormed) (he : S.Named e)
    (h : S.shadowOf e = some p)
    (hp : ∀ k ∈ (p.operand mode).2.occurrences, ¬ S.Reaches k.2) :
    ∃ r : Term N e.1, p.operand mode = ⟨e.1, r⟩ ∧ IsResolution S mode e.2 r := by
  obtain ⟨s, t⟩ := e
  cases t with
  | constant s n =>
    change S.shadowValuations n = some p at h
    have hsort : p.sort = s := by
      rcases he (s, n) (List.mem_singleton_self _) with ⟨t, ht⟩ | ⟨p', hp', hsort⟩
      · exact hS.sorted n _ p ht h
      · rw [h] at hp'
        cases hp'
        exact hsort
    have hdefined : S.replaced mode n = some (p.operand mode) :=
      Definitions.union_left (by rw [h]; rfl)
    obtain ⟨sort, first, second⟩ := p
    subst hsort
    cases mode with
    | old =>
      exact ⟨first, rfl, hp, fun M hM => (hM n _ first hdefined).symm⟩
    | new =>
      exact ⟨second, rfl, hp, fun M hM => (hM n _ second hdefined).symm⟩
  | _ => cases h

theorem shadowOf_eq_none {k : SmtSort × N} (hc : e.2.constants = [k])
    (hk : S.shadowValuations k.2 = none) : S.shadowOf e = none := by
  obtain ⟨s, t⟩ := e
  cases t with
  | constant s n =>
    obtain rfl := List.singleton_injective hc
    exact hk
  | _ => rfl

theorem resolves_of_handled (hS : S.WellFormed) (he : S.Named e)
    (h : ∀ e', S.Visits e e' → S.Handled mode e') :
    Resolves (lowerToShadowExpression simplifier missing S mode) S mode e := by
  induction acc_calls hS e with
  | intro e _ ih =>
    have hcalls : ∀ e', S.Calls e e' →
        Resolves (lowerToShadowExpression simplifier missing S mode) S mode e' := fun e' hcall =>
      ih e' hcall (named_of_calls hS he hcall) fun e'' hvisit => h e'' (.head hcall hvisit)
    cases h e .refl with
    | shadow hp hreaches =>
      obtain ⟨r, hr, hresolution⟩ := isResolution_shadow hS he hp hreaches
      exact ⟨1, r, by rw [lower_shadow hp, hr], hresolution⟩
    | literal hliteral =>
      have hnone := occurrences_of_isLiteral hliteral
      have hc : e.2.constants = [] := by
        rw [Term.constants, hnone]
        rfl
      have hshadow : S.shadowOf e = none := by
        obtain ⟨s, t⟩ := e
        cases t with
        | constant s n => cases hliteral
        | _ => rfl
      refine ⟨1, e.2, ?_, ?_, fun _ _ => rfl⟩
      · rw [lower_closed hshadow hc, if_pos hliteral]
      · rw [hnone]
        exact nofun
    | @settled _ n k hc hk hn hend =>
      have hshadow := shadowOf_eq_none hc hk
      have hreaches : ¬ S.Reaches k.2 := by
        apply not_reaches hk hn
        rcases hend with hliteral | rfl
        · rw [occurrences_of_isLiteral hliteral]
          exact nofun
        · intro c hmem
          obtain rfl := List.mem_singleton.mp hmem
          rfl
      refine ⟨1, e.2, ?_, ?_, fun _ _ => rfl⟩
      · rcases hend with hliteral | rfl
        · have hnil : n.2.constants = [] := by
            rw [Term.constants, occurrences_of_isLiteral hliteral]
            rfl
          rw [lower_literal hshadow hc hn hnil, if_pos hliteral]
        · exact lower_self hshadow hc hn rfl
      · intro c hmem
        rw [Term.eq_of_constants hc hmem]
        exact hreaches
    | @nested s t nested hn hvalue =>
      obtain ⟨fuel, r, hr, hreaches, hrvalue⟩ := hcalls _ (Or.inl hn)
      refine ⟨fuel + 1, r, ?_, hreaches, ?_⟩
      · rw [lower_nested hn]
        exact hr
      · intro M hM
        rw [hrvalue M hM, hvalue M hM]
    | several hs =>
      have hall : ∃ fuel, ∀ k ∈ e.2.constants, ∃ r : Term N k.1,
          lowerToShadowExpression simplifier missing S mode fuel ⟨k.1, .constant k.1 k.2⟩ =
            pure ⟨k.1, r⟩ ∧ IsResolution S mode (.constant k.1 k.2) r := by
        apply exists_fuel
        · rintro f f' k hle ⟨r, hr, hresolution⟩
          refine ⟨r, ?_, hresolution⟩
          rw [lower_mono hle (hr ▸ pure_ne_unfinished _), hr]
        · intro k hk
          exact hcalls _ (Or.inr ⟨hs, k, hk, rfl⟩)
      obtain ⟨fuel, hfuel⟩ := hall
      obtain ⟨r, hr, hreaches, hvalue⟩ := substituteLowered_ok e.2.constants e.2 hfuel
      refine ⟨fuel + 1, simplifier.simplify r, ?_, ?_, ?_⟩
      · rw [lower_several hs, hr]
        rfl
      · intro c hmem hc
        obtain ⟨hold, hnot⟩ := hreaches c (simplifier.occurrences_simplify r hmem) hc
        exact hnot ((Term.mem_constants _ _).mpr hold)
      · intro M hM
        rw [simplifier.eval_simplify]
        exact hvalue M hM

theorem shadow_eq_none {k : SmtSort × N} {r : Term N e.1} (hc : e.2.constants = [k])
    (hr : (pure e : Lowering (SortedTerm N)) = pure ⟨e.1, r⟩)
    (hreaches : ∀ k ∈ r.occurrences, ¬ S.Reaches k.2) : S.shadowValuations k.2 = none := by
  have hmem : k ∈ r.occurrences := by
    have heq : e.2 = r := eq_of_heq (Sigma.mk.inj (pure_injective hr)).2
    rw [← heq, ← Term.mem_constants, hc]
    exact List.mem_singleton_self k
  cases hk : S.shadowValuations k.2 with
  | none => rfl
  | some p => exact absurd (ShadowStore.Reaches.shadow hk) (hreaches k hmem)

/-- Where a lowering and the lowerings it needs resolve their expressions, none of them leaves out
what stands around a constant. -/
theorem handled_of_resolves (hS : S.WellFormed) (he : S.Named e)
    (h : ∀ e', S.Visits e e' →
      Resolves (lowerToShadowExpression simplifier missing S mode) S mode e') :
    S.Handled mode e := by
  obtain ⟨fuel, r, hr, hreaches, hvalue⟩ := h e .refl
  cases fuel with
  | zero => exact absurd hr.symm (pure_ne_unfinished _)
  | succ fuel =>
    cases shape S e with
    | shadow p hp =>
      rw [lower_shadow hp] at hr
      apply ShadowStore.Handled.shadow hp
      rw [pure_injective hr]
      exact hreaches
    | closed hs hc =>
      rw [lower_closed hs hc] at hr
      split_ifs at hr with hliteral
      · exact .literal hliteral
      · cases hr
    | missing k hs hc hk =>
      rw [lower_missing hs hc hk] at hr
      cases hr
    | literal k n hs hc hk hn =>
      rw [lower_literal hs hc hk hn] at hr
      split_ifs at hr with hliteral
      · exact .settled hc (shadow_eq_none hc hr hreaches) hk (Or.inl hliteral)
      · cases hr
    | self k n s hs hc hk hn =>
      rw [lower_self hs hc hk hn] at hr
      have hnone := shadow_eq_none hc hr hreaches
      have hself := eq_constant_of_self hS hk hn
      have hmem : k ∈ e.2.occurrences := by
        rw [← Term.mem_constants, hc]
        exact List.mem_singleton_self k
      have hsort : n.1 = k.1 := by
        rcases he k hmem with ⟨t, ht⟩ | ⟨p, hp, -⟩
        · rw [hk] at ht
          cases ht
          rfl
        · rw [hnone] at hp
          cases hp
      rw [hsort] at hself
      exact .settled hc hnone hk (Or.inr hself)
    | nested n hn =>
      obtain ⟨fuel', r', hr', -, hvalue'⟩ := h n (.single (Or.inl hn))
      rw [lower_nested hn] at hr
      obtain ⟨s, t⟩ := e
      obtain ⟨s', t'⟩ := n
      cases lower_unique hr hr'
      exact .nested hn fun M hM => (hvalue M hM).symm.trans (hvalue' M hM)
    | several hs => exact .several hs

/-- The lowering ends, and it and the lowerings it needs resolve their expressions exactly if none
of them leaves out what stands around a constant. -/
def LowersExactly (lower : ℕ → SortedTerm N → Lowering (SortedTerm N)) (S : ShadowStore N)
    (mode : ShadowProcessingMode) (e : SortedTerm N) : Prop :=
  (∃ fuel, lower fuel e ≠ unfinished) ∧
    ((∀ e', S.Visits e e' → Resolves lower S mode e') ↔
      ∀ e', S.Visits e e' → S.Handled mode e')

theorem named_of_visits (hS : S.WellFormed) (he : S.Named e) (h : S.Visits e e') : S.Named e' := by
  induction h with
  | refl => exact he
  | tail _ hcall ih => exact named_of_calls hS ih hcall

theorem lower_lowersExactly (hS : S.WellFormed) (he : S.Named e) :
    LowersExactly (lowerToShadowExpression simplifier missing S mode) S mode e := by
  refine ⟨lower_terminates simplifier missing mode hS e, ?_, ?_⟩
  · intro h e' hvisit
    exact handled_of_resolves hS (named_of_visits hS he hvisit) fun e'' hvisit' =>
      h e'' (hvisit.trans hvisit')
  · intro h e' hvisit
    exact resolves_of_handled hS (named_of_visits hS he hvisit) fun e'' hvisit' =>
      h e'' (hvisit.trans hvisit')

end Resolution

/-- The three copies of the lowering resolve exactly the same expressions. -/
theorem lowerings_resolve_iff (simplifier : Simplifier String) (valuations : Valuations)
    (shadowValuations : ShadowValuations) (mode : ShadowProcessingMode) (e : SortedTerm String)
    (hS : (storeOf valuations shadowValuations).WellFormed)
    (he : (storeOf valuations shadowValuations).Named e) :
    (∀ st, st.symbolicStore = storeOf valuations shadowValuations →
      LowersExactly (DivergenceEncoder.lowerToShadowExpression simplifier st mode)
        (storeOf valuations shadowValuations) mode e) ∧
    (∀ st, st.concreteStore = storeOf valuations shadowValuations →
      LowersExactly (DivergenceEvaluator.lowerToShadowExpression simplifier st mode)
        (storeOf valuations shadowValuations) mode e) ∧
    LowersExactly (Engine.lowerToShadowExpression simplifier valuations shadowValuations)
      (storeOf valuations shadowValuations) .new e ∧
    (∀ st st' fuel, st.symbolicStore = storeOf valuations shadowValuations →
      st'.concreteStore = storeOf valuations shadowValuations →
      outcome (DivergenceEncoder.lowerToShadowExpression simplifier st mode fuel e) =
        outcome (DivergenceEvaluator.lowerToShadowExpression simplifier st' mode fuel e)) ∧
    ∀ st fuel, st.symbolicStore = storeOf valuations shadowValuations →
      outcome (DivergenceEncoder.lowerToShadowExpression simplifier st .new fuel e) =
        outcome (Engine.lowerToShadowExpression simplifier valuations shadowValuations fuel e) := by
  refine ⟨?_, ?_, lower_lowersExactly hS he, ?_, ?_⟩
  · intro st hst
    rw [DivergenceEncoder.lowerToShadowExpression, hst]
    exact lower_lowersExactly hS he
  · intro st hst
    rw [DivergenceEvaluator.lowerToShadowExpression, hst]
    exact lower_lowersExactly hS he
  · intro st st' fuel hst hst'
    rw [DivergenceEncoder.lowerToShadowExpression, DivergenceEvaluator.lowerToShadowExpression,
      hst, hst']
    exact lower_outcome _ _ fuel e
  · intro st fuel hst
    rw [DivergenceEncoder.lowerToShadowExpression, hst]
    rfl

/-! A change between the values one and two is assigned to `x`, and `x + 1` to `y`. -/
namespace ChangedValue

def literal (i : ℤ) : SortedTerm String := ⟨.int, .integerValue i⟩

def named (n : String) : SortedTerm String := ⟨.int, .constant .int n⟩

def next (n : String) : SortedTerm String :=
  ⟨.int, .arithmetic .add (.constant .int n) (.integerValue 1)⟩

def change : ShadowPair String := ⟨.int, .integerValue 1, .integerValue 2⟩

/-- The concrete value of `x` is put in its place in `y`, the symbolic one is referred to. -/
def state : DivergentState where
  concreteValuations := ⟨[("P.x_1__0", named "concrete_shadow_0__0"),
    ("P.y_1__0", next "concrete_shadow_0__0")], by decide⟩
  concreteShadowValuations := ⟨[("concrete_shadow_0__0", change)], List.pairwise_singleton _ _⟩
  symbolicValuations := ⟨[("P.x_1__0", named "symbolic_shadow_0__0"),
    ("P.y_1__0", next "P.x_1__0")], by decide⟩
  symbolicShadowValuations := ⟨[("symbolic_shadow_0__0", change)], List.pairwise_singleton _ _⟩

theorem valuations_cases {n : String} {e : SortedTerm String}
    (h : state.symbolicStore.valuations n = some e) :
    n = "P.x_1__0" ∧ e = named "symbolic_shadow_0__0" ∨ n = "P.y_1__0" ∧ e = next "P.x_1__0" := by
  change OrderedMap.lookup n _ = some e at h
  simp only [state, OrderedMap.lookup] at h
  split_ifs at h with hx hy
  · exact Or.inl ⟨hx, (Option.some.inj h).symm⟩
  · exact Or.inr ⟨hy, (Option.some.inj h).symm⟩

theorem shadowValuations_cases {n : String} {p : ShadowPair String}
    (h : state.symbolicStore.shadowValuations n = some p) :
    n = "symbolic_shadow_0__0" ∧ p = change := by
  change OrderedMap.lookup n _ = some p at h
  simp only [state, OrderedMap.lookup] at h
  split_ifs at h with hs
  exact ⟨hs, (Option.some.inj h).symm⟩

/-- The value of `y` is defined by `x`, and that of `x` by the shadow constant. -/
def depth (n : String) : ℕ := if n = "P.y_1__0" then 2 else if n = "P.x_1__0" then 1 else 0

theorem wellFormed : state.symbolicStore.WellFormed where
  wellFounded := by
    apply Subrelation.wf _ (measure depth).wf
    rintro k n ⟨s, t, hn, -, s', hk⟩
    rcases valuations_cases hn with ⟨rfl, he⟩ | ⟨rfl, he⟩
    · cases he
      obtain ⟨-, rfl⟩ := Prod.mk.inj (List.mem_singleton.mp hk)
      exact (by decide : depth "symbolic_shadow_0__0" < depth "P.x_1__0")
    · cases he
      obtain ⟨-, rfl⟩ := Prod.mk.inj (List.mem_singleton.mp hk)
      exact (by decide : depth "P.x_1__0" < depth "P.y_1__0")
  named := by
    intro n e hn k hk
    rcases valuations_cases hn with ⟨-, rfl⟩ | ⟨-, rfl⟩
    · obtain rfl := List.mem_singleton.mp hk
      exact Or.inr ⟨change, rfl, rfl⟩
    · obtain rfl := List.mem_singleton.mp hk
      exact Or.inl ⟨_, rfl⟩
  sorted := by
    intro n e p hn hp
    obtain ⟨rfl, -⟩ := shadowValuations_cases hp
    rcases valuations_cases hn with ⟨h, -⟩ | ⟨h, -⟩
    · exact absurd h (by decide)
    · exact absurd h (by decide)

theorem named_of_mem (n : String) (h : n = "P.x_1__0" ∨ n = "P.y_1__0") :
    state.symbolicStore.Named (named n) := by
  intro k hk
  obtain rfl := List.mem_singleton.mp hk
  rcases h with rfl | rfl
  · exact Or.inl ⟨_, rfl⟩
  · exact Or.inl ⟨_, rfl⟩

def oldValues : Model String
  | .bool, _ => false
  | .int, n => if n = "P.y_1__0" then (2 : ℤ) else (1 : ℤ)

theorem oldValues_respects : (state.symbolicStore.replaced .old).Respects oldValues := by
  intro n s t h
  cases hn : state.symbolicStore.shadowValuations n with
  | some p =>
    obtain ⟨rfl, rfl⟩ := shadowValuations_cases hn
    cases h
    rfl
  | none =>
    rw [ShadowStore.replaced, Definitions.union_right (by rw [hn]; rfl)] at h
    rcases valuations_cases h with ⟨rfl, he⟩ | ⟨rfl, he⟩
    · cases he
      rfl
    · cases he
      rfl

theorem lower_old : DivergenceEncoder.lowerToShadowExpression (.identity String) state .old 4
    (named "P.y_1__0") = pure (literal 1) := rfl

/-- The lowering of `y` to the old version loses the addition around `x`. -/
theorem y_not_resolved : state.symbolicStore.WellFormed ∧
    state.symbolicStore.Named (named "P.y_1__0") ∧
    ¬ Resolves (DivergenceEncoder.lowerToShadowExpression (.identity String) state .old)
      state.symbolicStore .old (named "P.y_1__0") := by
  refine ⟨wellFormed, named_of_mem _ (Or.inr rfl), ?_⟩
  rintro ⟨fuel, r, hr, -, hvalue⟩
  cases lower_unique hr lower_old
  exact absurd (hvalue oldValues oldValues_respects) (by decide)

/-- The old value of `x` itself is found. -/
theorem x_lowered : LowersExactly
    (DivergenceEncoder.lowerToShadowExpression (.identity String) state .old)
    state.symbolicStore .old (named "P.x_1__0") :=
  (lowerings_resolve_iff (.identity String) state.symbolicValuations
    state.symbolicShadowValuations .old (named "P.x_1__0") wellFormed
    (named_of_mem _ (Or.inl rfl))).1 state rfl

end ChangedValue

end Ahorn.Shadow
