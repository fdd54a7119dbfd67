import Ahorn.NoMergePaths
import Ahorn.SettledTerms

set_option autoImplicit false

/-!
# Forking without asking the solver

Before the solver is asked for the other side of a branch, a search through the valuations looks for
a constant that stands for itself. Where there is none, the valuations settle the condition, and the
other side is skipped.
-/
namespace Ahorn.EtfaNoMerge

open Etfa
variable {p : Program} {ex : Executor} {random : String → ℤ} {versions versions' : Versions}
  {c c' : Context} {frame : Frame} {simplifier : Simplifier String} {st : State} {s : SmtSort}

namespace Executor

/-- The search ends, and answers with false for settled terms only. -/
def Decides (simplifier : Simplifier String) (st : State) (fuel : ℕ) (t : Term String s) : Prop :=
  ∃ b, containsUnconstrainedUninterpretedConstant simplifier st fuel t = .ok b ∧
    (b = false ↔ Definitions.Settled simplifier st.symbolicValuations.find? t)

theorem getSymbolicValuation_ok {n : String} {e : SortedTerm String}
    (h : st.symbolicValuations.find? n = some e) : st.getSymbolicValuation n = .ok e := by
  unfold State.getSymbolicValuation
  rw [h]

theorem anyM_decides {α : Type} {f : α → Except String Bool} {P : α → Prop} {l : List α}
    (h : ∀ a ∈ l, ∃ b, f a = .ok b ∧ (b = false ↔ P a)) :
    ∃ b, l.anyM f = .ok b ∧ (b = false ↔ ∀ a ∈ l, P a) := by
  induction l with
  | nil => exact ⟨false, rfl, by simp⟩
  | cons a l ih =>
    obtain ⟨b, hb, hiff⟩ := h a List.mem_cons_self
    rw [List.anyM, hb]
    cases b with
    | true =>
      refine ⟨true, rfl, iff_of_false (by decide) fun hall => ?_⟩
      exact Bool.noConfusion (hiff.mpr (hall a List.mem_cons_self))
    | false =>
      obtain ⟨b', hb', hiff'⟩ := ih fun a' ha' => h a' (List.mem_cons_of_mem _ ha')
      refine ⟨b', hb', hiff'.trans ?_⟩
      rw [List.forall_mem_cons]
      exact (and_iff_right (hiff.mp rfl)).symm

/-- Over a single constant the search goes on with the valuation of that constant. -/
theorem decides_of_single {fuel : ℕ} {t : Term String s} {k : SmtSort × String}
    {e : SortedTerm String} (hD : WellFounded (Definitions.Uses st.symbolicValuations.find?))
    (hconstants : (simplifier.simplify t).constants = [k])
    (he : st.symbolicValuations.find? k.2 = some e)
    (hliteral : e.2.occurrences = [] → e.2.isLiteral = true)
    (hnested : e ≠ ⟨e.1, .constant e.1 k.2⟩ → Decides simplifier st fuel e.2) :
    Decides simplifier st (fuel + 1) t := by
  have hsettled : Definitions.Settled simplifier st.symbolicValuations.find? t ↔
      Definitions.Settled simplifier st.symbolicValuations.find? e.2 := by
    have hmem : ∀ k', k' ∈ (simplifier.simplify t).occurrences ↔ k' = k := by
      intro k'
      rw [← Term.mem_constants, hconstants, List.mem_singleton]
    rw [Definitions.settled_iff]
    constructor
    · exact fun h => h k ((hmem k).mpr rfl) e he
    · intro h k' hk' e' he'
      rw [(hmem k').mp hk', he] at he'
      cases he'
      exact h
  have hmany : e.2.constants ≠ [(e.1, k.2)] → Decides simplifier st fuel e.2 := by
    intro hne
    refine hnested fun hself => hne ?_
    rw [hself]
    rfl
  obtain ⟨s', n⟩ := k
  unfold Decides containsUnconstrainedUninterpretedConstant
  rw [hconstants, hsettled]
  dsimp only
  rw [getSymbolicValuation_ok he]
  dsimp only [bind, Except.bind]
  split
  · rename_i hnone
    have hclosed := Term.occurrences_of_constants hnone
    rw [if_pos (hliteral hclosed)]
    exact ⟨false, rfl, iff_of_true rfl (Definitions.settled_of_closed hclosed)⟩
  · rename_i s₁ nested hone
    split_ifs with hname
    · subst hname
      have hself := Definitions.eq_constant_of_self hD he
        ((Term.mem_constants _ _).mp (hone ▸ List.mem_singleton.mpr rfl))
      refine ⟨true, rfl, iff_of_false (by decide) ?_⟩
      rw [hself] at he ⊢
      exact Definitions.not_settled_input he
    · apply hmany
      rw [hone]
      intro heq
      cases heq
      exact hname rfl
  · rename_i hother
    exact hmany fun heq => hother _ _ heq

theorem decides_of_none {fuel : ℕ} {t : Term String s} (hevaluates : simplifier.Evaluates)
    (hconstants : (simplifier.simplify t).constants = []) :
    Decides simplifier st (fuel + 1) t := by
  have hclosed := Term.occurrences_of_constants hconstants
  unfold Decides containsUnconstrainedUninterpretedConstant
  rw [hconstants]
  dsimp only
  rw [if_pos (hevaluates t hclosed)]
  refine ⟨false, rfl, iff_of_true rfl (.intro fun k hk => ?_)⟩
  rw [hclosed] at hk
  exact absurd hk List.not_mem_nil

/-- Where the valuations have no cycles and a term without constants is a value, the search comes to
its end within the fuel, which the names below those of the term bound. -/
theorem search_decides (hevaluates : simplifier.Evaluates)
    (hD : Definitions.Acyclic st.symbolicValuations.find?)
    (hliteral : ∀ n e, st.symbolicValuations.find? n = some e → e.2.occurrences = [] →
      e.2.isLiteral = true) {m fuel : ℕ} {t : Term String s}
    (ht : Definitions.Closed st.symbolicValuations.find? t)
    (hdepth : ∀ k ∈ t.occurrences,
      Definitions.depth st.symbolicValuations.find? st.symbolicValuations.keys k.2 < m)
    (hfuel : 2 * m + 1 ≤ fuel) : Decides simplifier st fuel t := by
  induction m generalizing fuel s with
  | zero =>
    obtain ⟨fuel, rfl⟩ := Nat.exists_eq_add_of_le' hfuel
    apply decides_of_none hevaluates
    rw [List.eq_nil_iff_forall_not_mem]
    intro k hk
    have hk := simplifier.occurrences_simplify t ((Term.mem_constants _ _).mp hk)
    exact Nat.not_lt_zero _ (hdepth k hk)
  | succ m ih =>
    -- every constant of the term is defined by a term whose constants lie deeper
    have hnested : ∀ k ∈ (simplifier.simplify t).occurrences, ∃ e,
        st.symbolicValuations.find? k.2 = some e ∧ ∀ fuel, 2 * m + 1 ≤ fuel →
          e ≠ ⟨e.1, .constant e.1 k.2⟩ → Decides simplifier st fuel e.2 := by
      intro k hk
      have hk := simplifier.occurrences_simplify t hk
      obtain ⟨t', ht'⟩ := ht k hk
      refine ⟨⟨k.1, t'⟩, ht', fun fuel hfuel hne => ih (hD.closed _ _ _ ht') (fun q hq => ?_) hfuel⟩
      obtain ⟨t₁, ht₁⟩ := hD.closed _ _ _ ht' q hq
      have huses : Definitions.Uses st.symbolicValuations.find? q.2 k.2 := by
        refine ⟨k.1, t', ht', fun heq => hne ?_, q.1, hq⟩
        rw [heq]
      have hdeeper := Definitions.depth_lt_of_uses hD.wellFounded
        (OrderedMap.mem_keys_iff.mpr ⟨_, ht₁⟩) huses
      have hbound := hdepth k hk
      omega
    obtain ⟨fuel, rfl⟩ : ∃ fuel', fuel = fuel' + 2 := Nat.exists_eq_add_of_le' (by omega)
    cases hconstants : (simplifier.simplify t).constants with
    | nil => exact decides_of_none hevaluates hconstants
    | cons k constants =>
      have hmem : ∀ q ∈ k :: constants, q ∈ (simplifier.simplify t).occurrences :=
        fun q hq => (Term.mem_constants _ _).mp (hconstants ▸ hq)
      cases constants with
      | nil =>
        obtain ⟨e, he, hdecides⟩ := hnested k (hmem k List.mem_cons_self)
        exact decides_of_single hD.wellFounded hconstants he (hliteral _ _ he)
          (hdecides (fuel + 1) (by omega))
      | cons k' constants =>
        have hsettled : Definitions.Settled simplifier st.symbolicValuations.find? t ↔
            ∀ q ∈ k :: k' :: constants, ∀ e, st.symbolicValuations.find? q.2 = some e →
              Definitions.Settled simplifier st.symbolicValuations.find? e.2 := by
          rw [Definitions.settled_iff, ← hconstants]
          simp only [Term.mem_constants]
        unfold Decides containsUnconstrainedUninterpretedConstant
        rw [hconstants, hsettled]
        dsimp only
        apply anyM_decides
        intro q hq
        obtain ⟨e, he, hdecides⟩ := hnested q (hmem q hq)
        obtain ⟨b, hb, hiff⟩ : Decides simplifier st (fuel + 1) (.constant q.1 q.2 : Term String q.1) :=
          decides_of_single hD.wellFounded (simplifier.constants_constant q) he (hliteral _ _ he)
            (hdecides fuel (by omega))
        have hnext : (∀ e', st.symbolicValuations.find? q.2 = some e' →
            Definitions.Settled simplifier st.symbolicValuations.find? e'.2) ↔
              Definitions.Settled simplifier st.symbolicValuations.find? e.2 := by
          rw [he]
          exact ⟨fun h => h e rfl, fun h e' he' => Option.some.inj he' ▸ h⟩
        rw [Definitions.settled_constant he] at hiff
        rw [hb, getSymbolicValuation_ok he, hnext]
        cases b with
        | true => exact ⟨true, rfl, hiff⟩
        | false =>
          -- what is settled is no input, so its valuation is searched once more
          have hinput : e ≠ ⟨e.1, .constant e.1 q.2⟩ := by
            intro hself
            have hsettled := hiff.mp rfl
            rw [hself] at he hsettled
            exact Definitions.not_settled_input he hsettled
          exact hdecides (fuel + 1) (by omega) hinput

theorem encode_literal {e : Expression} {u : SortedTerm String} {c : Etfa.Context}
    (hevaluates : ex.simplifier.Evaluates) (h : ex.symbolic.encode frame c e = .ok u)
    (hu : u.2.occurrences = []) : u.2.isLiteral = true := by
  cases e with
  | booleanConstant _ | integerConstant _ | timeConstant _ | enumeratedValue _ =>
    cases h
    rfl
  | nondeterministicConstant _ | booleanToInteger _ | integerToBoolean _ | change _ _ => cases h
  | reference r =>
    obtain ⟨v, s, -, -, rfl⟩ := Etfa.Executor.access_eq h
    cases hu
  | unary op e =>
    obtain ⟨⟨s, t⟩, -, h⟩ := bind_eq_ok h
    cases op <;> cases s <;> cases h <;> exact hevaluates _ hu
  | binary op l r =>
    obtain ⟨⟨s, l⟩, -, h⟩ := bind_eq_ok h
    obtain ⟨⟨s', r⟩, -, h⟩ := bind_eq_ok h
    cases op <;> cases s <;> cases s' <;> cases h <;> exact hevaluates _ hu

theorem isLiteral_rename {t : Term String s} {f : String → String}
    (ht : t.occurrences = [] → t.isLiteral = true) (h : (t.rename f).occurrences = []) :
    (t.rename f).isLiteral = true := by
  have hnone : t.occurrences = [] := by
    rw [List.eq_nil_iff_forall_not_mem]
    intro k hk
    have hk' := (Term.mem_occurrences_rename f t (k.1, f k.2)).mpr ⟨k.2, hk, rfl⟩
    rw [h] at hk'
    exact List.not_mem_nil hk'
  have hliteral := ht hnone
  cases t with
  | booleanValue _ | integerValue _ => rfl
  | _ => cases hliteral

theorem overwrite_find? {model : PartialModel String} {m m' : OrderedMap String Value}
    (h : overwrite model m = .ok m') {n : String} {v : Value} (hn : m.find? n = some v) :
    ∃ v, m'.find? n = some v := by
  induction model generalizing m v with
  | nil =>
    cases h
    exact ⟨v, hn⟩
  | cons i model ih =>
    unfold overwrite at h
    split at h
    · by_cases hname : n = i.name
      · exact ih h (by rw [OrderedMap.find?_assign, if_pos hname])
      · exact ih h (by rw [OrderedMap.find?_assign, if_neg hname]; exact hn)
    · cases h

end Executor

/-- A symbolic valuation without constants is a value, and every name has a concrete one as well. -/
structure Context.Recorded (c : Context) : Prop where
  literal : ∀ n e, c.definitions n = some e → e.2.occurrences = [] → e.2.isLiteral = true
  concrete : ∀ n e, c.definitions n = some e → ∃ v, c.concreteValuations.find? n = some v

namespace Context

theorem Recorded.of_kept (hc : c.Recorded)
    (hkeep : ∀ n v, c.concreteValuations.find? n = some v →
      ∃ v, c'.concreteValuations.find? n = some v)
    (hdefinitions : ∀ n e, c'.definitions n = some e → c.definitions n = some e ∨
      ((e.2.occurrences = [] → e.2.isLiteral = true) ∧
        ∃ v, c'.concreteValuations.find? n = some v)) : c'.Recorded where
  literal := fun n e hn => (hdefinitions n e hn).elim (hc.literal n e) And.left
  concrete := by
    intro n e hn
    rcases hdefinitions n e hn with hold | hnew
    · obtain ⟨v, hv⟩ := hc.concrete n e hold
      exact hkeep n v hv
    · exact hnew.2

theorem Recorded.apply {summary : Summary} {model : PartialModel String} (hc : c.Recorded)
    (hfits : p.Fits summary) (hsimplified : summary.Simplified)
    (h : ex.applySummaryConcretely summary model versions c = .ok (versions', c')) :
    c'.Recorded := by
  obtain ⟨hkeep, hwritten⟩ := Executor.applySummaryConcretely_values h
  obtain ⟨_, _, _, -, -, -, -, happly, -⟩ := Executor.applySummaryConcretely_cases h
  obtain ⟨r, hr⟩ := Etfa.Executor.applySummary_spec hfits happly
  refine hc.of_kept (fun n v hn => ⟨v, hkeep n v hn⟩) fun n e hn => ?_
  rcases hr.back n e hn with hold | ⟨n', s, t, hn', rfl, rfl⟩
  · exact Or.inl hold
  · exact Or.inr ⟨Executor.isLiteral_rename (hsimplified _ _ hn'), _, hwritten _ _ _ hn'⟩

theorem Recorded.nextCycle (hc : c.Recorded)
    (h : ex.handleProgramExitVertex random frame versions c = .ok (versions', c')) :
    c'.Recorded := by
  obtain ⟨hconcrete, hexit, -⟩ := Executor.handleProgramExitVertex_cases h
  obtain ⟨-, st₁, st₂, next, hcarry, hreset, -, hc'⟩ :=
    Etfa.Executor.handleProgramExitVertex_cases hexit
  obtain ⟨hval, -, -⟩ := Etfa.Executor.resetVersions_spec hreset
  obtain ⟨hkeep, hvalues⟩ := Executor.carryOver_spec hconcrete
  obtain ⟨-, -, hback, -⟩ := Etfa.Executor.carryOver_names hcarry
  have hdef : c'.definitions = st₁.symbolicValuations.find? := by
    rw [hc', ← hval]
    rfl
  refine hc.of_kept (fun n v hn => ⟨v, hkeep n v hn⟩) fun n e hn => ?_
  rw [hdef] at hn
  rcases hback n e hn with hold | ⟨x, v, hx, rfl⟩
  · exact Or.inl hold
  · obtain ⟨e', he', hnew⟩ := Etfa.Executor.carryOver_carried hcarry x v hx
    rw [hn] at hnew
    cases hnew
    obtain ⟨value, -, hset⟩ := hvalues x v hx
    refine Or.inr ⟨fun hclosed => ?_, value, hset⟩
    unfold Etfa.Executor.carriedValuation at he'
    split_ifs at he' with hinput
    · obtain ⟨s, -, rfl⟩ := makeConstant_eq he'
      cases hclosed
    · obtain ⟨w, -, he'⟩ := bind_eq_ok he'
      exact hc.literal _ _ (State.getSymbolicValuation_eq he') hclosed

end Context

namespace Executor

theorem visitAssignment_recorded {r : VariableReference} {e : Expression}
    (hevaluates : ex.simplifier.Evaluates) (hc : c.Recorded)
    (h : ex.visitAssignment frame r e versions c = .ok (versions', c')) : c'.Recorded := by
  obtain ⟨value, w, -, hassign, hversion, hset, -⟩ := visitAssignment_cases h
  obtain ⟨u, w', edge, next, hu, -, -, -, -, -, hc'⟩ := Etfa.Executor.visitAssignment_cases hassign
  obtain rfl : w = w' + 1 := by
    rw [hc', OrderedMap.find?_assign, if_pos rfl] at hversion
    exact (Option.some.inj hversion).symm
  obtain ⟨hfresh, hconcrete⟩ := setConcreteValuation_eq hset
  have hkeep : Extends c.concreteValuations c'.concreteValuations :=
    hconcrete ▸ extends_emplace value hfresh
  refine hc.of_kept (fun n v hn => ⟨v, hkeep n v hn⟩) fun n e' hn => ?_
  by_cases hname : n = contextualized (frame.scope ++ "." ++ r.getName) (w' + 1) c.cycle
  · subst hname
    cases hold : c.definitions (contextualized (frame.scope ++ "." ++ r.getName) (w' + 1) c.cycle) with
    | some e'' =>
      obtain ⟨v, hv⟩ := hc.concrete _ _ hold
      rw [hfresh] at hv
      cases hv
    | none =>
      have hdef : c'.definitions (contextualized (frame.scope ++ "." ++ r.getName) (w' + 1) c.cycle) =
          some u := by
        rw [hc']
        exact OrderedMap.find?_emplace_self u hold
      rw [hn] at hdef
      cases hdef
      refine Or.inr ⟨encode_literal hevaluates hu, value, ?_⟩
      rw [hconcrete]
      exact OrderedMap.find?_emplace_self value hfresh
  · refine Or.inl ?_
    rw [hc'] at hn
    exact (OrderedMap.find?_emplace_ne _ _ hname).symm.trans hn

theorem execute_recorded {successors : Successors} (hevaluates : ex.simplifier.Evaluates)
    (hfits : ∀ typeName, ∀ s ∈ ex.getSummaries typeName, p.Fits s)
    (hsimplified : ∀ typeName, ∀ s ∈ ex.getSummaries typeName, s.Simplified) (hc : c.Recorded)
    (h : ex.execute random versions c = .ok (versions', successors)) :
    ∀ c' ∈ successors.contexts ++ successors.forked.toList, c'.Recorded := by
  obtain ⟨frame, frames, hstack, hexecutes⟩ := execute_cases h
  have hsame : ∀ {c' : Context}, c'.state.symbolicValuations = c.state.symbolicValuations →
      c'.concreteValuations = c.concreteValuations → c'.Recorded := by
    intro c' hsymbolic hconcrete
    refine hc.of_kept (fun n v hn => ⟨v, hconcrete ▸ hn⟩) fun n e hn => Or.inl ?_
    rw [← hn]
    exact congrArg (fun m => m.find? n) hsymbolic.symm
  intro c' hc'
  cases hexecutes with
  | move _ _ =>
    rw [mem_single hc']
    exact hsame rfl rfl
  | assignment _ _ hstep =>
    rw [mem_single hc']
    exact visitAssignment_recorded hevaluates hc hstep
  | @call called _ _ _ _ _ _ hstep =>
    obtain ⟨typeName, callee, edge, _, applicable, -, -, -, -, happlicable, hor⟩ :=
      visitCall_cases hstep
    rcases hor with ⟨-, -, next, -, rfl⟩ | ⟨-, next, cs, -, happly, rfl⟩
    · rw [mem_single hc']
      exact hsame rfl rfl
    · have hfound := findApplicable_fits hfits happlicable
      obtain ⟨x, hx, _, _, c₁, -, h₁, rfl⟩ :=
        mem_applySummaries hfound happly (by simpa using hc')
      obtain ⟨typeName, hmem⟩ := Summarizer.mem_findConcretelyApplicableSummaries happlicable x hx
      have hinside : (inside frame called callee edge.targetLabel c).Recorded := hsame rfl rfl
      have hc₁ := hinside.apply (hfound x hx) (hsimplified typeName x.1 hmem) h₁
      exact ⟨hc₁.literal, hc₁.concrete⟩
  | branch _ _ hstep =>
    obtain ⟨_, t, -, -, hsides⟩ := visitIf_cases hstep
    obtain ⟨taken, edge, next, -, -, hor⟩ := hsides c' hc'
    rcases hor with ⟨-, rfl⟩ | ⟨model, m, -, hover, rfl⟩
    · exact hsame rfl rfl
    · exact hc.of_kept (fun n v hn => overwrite_find? hover hn) fun n e hn => Or.inl hn
  | programExit _ _ hstep =>
    rw [mem_single hc']
    exact hc.nextCycle hstep
  | functionBlockExit _ _ hstep =>
    rw [mem_single hc']
    obtain ⟨_, _, _, next, -, -, rfl⟩ := Etfa.Executor.handleFunctionBlockExitVertex_returns hstep
    exact hsame rfl rfl

end Executor

namespace Engine

theorem initial_recorded {g : Engine} (h : initial p = .ok g) : ∀ c ∈ g.live, c.Recorded := by
  obtain ⟨m, hm, h⟩ := bind_eq_ok h
  obtain ⟨vertex, -, h⟩ := bind_eq_ok h
  obtain ⟨⟨versions, st⟩, hst, h⟩ := bind_eq_ok h
  cases h
  obtain ⟨-, hvalues⟩ :=
    initialConcreteValuations_spec p.main.flattenedInterface.sorted (fun _ _ => rfl) hm
  intro c hc
  obtain rfl := List.mem_singleton.mp hc
  have hnames : ∀ n e, st.symbolicValuations.find? n = some e →
      (e.2.occurrences = [] → e.2.isLiteral = true) ∧ ∃ v, m.find? n = some v := by
    intro n e hn
    rcases Etfa.Engine.initialState_values hst hn with hn | ⟨x, v, hx, rfl, he⟩
    · cases hn
    · obtain ⟨value, -, hset⟩ := hvalues x v hx
      refine ⟨fun hclosed => ?_, value, hset⟩
      unfold Etfa.Engine.initialValuation at he
      split_ifs at he with hinput
      · obtain ⟨s, -, rfl⟩ := makeConstant_eq he
        cases hclosed
      · split at he
        · rename_i value' _
          cases he
          cases value' <;> rfl
        · obtain ⟨s, -, he⟩ := bind_eq_ok he
          cases s <;> cases he <;> rfl
  exact ⟨fun n e hn => (hnames n e hn).1, fun n e hn => (hnames n e hn).2⟩

end Engine

namespace Executor

/-- The search for a constant that stands for itself comes to its end without a failure, and a
condition in which it finds none has one truth value under all models of the valuations. -/
def SearchSound (ex : Executor) (c : Context) : Prop :=
  ∀ u : Term String .bool, c.definitions.Closed u →
    ∃ b, containsUnconstrainedUninterpretedConstant ex.simplifier c.state
        (2 * c.state.symbolicValuations.entries.length + 2) u = .ok b ∧
      (b = false → ∀ M M' : Model String, c.definitions.Respects M → c.definitions.Respects M' →
        u.eval M = u.eval M')

/-- At a branch over the expression, the side that is not taken is forked off exactly if it is
satisfiable together with the path constraint and the valuations. -/
def ForksExactly (ex : Executor) (frame : Frame) (c : Context) (e : Expression) : Prop :=
  ∀ evaluated t, evaluate frame c e = .ok (.bool evaluated) →
    ex.symbolic.encode frame c.toContext e = .ok ⟨.bool, t⟩ → ∀ vertex,
      ∃ forked, ex.tryFork frame (!evaluated) vertex (ex.side (!evaluated) t) c = .ok forked ∧
        (forked.isSome ↔ ∃ M : Model String, ∀ q ∈ query c (ex.side (!evaluated) t), q.Holds M)

/-- Where the valuations settle the side of a branch that is not taken, and the path constraint can
be satisfied with them, the encoded condition has the value it was evaluated to. -/
def KeepsValue (ex : Executor) (frame : Frame) (c : Context) (e : Expression) : Prop :=
  ∀ evaluated t, evaluate frame c e = .ok (.bool evaluated) →
    ex.symbolic.encode frame c.toContext e = .ok ⟨.bool, t⟩ →
    c.definitions.Settled ex.simplifier (ex.side (!evaluated) t) →
    ∀ M : Model String, c.definitions.Respects M → (∀ q ∈ c.state.pathConstraint, q.Holds M) →
      t.eval M = evaluated

theorem search_context (hevaluates : ex.simplifier.Evaluates) (hw : c.WellDefined p)
    (hc : c.Recorded) {u : Term String .bool} (hu : c.definitions.Closed u) :
    Decides ex.simplifier c.state (2 * c.state.symbolicValuations.entries.length + 2) u := by
  have hlength : c.state.symbolicValuations.keys.length =
      c.state.symbolicValuations.entries.length := List.length_map _
  refine search_decides hevaluates hw.acyclic hc.literal hu (m := c.state.symbolicValuations.keys.length)
    (fun k hk => ?_) (by omega)
  obtain ⟨t, ht⟩ := hu k hk
  exact Definitions.depth_lt_length hw.acyclic.wellFounded (OrderedMap.mem_keys_iff.mpr ⟨_, ht⟩)

theorem searchSound (hevaluates : ex.simplifier.Evaluates) (hw : c.WellDefined p)
    (hc : c.Recorded) : SearchSound ex c := by
  intro u hu
  obtain ⟨b, hb, hsettled⟩ := search_context hevaluates hw hc hu
  refine ⟨b, hb, fun hfalse M M' hM hM' => ?_⟩
  exact Definitions.Settled.eval_eq hw.acyclic.closed hM hM' (hsettled.mp hfalse) hu

theorem query_holds_iff {M : Model String} {taken : Bool} {t : Term String .bool} :
    (∀ q ∈ query c (ex.side taken t), q.Holds M) ↔
      (∀ q ∈ c.state.pathConstraint, q.Holds M) ∧ c.definitions.Respects M ∧ t.eval M = taken := by
  rw [← holds_side ex M taken t]
  unfold query
  constructor
  · intro h
    refine ⟨fun q hq => h q (List.mem_append_left _ (List.mem_append_left _ hq)), ?_,
      h _ (List.mem_append_right _ (List.mem_singleton.mpr rfl))⟩
    intro n s u hn
    have hmem := List.mem_map_of_mem (f := Etfa.Executor.equation)
      ((OrderedMap.find?_eq_some_iff _ _ _).mp hn)
    exact of_decide_eq_true (h _ (List.mem_append_left _ (List.mem_append_right _ hmem)))
  · rintro ⟨hpath, hrespects, hside⟩ q hq
    rcases List.mem_append.mp hq with hq | hq
    · rcases List.mem_append.mp hq with hq | hq
      · exact hpath q hq
      · obtain ⟨⟨n, s, u⟩, hn, rfl⟩ := List.mem_map.mp hq
        exact decide_eq_true (hrespects n s u ((OrderedMap.find?_eq_some_iff _ _ _).mpr hn))
    · rw [List.mem_singleton.mp hq]
      exact hside

theorem tryFork_total {taken : Bool} {vertex : Vertex} {u : Term String .bool}
    (hevaluates : ex.simplifier.Evaluates) (hw : c.WellDefined p) (hc : c.Recorded)
    (hu : c.definitions.Closed u) : ∃ forked, ex.tryFork frame taken vertex u c = .ok forked := by
  obtain ⟨b, hb, -⟩ := search_context hevaluates hw hc hu
  refine tryFork_ok hb fun t ht k hk => ?_
  obtain ⟨t', ht'⟩ := query_closed hw hu t ht k hk
  exact hc.concrete _ _ ht'

theorem isSome_of_tryFork {taken : Bool} {vertex : Vertex} {u : Term String .bool}
    {forked : Option Context} (hevaluates : ex.simplifier.Evaluates) (hw : c.WellDefined p)
    (hc : c.Recorded) (hu : c.definitions.Closed u)
    (hforked : ex.tryFork frame taken vertex u c = .ok forked) :
    forked.isSome ↔ ¬ c.definitions.Settled ex.simplifier u ∧
      ∃ M : Model String, ∀ q ∈ query c u, q.Holds M := by
  obtain ⟨b, hb, hsettled⟩ := search_context hevaluates hw hc hu
  unfold tryFork at hforked
  dsimp only at hforked
  rw [hb] at hforked
  dsimp only [bind, Except.bind] at hforked
  cases b with
  | false =>
    rw [if_neg Bool.false_ne_true] at hforked
    cases hforked
    exact iff_of_false Bool.false_ne_true fun h => h.1 (hsettled.mp rfl)
  | true =>
    rw [if_pos rfl] at hforked
    have hopen : ¬ c.definitions.Settled ex.simplifier u :=
      fun h => Bool.noConfusion (hsettled.mpr h)
    rw [and_iff_right hopen]
    cases hfind : ex.finder.find (query c u) with
    | none =>
      unfold query at hfind
      rw [hfind] at hforked
      cases hforked
      refine iff_of_false Bool.false_ne_true ?_
      rintro ⟨M, hM⟩
      obtain ⟨t, ht, hnot⟩ := ex.finder.complete hfind M
      exact hnot (hM t ht)
    | some model =>
      have hmodel := (ex.finder.solver.check_iff (query c u)).mp
        (show (ex.finder.find (query c u)).isSome = true by rw [hfind]; rfl)
      unfold query at hfind
      rw [hfind] at hforked
      obtain ⟨m, -, hforked⟩ := bind_eq_ok hforked
      cases hforked
      exact iff_of_true rfl hmodel

theorem forksExactly_iff {e : Expression} (hevaluates : ex.simplifier.Evaluates)
    (hw : c.WellDefined p) (hc : c.Recorded)
    (hrefs : ∀ q ∈ e.references, p.Resolves frame.scope q) :
    ForksExactly ex frame c e ↔ KeepsValue ex frame c e := by
  have hclosed : ∀ {taken t}, ex.symbolic.encode frame c.toContext e = .ok ⟨.bool, t⟩ →
      c.definitions.Closed (ex.side taken t) := fun ht k hk =>
    Etfa.Executor.encode_closed hw hrefs ht k (ex.side_occurrences _ _ hk)
  constructor
  · intro h evaluated t hvalue ht hsettled M hM hpath
    obtain ⟨forked, hforked, hiff⟩ := h evaluated t hvalue ht c.state.vertex
    have hiff' := isSome_of_tryFork hevaluates hw hc (hclosed ht) hforked
    by_contra hne
    have hother : t.eval M = !evaluated := Bool.eq_not_of_ne hne
    have hsome := hiff.mpr ⟨M, query_holds_iff.mpr ⟨hpath, hM, hother⟩⟩
    exact (hiff'.mp hsome).1 hsettled
  · intro h evaluated t hvalue ht vertex
    obtain ⟨forked, hforked⟩ : ∃ forked,
        ex.tryFork frame (!evaluated) vertex (ex.side (!evaluated) t) c = .ok forked :=
      tryFork_total hevaluates hw hc (hclosed ht)
    have hiff := isSome_of_tryFork hevaluates hw hc (hclosed ht) hforked
    refine ⟨forked, hforked, hiff.trans ⟨And.right, fun hsat => ⟨fun hsettled => ?_, hsat⟩⟩⟩
    obtain ⟨M, hM⟩ := hsat
    obtain ⟨hpath, hrespects, hother⟩ := query_holds_iff.mp hM
    rw [h evaluated t hvalue ht hsettled M hrespects hpath] at hother
    exact (Bool.eq_not_self evaluated).mp hother

theorem keepsValue_of_agrees {e : Expression} (hw : c.WellDefined p) (hc : c.Agrees)
    (hrefs : ∀ q ∈ e.references, p.Resolves frame.scope q)
    (hadd : e.addsAlike .rejected (fun n => c.values (frame.scope ++ "." ++ n)) = true) :
    KeepsValue ex frame c e := by
  intro evaluated t hvalue ht hsettled M hM _
  have hclosed : c.definitions.Closed (ex.side (!evaluated) t) := fun k hk =>
    Etfa.Executor.encode_closed hw hrefs ht k (ex.side_occurrences _ _ hk)
  have hside := hsettled.eval_eq hw.acyclic.closed hM hc.respects hclosed
  have hconcrete : t.eval c.concreteModel = evaluated :=
    Value.bool.inj (hc.evaluate hw hrefs hadd ht hvalue)
  by_contra hne
  have hother := (holds_side ex M (!evaluated) t).mpr (Bool.eq_not_of_ne hne)
  have hother := (holds_side ex c.concreteModel (!evaluated) t).mp (hside.symm.trans hother)
  rw [hconcrete] at hother
  exact (Bool.eq_not_self evaluated).mp hother

end Executor

namespace Engine

theorem Reachable.recorded {P : Versions → Context → Prop} {g : Engine} (hp : p.WellSorted)
    (hcfg : ex.getCfg = p.getCfg)
    (hfits : ∀ typeName, ∀ s ∈ ex.getSummaries typeName, p.Fits s)
    (hsimplified : ∀ typeName, ∀ s ∈ ex.getSummaries typeName, s.Simplified)
    (hevaluates : ex.simplifier.Evaluates) (hg : Reachable p ex P g) :
    ∀ c ∈ g.live, c.toContext.Placed p ∧ c.WellDefined p ∧ c.Recorded := by
  refine hg.induction (fun c => c.toContext.Placed p ∧ c.WellDefined p ∧ c.Recorded) ?_ ?_
  · intro g hg c hc
    obtain ⟨hplaced, hw⟩ := initial_wellDefined hp hg c hc
    exact ⟨hplaced, hw, initial_recorded hg c hc⟩
  · rintro random versions c versions' successors ⟨hplaced, hw, hc⟩ - hexecute c' hc'
    exact ⟨Executor.execute_placed hcfg hfits hplaced hexecute c' hc',
      Executor.execute_wellDefined hp hfits hplaced hw hexecute c' hc',
      Executor.execute_recorded hevaluates hfits hsimplified hc hexecute c' hc'⟩

/-- In every reachable context in front of a branch the search is sound, and the other side is forked
off exactly if it is satisfiable, if and only if the value of a settled condition is kept. -/
theorem Reachable.forks_iff_keepsValue {P : Versions → Context → Prop} {g : Engine}
    (hp : p.WellSorted) (hcfg : ex.getCfg = p.getCfg)
    (hfits : ∀ typeName, ∀ s ∈ ex.getSummaries typeName, p.Fits s)
    (hsimplified : ∀ typeName, ∀ s ∈ ex.getSummaries typeName, s.Simplified)
    (hevaluates : ex.simplifier.Evaluates) (hg : Reachable p ex P g) {c : Context}
    (hc : c ∈ g.live) {frame : Frame} {frames : List Frame} (hstack : c.callStack = frame :: frames)
    {e : Expression} {t₁ t₂ : ℤ}
    (hinstruction : c.state.vertex.instruction = some (.ifInstruction e t₁ t₂)) :
    (Executor.SearchSound ex c ∧ Executor.ForksExactly ex frame c e) ↔
      Executor.KeepsValue ex frame c e := by
  obtain ⟨hplaced, hw, hrecorded⟩ := hg.recorded hp hcfg hfits hsimplified hevaluates c hc
  have hframes := hstack ▸ hplaced.stack
  obtain ⟨l, hl⟩ := hplaced.atVertex frame frames hstack
  have hrefs := hp.sorted hframes.instance_of_head hl hinstruction
  rw [← Executor.forksExactly_iff hevaluates hw hrecorded hrefs]
  exact and_iff_right (Executor.searchSound hevaluates hw hrecorded)

/-- In a run that keeps the stores in agreement no feasible side of a branch is missed. -/
theorem Reachable.forks_exactly {g : Engine} (hp : p.WellSorted) (hcfg : ex.getCfg = p.getCfg)
    (hfits : ∀ typeName, ∀ s ∈ ex.getSummaries typeName, p.Fits s)
    (hsimplified : ∀ typeName, ∀ s ∈ ex.getSummaries typeName, s.Simplified)
    (hevaluates : ex.simplifier.Evaluates) (hg : Reachable p ex (fun _ c => KeepsStores ex c) g)
    {c : Context} (hc : c ∈ g.live) (hkeeps : KeepsStores ex c) {frame : Frame} {frames : List Frame}
    (hstack : c.callStack = frame :: frames) {e : Expression} {t₁ t₂ : ℤ}
    (hinstruction : c.state.vertex.instruction = some (.ifInstruction e t₁ t₂)) :
    Executor.ForksExactly ex frame c e := by
  obtain ⟨hplaced, hw, hrecorded⟩ := hg.recorded hp hcfg hfits hsimplified hevaluates c hc
  obtain ⟨-, -, hagrees⟩ := hg.agreeing hp hcfg hfits c hc
  have hframes := hstack ▸ hplaced.stack
  obtain ⟨l, hl⟩ := hplaced.atVertex frame frames hstack
  have hrefs := hp.sorted hframes.instance_of_head hl hinstruction
  refine (Executor.forksExactly_iff hevaluates hw hrecorded hrefs).mpr ?_
  exact Executor.keepsValue_of_agrees hw hagrees hrefs
    (hkeeps.additions hstack (by rw [Context.expression?, hinstruction]))

end Engine

namespace SummedBooleans

def l : Variable :=
  { name := "l", dataType := .bool, storageType := .local, initialization := some (.bool true) }

def r : Variable :=
  { name := "r", dataType := .bool, storageType := .local, initialization := some (.bool false) }

def x : Variable := { name := "x", dataType := .bool, storageType := .local }

/-- IF e THEN x := TRUE; END_IF; -/
def main (e : Expression) : UnitCfg where
  labelToVertex := ⟨[(0, ⟨0, .entry, none⟩), (1, ⟨1, .regular, some (.ifInstruction e 2 3)⟩),
    (2, ⟨2, .regular, some (.assignmentInstruction .regular (.variableAccess x)
      (.booleanConstant true))⟩),
    (3, ⟨3, .exit, none⟩)], by simp⟩
  edges := [{ sourceLabel := 0, targetLabel := 1 },
    { sourceLabel := 1, targetLabel := 2, type := .trueBranch },
    { sourceLabel := 1, targetLabel := 3, type := .falseBranch },
    { sourceLabel := 2, targetLabel := 3 }]
  entryLabel := 0
  exitLabel := 3
  type := .program
  name := "P"
  interface := [l, r, x]
  flattenedInterface := ⟨[("P.l", l), ("P.r", r), ("P.x", x)], by decide⟩

def program (e : Expression) : Program where
  main := main e
  getCfg := fun _ => none
  nesting := 0

noncomputable def executor (e : Expression) : Executor :=
  Engine.executor (program e) (PartialModel.folding _) (.classical _) (fun _ => []) fun _ _ => []

def firstVersions : Versions where
  entries := [("P.l", 0), ("P.r", 0), ("P.x", 0)]
  sorted := by
    refine List.pairwise_map.mp (?_ : (List.map Prod.fst _).Pairwise (· < ·))
    change ["P.l", "P.r", "P.x"].Pairwise (· < ·)
    decide

/-- The context at a vertex in front of the first assignment. -/
def entered (e : Expression) (v : Vertex) : Context where
  cycle := 0
  state := ⟨v, ⟨[("P.l_0__0", ⟨.bool, .booleanValue true⟩),
    ("P.r_0__0", ⟨.bool, .booleanValue false⟩), ("P.x_0__0", ⟨.bool, .booleanValue false⟩)],
      by decide⟩, [.booleanValue true], firstVersions⟩
  callStack := [⟨main e, "P", 0⟩]
  concreteValuations := ⟨[("P.l_0__0", .bool true), ("P.r_0__0", .bool false),
    ("P.x_0__0", .bool false)], by decide⟩

theorem reachable (e : Expression) :
    ∃ g, Engine.Reachable (program e) (executor e) (fun _ _ => True) g ∧
      entered e ⟨1, .regular, some (.ifInstruction e 2 3)⟩ ∈ g.live := by
  have hinitial : Engine.initial (program e) = .ok
    { versions := firstVersions, explorer := [entered e ⟨0, .entry, none⟩] } := rfl
  have hentry : (executor e).execute (fun _ => 0) firstVersions (entered e ⟨0, .entry, none⟩) = .ok
    (firstVersions, ⟨[entered e ⟨1, .regular, some (.ifInstruction e 2 3)⟩], none⟩) := rfl
  have h₀ : Engine.Reachable (program e) (executor e) (fun _ _ => True) _ := .initial hinitial
  exact ⟨_, h₀.explore_first rfl trivial hentry, List.mem_cons_self⟩

theorem wellSorted {e : Expression} (he : ∀ q ∈ e.references, (program e).Resolves "P" q) :
    (program e).WellSorted where
  sorted := by
    intro scope cfg h v vertex instruction hl hi
    have hl := (OrderedMap.find?_eq_some_iff _ _ _).mp hl
    cases h with
    | main =>
      simp only [program, main, List.mem_cons, Prod.mk.injEq, List.not_mem_nil, or_false] at hl
      rcases hl with ⟨-, rfl⟩ | ⟨-, rfl⟩ | ⟨-, rfl⟩ | ⟨-, rfl⟩ <;> cases hi
      · exact he
      · exact ⟨fun q hq => absurd hq List.not_mem_nil, rfl⟩
    | called _ _ _ _ hcallee => cases hcallee
  encodable := by
    intro n v hn
    have hn := (OrderedMap.find?_eq_some_iff _ _ _).mp hn
    simp only [program, main, List.mem_cons, Prod.mk.injEq, List.not_mem_nil, or_false] at hn
    rcases hn with ⟨-, rfl⟩ | ⟨-, rfl⟩ | ⟨-, rfl⟩ <;>
      exact ⟨.bool, rfl, fun _ h => by cases h <;> rfl⟩

/-- l + r = 1 -/
def sumIsOne : Expression :=
  .binary .equality (.binary .add (.reference (.variableAccess l)) (.reference (.variableAccess r)))
    (.integerConstant 1)

/-- The encoding of the sum: the right operand twice. -/
def encodedSum : Term String .bool :=
  .eq (.arithmetic .add (Encoder.makeInteger (.constant .bool "P.r_0__0"))
    (Encoder.makeInteger (.constant .bool "P.r_0__0"))) (.integerValue 1)

/-- The valuations of the first cycle have these values. -/
def initialValues : Model String
  | .bool, n => decide (n = "P.l_0__0")
  | .int, _ => (0 : ℤ)

end SummedBooleans

open SummedBooleans in
/-- The sum is evaluated to one, and encoded as twice the second operand. The other side of the branch
is satisfiable, but no context is forked off. -/
theorem sum_not_forked : (program sumIsOne).WellSorted ∧
    ∃ g, Engine.Reachable (program sumIsOne) (executor sumIsOne) (fun _ _ => True) g ∧
      ∃ c ∈ g.live, c.callStack = [⟨main sumIsOne, "P", 0⟩] ∧
        c.state.vertex.instruction = some (.ifInstruction sumIsOne 2 3) ∧
        ¬ Executor.ForksExactly (executor sumIsOne) ⟨main sumIsOne, "P", 0⟩ c sumIsOne := by
  obtain ⟨g, hg, hc⟩ := reachable sumIsOne
  refine ⟨wellSorted ?_, g, hg, _, hc, rfl, rfl, fun h => ?_⟩
  · intro q hq
    change q ∈ [VariableReference.variableAccess l, .variableAccess r] at hq
    rcases List.mem_cons.mp hq with rfl | hq
    · exact ⟨.bool, rfl, rfl⟩
    · rw [List.mem_singleton.mp hq]
      exact ⟨.bool, rfl, rfl⟩
  · obtain ⟨forked, hforked, hiff⟩ := h true encodedSum rfl rfl ⟨3, .exit, none⟩
    have hnone : (executor sumIsOne).tryFork ⟨main sumIsOne, "P", 0⟩ false ⟨3, .exit, none⟩
        ((executor sumIsOne).side false encodedSum)
        (entered sumIsOne ⟨1, .regular, some (.ifInstruction sumIsOne 2 3)⟩) = .ok none := rfl
    have hforked := hnone.symm.trans hforked
    cases hforked
    have hsatisfiable : ∀ q ∈ Executor.query
        (entered sumIsOne ⟨1, .regular, some (.ifInstruction sumIsOne 2 3)⟩)
        ((executor sumIsOne).side false encodedSum), q.Holds initialValues := by decide
    exact Bool.false_ne_true (hiff.mpr ⟨_, hsatisfiable⟩)

namespace SummedBooleans

def variableAlone : Expression := .reference (.variableAccess l)

end SummedBooleans

open SummedBooleans in
/-- Where the condition is the variable, the other side is not satisfiable and not forked off. -/
theorem variable_forks_exactly :
    Executor.SearchSound (executor variableAlone)
        (entered variableAlone ⟨1, .regular, some (.ifInstruction variableAlone 2 3)⟩) ∧
      Executor.ForksExactly (executor variableAlone) ⟨main variableAlone, "P", 0⟩
        (entered variableAlone ⟨1, .regular, some (.ifInstruction variableAlone 2 3)⟩)
        variableAlone := by
  obtain ⟨g, hg, hc⟩ := reachable variableAlone
  have hsorted : (program variableAlone).WellSorted :=
    wellSorted fun q hq => List.mem_singleton.mp hq ▸ ⟨.bool, rfl, rfl⟩
  refine (Engine.Reachable.forks_iff_keepsValue hsorted rfl
    (fun _ _ h => absurd h List.not_mem_nil) (fun _ _ h => absurd h List.not_mem_nil)
    (Simplifier.evaluates_folding _) hg hc rfl rfl).mpr ?_
  intro evaluated t hvalue ht _ M hM _
  cases ht
  cases hvalue
  exact hM "P.l_0__0" .bool (.booleanValue true) rfl

end Ahorn.EtfaNoMerge
