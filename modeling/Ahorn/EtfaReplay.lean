import Ahorn.EtfaFollows
import Ahorn.EtfaMergeCorrect
import Ahorn.EtfaTestSuite

set_option autoImplicit false

/-!
# Contexts stand for executions

As long as no merge renames a constraint and the summaries found at a call describe it and leave no
inputs out, every context of the engine is feasible, and the inputs it admits drive the program to
where the context stands.
-/
namespace Ahorn

def Vertex.expression? (v : Vertex) : Option Expression :=
  match v.instruction with
  | some (.assignmentInstruction _ _ e) | some (.ifInstruction e _ _) => some e
  | _ => none

/-- The edge leads to a side of a branch. -/
def Edge.IsSide (edge : Edge) (taken : Bool) : Prop :=
  edge.type = if taken then .trueBranch else .falseBranch

end Ahorn

namespace Ahorn.Etfa

open Encoder (valueOf)

variable {p : Program} {simplifier : Simplifier String} {solver : Solver String}
  {findApplicableSummaries : Context → Except String (List Summary)} {versions versions' : Versions}
  {c c' m : Context} {frame : Frame} {frames : List Frame} {inputs : Inputs} {M : Model String}
  {k : ℕ}

namespace Context

/-- The values of the inputs of all cycles so far satisfy the valuations and the path constraint. -/
structure Admits (p : Program) (inputs : Inputs) (M : Model String) (c : Context) : Prop where
  respects : c.definitions.Respects M
  pathConstraint : ∀ t ∈ c.state.pathConstraint, t.Holds M
  inputs : ∀ k ≤ c.cycle, ∀ x ∈ p.wholeProgramInputs, ∀ s, p.sortOf x = some s →
    s.value (M s (contextualized x 0 k)) = inputs k x

/-- Whatever inputs the context admits drive the program from its initial state to the place of the
context, with the store its valuations describe. -/
def Replays (p : Program) (c : Context) : Prop :=
  ∀ inputs M, c.Admits p inputs M → ∃ conf₀ conf, p.start inputs = .ok conf₀ ∧
    p.Runs inputs conf₀ conf ∧ Follows p M c conf

/-- The path constraint and the symbolic valuations are satisfiable together. -/
def Feasible (c : Context) : Prop := ∃ M : Model String, ∀ t ∈ c.expressions, t.Holds M

/-- The valuations every context has from its beginning: the initial ones, and the inputs of every
cycle so far. -/
structure Opens (p : Program) (c : Context) : Prop where
  initial : ∀ {x v e}, (x, v) ∈ p.main.flattenedInterface.entries →
    Engine.initialValuation p.wholeProgramInputs x v = .ok e →
    c.definitions (contextualized x 0 0) = some e
  inputs : ∀ k ≤ c.cycle, ∀ x ∈ p.wholeProgramInputs, ∀ s, p.sortOf x = some s →
    c.definitions (contextualized x 0 k) = some ⟨s, .constant s (contextualized x 0 k)⟩

theorem expressions_hold : (∀ t ∈ c.expressions, t.Holds M) ↔
    c.definitions.Respects M ∧ ∀ t ∈ c.state.pathConstraint, t.Holds M := by
  unfold expressions
  rw [List.forall_mem_append, and_comm]
  apply and_congr_left'
  constructor
  · intro h n s t hn
    have hmem := (OrderedMap.find?_eq_some_iff _ _ _).mp hn
    exact of_decide_eq_true (h _ (List.mem_map_of_mem hmem))
  · intro h t ht
    obtain ⟨⟨n, s, u⟩, hn, rfl⟩ := List.mem_map.mp ht
    exact decide_eq_true (h n s u ((OrderedMap.find?_eq_some_iff _ _ _).mpr hn))

theorem feasible_iff : c.Feasible ↔ ∃ inputs M, c.Holds inputs M := by
  constructor
  · rintro ⟨M, hM⟩
    obtain ⟨hrespects, hconstraint⟩ := expressions_hold.mp hM
    exact ⟨M, M, ⟨hrespects, fun _ _ _ => rfl⟩, hconstraint⟩
  · rintro ⟨inputs, M, hM⟩
    exact ⟨M, expressions_hold.mpr ⟨hM.reads.respects, hM.pathConstraint⟩⟩

theorem Admits.of_extends (hM : c'.Admits p inputs M) (hcycle : c.cycle ≤ c'.cycle)
    (hkeep : ∀ n e, c.definitions n = some e → c'.definitions n = some e)
    (hconstraint : ∀ t ∈ c.state.pathConstraint, t.Holds M) : c.Admits p inputs M where
  respects := fun n s t hn => hM.respects n s t (hkeep n _ hn)
  pathConstraint := hconstraint
  inputs := fun k hk => hM.inputs k (hk.trans hcycle)

theorem Opens.of_extends (hc : c.Opens p) (hcycle : c'.cycle = c.cycle)
    (hkeep : ∀ n e, c.definitions n = some e → c'.definitions n = some e) : c'.Opens p where
  initial := fun hx he => hkeep _ _ (hc.initial hx he)
  inputs := fun k hk x hx s hs => hkeep _ _ (hc.inputs k (hcycle ▸ hk) x hx s hs)

theorem Replays.step (hc : c.Replays p)
    (hadmits : ∀ inputs M, c'.Admits p inputs M → c.Admits p inputs M)
    (hstep : ∀ inputs M conf, c'.Admits p inputs M → Follows p M c conf →
      ∃ conf', p.Runs inputs conf conf' ∧ Follows p M c' conf') : c'.Replays p := by
  intro inputs M hM
  obtain ⟨conf₀, conf, hstart, hruns, hfollows⟩ := hc inputs M (hadmits inputs M hM)
  obtain ⟨conf', hruns', hfollows'⟩ := hstep inputs M conf hM hfollows
  exact ⟨conf₀, conf', hstart, hruns.trans hruns', hfollows'⟩

theorem Holds.extend {I : Model String} (hacyclic : c'.definitions.Acyclic)
    (hc : c.Invariant p versions k) (hM : c.Holds I M)
    (hkeep : ∀ n e, c.definitions n = some e → c'.definitions n = some e)
    (hconstraint : ∀ M', c'.definitions.Reads I M' → (∀ t ∈ c.state.pathConstraint, t.Holds M') →
      ∀ t ∈ c'.state.pathConstraint, t.Holds M') : ∃ M', c'.Holds I M' := by
  obtain ⟨M', hM'⟩ := hacyclic.exists_reads I
  exact ⟨M', hM', hconstraint M' hM' ((hc.constraint_iff hM.reads (hM'.mono hkeep)).mp
    hM.pathConstraint)⟩

end Context

/-- Whatever model reads the store and satisfies the hard constraints of the summary satisfies its
assumptions. -/
def Suits (store : Valuation) (summary : Summary) : Prop :=
  ∀ N : Model String, (∀ q ∈ summary.occurrences, summary.hardConstraints.find? q.2 = none →
    q.1.value (N q.1 q.2) = store (decontextualize q.2)) →
    Definitions.Respects summary.hardConstraints.find? N → ∀ t ∈ summary.assumptions, t.Holds N

namespace Testing

def steps (label : ℤ) : List String → List (ℤ × ℤ)
  | [] => []
  | assumptionLiteral :: assumptionLiterals =>
    match summarizedLabel assumptionLiteral with
    | .ok next => (label, (next : ℤ)) :: steps next assumptionLiterals
    | .error _ => []

def lastLabel (label : ℤ) : List String → ℤ
  | [] => label
  | assumptionLiteral :: assumptionLiterals =>
    match summarizedLabel assumptionLiteral with
    | .ok next => lastLabel next assumptionLiterals
    | .error _ => label

end Testing

/-- What a summary does at a call: it describes the call, along branches that contain those its
assumption literals stand for, and it suits some inputs the context admits. -/
structure Summarizes (p : Program) (c : Context) (frame : Frame) (callee : UnitCfg) (scope : String)
    (steps : List (ℤ × ℤ)) (summary : Summary) : Prop where
  describes : ∃ branches, p.Describes frame c.state.vertex summary branches ∧
    ∀ step ∈ steps, ∀ edge ∈ callee.getOutgoingEdges step.1, edge.targetLabel = step.2 →
      ∀ taken, edge.IsSide taken → ⟨scope, step.1, taken⟩ ∈ branches
  suits : ∃ I M, c.Holds I M ∧ Suits (c.store p M) summary

/-- The condition on a context that is executed: under the inputs it admits, a Boolean is added to a
Boolean of the same value only; branches are the only vertices with sides, and their sides lead to
different labels; the summaries found at a call summarize it, and leave out no inputs. -/
structure KeepsReplays (p : Program)
    (findApplicableSummaries : Context → Except String (List Summary)) (c : Context) : Prop where
  additions : ∀ {inputs M frame frames e}, c.Admits p inputs M → c.callStack = frame :: frames →
    c.state.vertex.expression? = some e →
    e.addsAlike .rejected (fun n => c.store p M (frame.scope ++ "." ++ n)) = true
  sides : ∀ {scope cfg}, p.Instance scope cfg →
    ∀ edge ∈ cfg.getOutgoingEdges c.state.vertex.label, ∀ taken, edge.IsSide taken →
      c.state.vertex.type = .regular ∧
      (∃ e t₁ t₂, c.state.vertex.instruction = some (.ifInstruction e t₁ t₂)) ∧
      (∀ v, cfg.labelToVertex.find? edge.targetLabel = some v → v.label = edge.targetLabel) ∧
      ∀ edge' ∈ cfg.getOutgoingEdges c.state.vertex.label, ∀ taken', edge'.IsSide taken' →
        edge'.targetLabel = edge.targetLabel → taken' = taken
  summaries : ∀ {frame frames called t₁ t₂ callee returnLabel summaries},
    c.callStack = frame :: frames →
    c.state.vertex.instruction = some (.callInstruction called t₁ t₂) →
    findApplicableSummaries (Executor.inside frame called callee returnLabel c) = .ok summaries →
    (∀ before summary after, summaries = before ++ summary :: after →
      Summarizes p c frame callee (frame.scope ++ "." ++ called.name)
        (Testing.steps (before.foldl (fun l s => Testing.lastLabel l s.assumptionLiterals)
          c.state.vertex.label) summary.assumptionLiterals) summary) ∧
    (summaries ≠ [] → ∀ I M, c.Holds I M → ∃ s ∈ summaries, Suits (c.store p M) s)

namespace Executor

variable {ex : Executor}

theorem moveTo_replays {next : Vertex} (hc : c.Replays p) (hstack : c.callStack = frame :: frames)
    (hkind : c.state.vertex.type = .entry ∨
      (c.state.vertex.type = .regular ∧ c.state.vertex.instruction = none))
    (hnext : frame.cfg.getOnlySuccessor c.state.vertex.label = .ok next) :
    (moveTo next c).Replays p := by
  refine hc.step (fun _ _ hM => ⟨hM.respects, hM.pathConstraint, hM.inputs⟩)
    fun inputs M conf _ hf => ⟨conf.moveTo next, hf.run hstack ?_, hf.moveTo next⟩
  have hmove : (do
      let next ← frame.cfg.getOnlySuccessor conf.vertex.label
      .ok (conf.moveTo next)) = (.ok (conf.moveTo next) : Except String Configuration) := by
    rw [hf.vertex, hnext]
    rfl
  unfold Program.stepIn
  rcases hkind with htype | ⟨htype, hinstruction⟩
  · rw [hf.vertex, htype, ← hf.vertex]
    exact hmove
  · rw [hf.vertex, htype, hinstruction, ← hf.vertex]
    exact hmove

theorem visitAssignment_keeps {r : VariableReference} {e : Expression}
    (h : ex.visitAssignment frame r e versions c = .ok (versions', c')) :
    c'.cycle = c.cycle ∧ c'.callStack = c.callStack ∧
      c'.state.pathConstraint = c.state.pathConstraint ∧
      ∀ n u, c.definitions n = some u → c'.definitions n = some u := by
  obtain ⟨u, w, edge, next, -, -, hfresh, -, -, -, rfl⟩ := visitAssignment_cases h
  refine ⟨rfl, rfl, rfl, fun n e' hn => (OrderedMap.find?_emplace_ne _ _ ?_).trans hn⟩
  rintro rfl
  rw [hfresh] at hn
  cases hn

theorem visitAssignment_replays {type : AssignmentType} {r : VariableReference} {e : Expression}
    (hc : c.Replays p) (hstack : c.callStack = frame :: frames)
    (htype : c.state.vertex.type = .regular)
    (hinstruction : c.state.vertex.instruction = some (.assignmentInstruction type r e))
    (hsorted : p.Sorted frame.scope (.assignmentInstruction type r e))
    (hkeeps : KeepsReplays p findApplicableSummaries c)
    (h : ex.visitAssignment frame r e versions c = .ok (versions', c')) : c'.Replays p := by
  obtain ⟨hcycle, -, hconstraint, hkeep⟩ := visitAssignment_keeps h
  have hadmits : ∀ inputs M, c'.Admits p inputs M → c.Admits p inputs M := fun inputs M hM =>
    hM.of_extends hcycle.ge hkeep (hconstraint ▸ hM.pathConstraint)
  refine hc.step hadmits fun inputs M conf hM hf => ?_
  have hadd := hkeeps.additions (hadmits inputs M hM) hstack
    (by rw [Vertex.expression?, hinstruction])
  obtain ⟨conf', hstep, hf', -⟩ := hf.assign hsorted hadd h hM.respects
  refine ⟨conf', hf.run hstack ?_, hf'⟩
  unfold Program.stepIn
  rw [hf.vertex, htype, hinstruction]
  exact hstep

theorem holds_negated (M : Model String) (t : Term String .bool) :
    (ex.simplifier.simplify (.not t)).Holds M ↔ t.eval M = false := by
  unfold Term.Holds
  rw [ex.simplifier.eval_simplify]
  exact Bool.not_eq_eq_eq_not

/-- A succeeding context of a branch stands behind one of its sides, and what it admits takes it. -/
theorem visitIf_takes {e : Expression} {t₁ t₂ : ℤ} {successors : Successors}
    (hstack : c.callStack = frame :: frames) (htype : c.state.vertex.type = .regular)
    (hinstruction : c.state.vertex.instruction = some (.ifInstruction e t₁ t₂))
    (hsorted : p.Sorted frame.scope (.ifInstruction e t₁ t₂))
    (hkeeps : KeepsReplays p findApplicableSummaries c)
    (h : ex.visitIf frame e c = .ok successors)
    (hc' : c' ∈ successors.contexts ++ successors.forked.toList) :
    c'.cycle = c.cycle ∧ c'.callStack = c.callStack ∧
      (∀ inputs M, c'.Admits p inputs M → c.Admits p inputs M) ∧
      ∃ taken edge, edge ∈ frame.cfg.getOutgoingEdges c.state.vertex.label ∧ edge.IsSide taken ∧
        frame.cfg.labelToVertex.find? edge.targetLabel = some c'.state.vertex ∧
        ∀ inputs M conf, c'.Admits p inputs M → Follows p M c conf → ∃ conf',
          p.Runs inputs conf conf' ∧ Follows p M c' conf' ∧
          conf'.branches = conf.branches ++ [⟨frame.scope, c.state.vertex.label, taken⟩] := by
  obtain ⟨t, trueEdge, positive, falseEdge, negative, ht, htrue, hpositive, hfalse, hnegative, h⟩ :=
    visitIf_edges h
  have hside : ∀ (taken : Bool) (edge : Edge) (next : Vertex) (u : Term String .bool),
      frame.cfg.getEdgeOfType (if taken then .trueBranch else .falseBranch) c.state.vertex.label =
        .ok edge → frame.cfg.getVertex edge.targetLabel = .ok next →
      (∀ M, u.Holds M → t.eval M = taken) → c' = c.fork next u →
      c'.cycle = c.cycle ∧ c'.callStack = c.callStack ∧
        (∀ inputs M, c'.Admits p inputs M → c.Admits p inputs M) ∧
        ∃ taken edge, edge ∈ frame.cfg.getOutgoingEdges c.state.vertex.label ∧ edge.IsSide taken ∧
          frame.cfg.labelToVertex.find? edge.targetLabel = some c'.state.vertex ∧
          ∀ inputs M conf, c'.Admits p inputs M → Follows p M c conf → ∃ conf',
            p.Runs inputs conf conf' ∧ Follows p M c' conf' ∧
            conf'.branches = conf.branches ++ [⟨frame.scope, c.state.vertex.label, taken⟩] := by
    rintro taken edge next u hedge hnext hu rfl
    obtain ⟨hmem, hedgeType⟩ := getEdgeOfType_eq hedge
    have hadmits : ∀ inputs M, (c.fork next u).Admits p inputs M → c.Admits p inputs M :=
      fun inputs M hM => hM.of_extends le_rfl (fun _ _ hn => hn) fun t ht =>
        hM.pathConstraint t (List.mem_append_left _ ht)
    refine ⟨rfl, rfl, hadmits, taken, edge, hmem, hedgeType, getVertex_eq hnext,
      fun inputs M conf hM hf => ?_⟩
    have hadd := hkeeps.additions (hadmits inputs M hM) hstack
      (by rw [Vertex.expression?, hinstruction])
    have htaken := hu M (hM.pathConstraint u (List.mem_append_right _ (List.mem_singleton.mpr rfl)))
    obtain ⟨conf', hstep, hf', hbranches⟩ := hf.branch taken u hsorted hadd ht htaken hedge hnext
    refine ⟨conf', hf.run hstack ?_, hf', hbranches⟩
    unfold Program.stepIn
    rw [hf.vertex, htype, hinstruction]
    exact hstep
  have hpos := hside true trueEdge positive t htrue hpositive fun _ h => h
  have hneg := hside false falseEdge negative (ex.simplifier.simplify (.not t)) hfalse hnegative
    fun M h => (holds_negated M t).mp h
  dsimp only at h
  rcases h with ⟨-, rfl⟩ | ⟨-, rfl⟩
  · rcases List.mem_append.mp hc' with hc' | hc'
    · exact hpos (List.mem_singleton.mp hc')
    · split_ifs at hc'
      · exact hneg (List.mem_singleton.mp hc')
      · exact absurd hc' List.not_mem_nil
  · exact hneg (List.mem_singleton.mp (by simpa using hc'))

theorem fork_expressions {next : Vertex} {u : Term String .bool} :
    (∀ t ∈ (c.fork next u).expressions, t.Holds M) ↔ ∀ t ∈ c.expressions ++ [u], t.Holds M := by
  have hexpressions : (c.fork next u).expressions =
      (c.state.pathConstraint ++ [u]) ++ c.state.symbolicValuations.entries.map equation := rfl
  rw [hexpressions, Context.expressions]
  simp only [List.forall_mem_append]
  exact and_right_comm

/-- The sides of a branch are feasible, and leave out no inputs. -/
theorem visitIf_feasible {e : Expression} {successors : Successors} (hc : c.Feasible)
    (h : ex.visitIf frame e c = .ok successors) :
    (∀ c' ∈ successors.contexts ++ successors.forked.toList, c'.Feasible) ∧
      ∀ I M, c.Holds I M → ∃ c' ∈ successors.contexts ++ successors.forked.toList, c'.Holds I M := by
  obtain ⟨t, _, positive, _, negative, -, -, -, -, -, h⟩ := visitIf_edges h
  dsimp only at h
  have hfeasible : ∀ {next u}, ex.solver.check (c.expressions ++ [u]) = true →
      (c.fork next u).Feasible := by
    intro next u hcheck
    obtain ⟨M, hM⟩ := (ex.solver.check_iff _).mp hcheck
    exact ⟨M, fork_expressions.mpr hM⟩
  have hcheck : ∀ {I M u}, c.Holds I M → u.Holds M → ex.solver.check (c.expressions ++ [u]) = true := by
    intro I M u hM hu
    refine (ex.solver.check_iff _).mpr ⟨M, fun q hq => ?_⟩
    rcases List.mem_append.mp hq with hq | hq
    · exact Context.expressions_hold.mpr ⟨hM.reads.respects, hM.pathConstraint⟩ q hq
    · exact List.mem_singleton.mp hq ▸ hu
  have hholds : ∀ {I M next u}, c.Holds I M → u.Holds M → (c.fork next u).Holds I M := by
    intro I M next u hM hu
    refine ⟨hM.reads, fun q hq => ?_⟩
    rcases List.mem_append.mp hq with hq | hq
    · exact hM.pathConstraint q hq
    · exact List.mem_singleton.mp hq ▸ hu
  have hnot : ∀ {M : Model String}, ¬ t.Holds M → (ex.simplifier.simplify (.not t)).Holds M :=
    fun hM => (holds_negated _ t).mpr (Bool.eq_false_iff.mpr hM)
  rcases h with ⟨hpositive, rfl⟩ | ⟨hpositive, rfl⟩
  · constructor
    · intro c' hc'
      rcases List.mem_append.mp hc' with hc' | hc'
      · exact List.mem_singleton.mp hc' ▸ hfeasible hpositive
      · split_ifs at hc' with hnegative
        · exact List.mem_singleton.mp hc' ▸ hfeasible hnegative
        · exact absurd hc' List.not_mem_nil
    · intro I M hM
      by_cases ht : t.Holds M
      · exact ⟨_, List.mem_append_left _ List.mem_cons_self, hholds hM ht⟩
      · have hnegative := hcheck hM (hnot ht)
        rw [Context.expressions] at hnegative
        refine ⟨c.fork negative (ex.simplifier.simplify (.not t)), List.mem_append_right _ ?_,
          hholds hM (hnot ht)⟩
        rw [if_pos hnegative]
        exact List.mem_singleton.mpr rfl
  · have hunsat : ∀ {I M}, c.Holds I M → (ex.simplifier.simplify (.not t)).Holds M := by
      intro I M hM
      refine hnot fun ht => ?_
      have htrue := hcheck hM ht
      rw [Context.expressions, hpositive] at htrue
      cases htrue
    constructor
    · intro c' hc'
      obtain rfl := List.mem_singleton.mp (by simpa using hc')
      obtain ⟨I, M, hM⟩ := Context.feasible_iff.mp hc
      exact Context.feasible_iff.mpr ⟨I, M, hholds hM (hunsat hM)⟩
    · intro I M hM
      exact ⟨_, List.mem_append_left _ List.mem_cons_self, hholds hM (hunsat hM)⟩

theorem applySummaries_spec {returnVertex : Vertex} {callStack : List Frame}
    {summaries : List Summary} {cs : List Context} (hfits : ∀ s ∈ summaries, p.Fits s)
    (hc : c.Invariant p versions k)
    (h : applySummaries returnVertex callStack c summaries versions = .ok (versions', cs)) :
    (∀ c' ∈ cs, ∃ before s after versions₁ versions₂ c₁, summaries = before ++ s :: after ∧
      c.Invariant p versions₁ k ∧ applySummary s versions₁ c = .ok (versions₂, c₁) ∧
      c' = { moveTo returnVertex c₁ with callStack := callStack }) ∧
    ∀ s ∈ summaries, ∃ versions₁ versions₂ c₁, c.Invariant p versions₁ k ∧
      applySummary s versions₁ c = .ok (versions₂, c₁) ∧
      { moveTo returnVertex c₁ with callStack := callStack } ∈ cs := by
  induction summaries generalizing versions cs with
  | nil =>
    cases h
    exact ⟨fun _ h => absurd h List.not_mem_nil, fun _ h => absurd h List.not_mem_nil⟩
  | cons summary summaries ih =>
    obtain ⟨⟨versions₁, c₁⟩, h₁, h⟩ := bind_eq_ok h
    obtain ⟨⟨versions₂, cs₂⟩, h₂, h⟩ := bind_eq_ok h
    cases h
    have hle := (applySummary_invariant (hfits summary List.mem_cons_self) hc h₁).2
    obtain ⟨hback, hforth⟩ := ih (fun s hs => hfits s (List.mem_cons_of_mem _ hs)) (hc.mono hle) h₂
    constructor
    · intro c' hc'
      rcases List.mem_cons.mp hc' with rfl | hc'
      · exact ⟨[], summary, summaries, versions, versions₁, c₁, rfl, hc, h₁, rfl⟩
      · obtain ⟨before, s, after, v₁, v₂, c₂, rfl, hrest⟩ := hback c' hc'
        exact ⟨summary :: before, s, after, v₁, v₂, c₂, rfl, hrest⟩
    · intro s hs
      rcases List.mem_cons.mp hs with rfl | hs
      · exact ⟨versions, versions₁, c₁, hc, h₁, List.mem_cons_self⟩
      · obtain ⟨v₁, v₂, c₂, hc₂, happly, hmem⟩ := hforth s hs
        exact ⟨v₁, v₂, c₂, hc₂, happly, List.mem_cons_of_mem _ hmem⟩

namespace Applied

variable {summary : Summary} {r : Reversioning}

theorem admits (h : Applied summary r versions versions' c c') (hM : c'.Admits p inputs M) :
    c.Admits p inputs M :=
  hM.of_extends h.cycle.ge h.keep fun t ht =>
    hM.pathConstraint t (h.pathConstraint ▸ List.mem_append_left _ ht)

theorem holds {I : Model String} (h : Applied summary r versions versions' c c')
    (hfits : p.Fits summary) (hc : c.Invariant p versions k) (hM : c.Holds I M)
    (hsuits : Suits (c.store p M) summary) : ∃ M', c'.Holds I M' := by
  refine hM.extend (h.wellDefined hfits hc.wellDefined).acyclic hc h.keep fun M' hM' hconstraint => ?_
  have hassumptions := hsuits (fun s n => M' s (nameIn summary versions c n))
    (by
      intro q hq hread
      obtain ⟨f, v, hqf, hplain, hsort⟩ := hfits.read q hq
      have hlocal := h.localRead q hq hread
      have hd : decontextualize q.2 = f := by rw [hqf, decontextualize_versioned hplain]
      rw [hd] at hlocal ⊢
      obtain ⟨t, ht⟩ := hc.wellDefined.currentVersion hsort hlocal
      rw [Context.store_eq hsort hlocal, hc.acyclic.reads_unique hM.reads (hM'.mono h.keep) ht]
      dsimp only [nameIn]
      rw [hd])
    (by
      intro n s t hn
      dsimp only
      rw [hM'.respects _ _ _ (h.written hn), Term.eval_rename])
  intro t ht
  rw [h.pathConstraint] at ht
  rcases List.mem_append.mp ht with ht | ht
  · exact hconstraint t ht
  · obtain ⟨u, hu, rfl⟩ := List.mem_map.mp ht
    rw [Term.Holds, Term.eval_rename]
    exact hassumptions u hu

end Applied

variable {called : Variable} {callee : UnitCfg} {returnEdge : Edge} {next : Vertex}
  {summary : Summary} {steps : List (ℤ × ℤ)}

/-- What a context admits behind a summary was admitted in front of it, and takes the branches the
assumption literals of the summary stand for. -/
theorem applySummary_takes (hfits : p.Fits summary) (hc : c.Invariant p versions k)
    (hstack : c.callStack = frame :: frames)
    (hreturn : frame.cfg.getIntraproceduralCallToReturnEdge c.state.vertex.label = .ok returnEdge)
    (hnext : frame.cfg.getVertex returnEdge.targetLabel = .ok next)
    (hsummarizes : Summarizes p c frame callee (frame.scope ++ "." ++ called.name) steps summary)
    (h : applySummary summary versions (inside frame called callee returnEdge.targetLabel c) =
      .ok (versions', c')) :
    (∀ inputs M, c'.Admits p inputs M → c.Admits p inputs M) ∧ ∃ branches,
      (∀ step ∈ steps, ∀ edge ∈ callee.getOutgoingEdges step.1, edge.targetLabel = step.2 →
        ∀ taken, edge.IsSide taken →
          ⟨frame.scope ++ "." ++ called.name, step.1, taken⟩ ∈ branches) ∧
      ∀ inputs M conf, c'.Admits p inputs M → Follows p M c conf → ∃ conf',
        p.Runs inputs conf conf' ∧
        Follows p M { moveTo next c' with callStack := c.callStack } conf' ∧
        conf'.branches = conf.branches ++ branches := by
  obtain ⟨r, hr⟩ := applySummary_spec hfits h
  have hadmits : ∀ inputs M, c'.Admits p inputs M → c.Admits p inputs M := fun inputs M hM =>
    have hinside := hr.admits hM
    ⟨hinside.respects, hinside.pathConstraint, hinside.inputs⟩
  obtain ⟨branches, hdescribes, hsteps⟩ := hsummarizes.describes
  refine ⟨hadmits, branches, hsteps, fun inputs M conf hM hf => ?_⟩
  refine hf.apply hc.wellDefined hstack hreturn hnext hfits hr hdescribes ?_ hM.respects
    hM.pathConstraint
  -- no version of the context is above that of the executor
  intro f v e he l g hl hg
  obtain ⟨f', v', hname, -, hsort⟩ := hfits.written he
  obtain ⟨rfl, rfl⟩ := versioned_injective hname
  obtain ⟨-, w, hw, hle⟩ := hc.currentVersion hsort hl
  rw [hg] at hw
  cases hw
  exact hle

theorem visitCall_replays {t₁ t₂ : ℤ} {successors : Successors}
    (hfits : p.FindsFitting findApplicableSummaries) (hi : c.Invariant p versions k)
    (hc : c.Replays p) (hstack : c.callStack = frame :: frames)
    (htype : c.state.vertex.type = .regular)
    (hinstruction : c.state.vertex.instruction = some (.callInstruction called t₁ t₂))
    (hkeeps : KeepsReplays p findApplicableSummaries c)
    (h : (Engine.executor p simplifier solver findApplicableSummaries).visitCall frame called
      versions c = .ok (versions', successors)) :
    ∀ c' ∈ successors.contexts ++ successors.forked.toList, c'.Replays p := by
  obtain ⟨typeName, callee, returnEdge, callEdge, summaries, hdata, hcallee, hreturn, hcall, hfind,
    hor⟩ := visitCall_edges h
  have hinside : (inside frame called callee returnEdge.targetLabel c).Invariant p versions k :=
    hi.of_eq rfl rfl hi.closed rfl
  intro c' hc'
  rcases hor with ⟨-, -, next, hnext, rfl⟩ | ⟨-, next, cs, hnext, happly, rfl⟩
  · obtain rfl := List.mem_singleton.mp (by simpa using hc')
    refine hc.step (fun _ _ hM => ⟨hM.respects, hM.pathConstraint, hM.inputs⟩)
      fun inputs M conf _ hf => ?_
    obtain ⟨conf', hstep, hf', -⟩ := hf.enter hdata hcallee hreturn hcall hnext
    refine ⟨conf', hf.run hstack ?_, hf'⟩
    unfold Program.stepIn
    rw [hf.vertex, htype, hinstruction]
    exact hstep
  · have hfound := hfits _ _ hfind
    obtain ⟨before, s, after, versions₁, versions₂, c₁, hsplit, hi₁, happly₁, rfl⟩ :=
      (applySummaries_spec hfound hinside happly).1 c' (by simpa using hc')
    have hs : s ∈ summaries := hsplit ▸ List.mem_append_right _ List.mem_cons_self
    have hi₁ : c.Invariant p versions₁ k := hi₁.of_eq rfl rfl hi.closed rfl
    obtain ⟨hadmits, branches, -, htakes⟩ := applySummary_takes (hfound s hs) hi₁ hstack hreturn hnext
      ((hkeeps.summaries hstack hinstruction hfind).1 before s after hsplit) happly₁
    have hsame : ∀ inputs M,
        Context.Admits p inputs M { moveTo next c₁ with callStack := c.callStack } →
        c₁.Admits p inputs M := fun _ _ hM => ⟨hM.respects, hM.pathConstraint, hM.inputs⟩
    refine hc.step (fun inputs M hM => hadmits inputs M (hsame inputs M hM))
      fun inputs M conf hM hf => ?_
    obtain ⟨conf', hruns, hf', -⟩ := htakes inputs M conf (hsame inputs M hM) hf
    exact ⟨conf', hruns, hf'⟩

theorem visitCall_feasible {t₁ t₂ : ℤ} {successors : Successors}
    (hfits : p.FindsFitting findApplicableSummaries) (hi : c.Invariant p versions k)
    (hc : c.Feasible) (hstack : c.callStack = frame :: frames)
    (hinstruction : c.state.vertex.instruction = some (.callInstruction called t₁ t₂))
    (hkeeps : KeepsReplays p findApplicableSummaries c)
    (h : (Engine.executor p simplifier solver findApplicableSummaries).visitCall frame called
      versions c = .ok (versions', successors)) :
    (∀ c' ∈ successors.contexts ++ successors.forked.toList, c'.Feasible) ∧
      ∀ I M, c.Holds I M →
        ∃ c' ∈ successors.contexts ++ successors.forked.toList, ∃ M', c'.Holds I M' := by
  obtain ⟨typeName, callee, returnEdge, callEdge, summaries, hdata, hcallee, hreturn, hcall, hfind,
    hor⟩ := visitCall_edges h
  have hinside : (inside frame called callee returnEdge.targetLabel c).Invariant p versions k :=
    hi.of_eq rfl rfl hi.closed rfl
  rcases hor with ⟨-, -, next, -, rfl⟩ | ⟨hne, next, cs, -, happly, rfl⟩
  · constructor
    · intro c' hc'
      obtain rfl := List.mem_singleton.mp (by simpa using hc')
      exact hc
    · intro I M hM
      exact ⟨_, List.mem_append_left _ List.mem_cons_self, M, ⟨hM.reads, hM.pathConstraint⟩⟩
  · have hfound := hfits _ _ hfind
    obtain ⟨hback, hforth⟩ := applySummaries_spec hfound hinside happly
    obtain ⟨hsummarizes, hall⟩ := hkeeps.summaries hstack hinstruction hfind
    have hholds : ∀ {s versions₁ versions₂ c₁ I M}, s ∈ summaries →
        (inside frame called callee returnEdge.targetLabel c).Invariant p versions₁ k →
        applySummary s versions₁ (inside frame called callee returnEdge.targetLabel c) =
          .ok (versions₂, c₁) → c.Holds I M → Suits (c.store p M) s → ∃ M', c₁.Holds I M' := by
      intro s versions₁ versions₂ c₁ I M hs hi₁ happly₁ hM hsuits
      obtain ⟨r, hr⟩ := applySummary_spec (hfound s hs) happly₁
      exact hr.holds (hfound s hs) hi₁ ⟨hM.reads, hM.pathConstraint⟩ hsuits
    constructor
    · intro c' hc'
      obtain ⟨before, s, after, versions₁, versions₂, c₁, hsplit, hi₁, happly₁, rfl⟩ :=
        hback c' (by simpa using hc')
      have hs : s ∈ summaries := hsplit ▸ List.mem_append_right _ List.mem_cons_self
      obtain ⟨I, M, hM, hsuits⟩ := (hsummarizes before s after hsplit).suits
      obtain ⟨M', hM'⟩ := hholds hs hi₁ happly₁ hM hsuits
      exact Context.feasible_iff.mpr ⟨I, M', ⟨hM'.reads, hM'.pathConstraint⟩⟩
    · intro I M hM
      obtain ⟨s, hs, hsuits⟩ := hall hne I M hM
      obtain ⟨versions₁, versions₂, c₁, hi₁, happly₁, hmem⟩ := hforth s hs
      obtain ⟨M', hM'⟩ := hholds hs hi₁ happly₁ hM hsuits
      exact ⟨_, List.mem_append_left _ hmem, M', ⟨hM'.reads, hM'.pathConstraint⟩⟩

theorem handleFunctionBlockExitVertex_replays (hc : c.Replays p)
    (hstack : c.callStack = frame :: frames) (htype : c.state.vertex.type = .exit)
    (hfunctionBlock : frame.cfg.type = .functionBlock)
    (h : handleFunctionBlockExitVertex frame c = .ok c') : c'.Replays p := by
  have hadmits : ∀ inputs M, c'.Admits p inputs M → c.Admits p inputs M := by
    obtain ⟨_, _, _, next, -, -, rfl⟩ := handleFunctionBlockExitVertex_returns h
    exact fun inputs M hM => ⟨hM.respects, hM.pathConstraint, hM.inputs⟩
  refine hc.step hadmits fun inputs M conf _ hf => ?_
  obtain ⟨conf', hstep, hf', -⟩ := hf.leave hstack h
  refine ⟨conf', hf.run hstack ?_, hf'⟩
  unfold Program.stepIn
  rw [hf.vertex, htype]
  dsimp only
  rw [hfunctionBlock]
  exact hstep

theorem handleProgramExitVertex_keeps (h : ex.handleProgramExitVertex frame versions c =
      .ok (versions', c')) :
    c'.cycle = c.cycle + 1 ∧ c'.state.pathConstraint = [] ∧
      ∀ n e, c.definitions n = some e → c'.definitions n = some e := by
  obtain ⟨-, st₁, st₂, next, hcarry, hreset, -, rfl⟩ := handleProgramExitVertex_cases h
  obtain ⟨hval, -, -⟩ := resetVersions_spec hreset
  refine ⟨rfl, rfl, fun n e hn => ?_⟩
  change st₂.symbolicValuations.find? n = some e
  rw [hval]
  exact (carryOver_names hcarry).2.1 n e hn

theorem handleProgramExitVertex_opens (hc : c.Opens p) (hframe : frame.cfg = p.main)
    (hinputs : ex.wholeProgramInputs = p.wholeProgramInputs)
    (h : ex.handleProgramExitVertex frame versions c = .ok (versions', c')) : c'.Opens p := by
  obtain ⟨hcycle, -, hkeep⟩ := handleProgramExitVertex_keeps h
  refine ⟨fun hx he => hkeep _ _ (hc.initial hx he), fun k hk x hx s hs => ?_⟩
  rcases Nat.lt_or_ge c.cycle k with hlt | hle
  · obtain rfl : k = c.cycle + 1 := by omega
    obtain ⟨-, st₁, st₂, next, hcarry, hreset, -, rfl⟩ := handleProgramExitVertex_cases h
    obtain ⟨hval, -, -⟩ := resetVersions_spec hreset
    obtain ⟨v, hv⟩ := Program.entry_of_sortOf hs
    rw [hframe] at hcarry
    obtain ⟨e, he, hnew⟩ := carryOver_carried hcarry x v hv
    rw [carriedValuation, if_pos (hinputs ▸ hx)] at he
    obtain ⟨s', hs', rfl⟩ := makeConstant_eq he
    have hsort : p.sortOf x = some s' := by
      rw [Program.sortOf, (OrderedMap.find?_eq_some_iff _ _ _).mpr hv, Option.bind_some, hs']
      rfl
    rw [hs] at hsort
    cases hsort
    change st₂.symbolicValuations.find? _ = _
    rw [hval]
    exact hnew
  · exact hkeep _ _ (hc.inputs k hle x hx s hs)

theorem handleProgramExitVertex_replays (hinputs : ex.wholeProgramInputs = p.wholeProgramInputs)
    (hi : c.Invariant p versions k) (hc : c.Replays p) (hstack : c.callStack = frame :: frames)
    (hframe : frame.cfg = p.main) (htype : c.state.vertex.type = .exit)
    (hprogram : frame.cfg.type = .program)
    (hvalid : ∀ M, c.definitions.Respects M → ∀ t ∈ c.state.pathConstraint, t.Holds M)
    (h : ex.handleProgramExitVertex frame versions c = .ok (versions', c')) : c'.Replays p := by
  obtain ⟨hcycle, -, hkeep⟩ := handleProgramExitVertex_keeps h
  have hadmits : ∀ inputs M, c'.Admits p inputs M → c.Admits p inputs M := fun inputs M hM =>
    hM.of_extends (by omega) hkeep
      (hvalid M fun n s t hn => hM.respects n s t (hkeep n _ hn))
  refine hc.step hadmits fun inputs M conf hM hf => ?_
  obtain ⟨conf', hstep, hf', -⟩ := hf.nextCycle hi.wellDefined hinputs hframe h hM.respects
    fun x hx s hs => hM.inputs c'.cycle le_rfl x hx s hs
  refine ⟨conf', hf.run hstack ?_, hf'⟩
  unfold Program.stepIn
  rw [hf.vertex, htype]
  dsimp only
  rw [hprogram]
  exact hstep

theorem execute_exit {successors : Successors} (hstack : c.callStack = frame :: frames)
    (htype : c.state.vertex.type = .exit) (h : ex.execute versions c = .ok (versions', successors)) :
    (frame.cfg.type = .program ∧ ∃ c', ex.handleProgramExitVertex frame versions c =
      .ok (versions', c') ∧ successors = ⟨[c'], none⟩) ∨
    (frame.cfg.type = .functionBlock ∧ ∃ c', handleFunctionBlockExitVertex frame c = .ok c' ∧
      successors = ⟨[c'], none⟩) := by
  unfold execute Context.getFrame at h
  rw [hstack] at h
  dsimp only [bind, Except.bind] at h
  rw [htype] at h
  dsimp only at h
  split at h
  · rename_i hprogram
    obtain ⟨⟨versions₁, c₁⟩, hc₁, h⟩ := bind_eq_ok h
    cases h
    exact Or.inl ⟨hprogram, c₁, hc₁, rfl⟩
  · rename_i hfunctionBlock
    obtain ⟨c₁, hc₁, h⟩ := bind_eq_ok h
    cases h
    exact Or.inr ⟨hfunctionBlock, c₁, hc₁, rfl⟩
  · cases h

/-- Every step that meets the condition leads to contexts that replay. -/
theorem execute_replays {successors : Successors} (hp : p.WellFormed)
    (hfits : p.FindsFitting findApplicableSummaries) (hi : c.Invariant p versions k)
    (hplaced : c.Placed p) (hc : c.Replays p) (hkeeps : KeepsReplays p findApplicableSummaries c)
    (hvalid : c.AtExit → ∀ M, c.definitions.Respects M → ∀ t ∈ c.state.pathConstraint, t.Holds M)
    (h : (Engine.executor p simplifier solver findApplicableSummaries).execute versions c =
      .ok (versions', successors)) :
    ∀ c' ∈ successors.contexts ++ successors.forked.toList, c'.Replays p := by
  obtain ⟨frame, frames, hstack, hexecutes⟩ := execute_cases h
  have hframes := hstack ▸ hplaced.stack
  obtain ⟨l, hl⟩ := hplaced.atVertex frame frames hstack
  have hexit : c.state.vertex.type = .exit →
      ∀ c' ∈ successors.contexts ++ successors.forked.toList, c'.Replays p := by
    intro htype
    rcases execute_exit hstack htype h with ⟨hprogram, c₁, hstep, hsuccessors⟩ |
      ⟨hfunctionBlock, c₁, hstep, hsuccessors⟩
    all_goals
      intro c' hc'
      rw [hsuccessors] at hc'
      obtain rfl := List.mem_singleton.mp (by simpa using hc')
    · have hdepth := (handleProgramExitVertex_returns hstep).1
      have hmain := hplaced.stack.of_length_one hdepth
      rw [hstack] at hmain
      obtain ⟨rfl, -⟩ := List.cons.inj hmain
      exact handleProgramExitVertex_replays rfl hi hc hstack rfl htype hprogram
        (hvalid ⟨hdepth, htype⟩) hstep
    · exact handleFunctionBlockExitVertex_replays hc hstack htype hfunctionBlock hstep
  cases hexecutes with
  | move hkind hnext =>
    intro c' hc'
    obtain rfl := List.mem_singleton.mp (by simpa using hc')
    exact moveTo_replays hc hstack hkind hnext
  | assignment htype hinstruction hstep =>
    intro c' hc'
    obtain rfl := List.mem_singleton.mp (by simpa using hc')
    exact visitAssignment_replays hc hstack htype hinstruction
      (hp.sorted hframes.instance_of_head hl hinstruction) hkeeps hstep
  | call htype hinstruction hstep =>
    exact visitCall_replays hfits hi hc hstack htype hinstruction hkeeps hstep
  | branch htype hinstruction hstep =>
    intro c' hc'
    obtain ⟨-, -, hadmits, taken, edge, -, -, -, htakes⟩ := visitIf_takes hstack htype hinstruction
      (hp.sorted hframes.instance_of_head hl hinstruction) hkeeps hstep hc'
    refine hc.step hadmits fun inputs M conf hM hf => ?_
    obtain ⟨conf', hruns, hf', -⟩ := htakes inputs M conf hM hf
    exact ⟨conf', hruns, hf'⟩
  | programExit htype _ => exact hexit htype
  | functionBlockExit htype _ => exact hexit htype

theorem execute_opens {successors : Successors} (hfits : p.FindsFitting findApplicableSummaries)
    (hi : c.Invariant p versions k) (hplaced : c.Placed p) (hc : c.Opens p)
    (h : (Engine.executor p simplifier solver findApplicableSummaries).execute versions c =
      .ok (versions', successors)) :
    ∀ c' ∈ successors.contexts ++ successors.forked.toList, c'.Opens p := by
  obtain ⟨frame, frames, hstack, hexecutes⟩ := execute_cases h
  intro c' hc'
  cases hexecutes with
  | move _ _ =>
    obtain rfl := List.mem_singleton.mp (by simpa using hc')
    exact hc.of_extends rfl fun _ _ hn => hn
  | assignment _ _ hstep =>
    obtain rfl := List.mem_singleton.mp (by simpa using hc')
    obtain ⟨hcycle, -, -, hkeep⟩ := visitAssignment_keeps hstep
    exact hc.of_extends hcycle hkeep
  | @call called _ _ _ _ _ _ hstep =>
    obtain ⟨typeName, callee, returnEdge, callEdge, summaries, -, -, -, -, hfind, hor⟩ :=
      visitCall_edges hstep
    rcases hor with ⟨-, -, next, -, rfl⟩ | ⟨-, next, cs, -, happly, rfl⟩
    · obtain rfl := List.mem_singleton.mp (by simpa using hc')
      exact hc.of_extends rfl fun _ _ hn => hn
    · have hfound := hfits _ _ hfind
      have hinside : (inside frame called callee returnEdge.targetLabel c).Invariant p versions k :=
        hi.of_eq rfl rfl hi.closed rfl
      obtain ⟨before, s, after, _, _, c₁, hsplit, -, happly₁, rfl⟩ :=
        (applySummaries_spec hfound hinside happly).1 c' (by simpa using hc')
      have hs : s ∈ summaries := hsplit ▸ List.mem_append_right _ List.mem_cons_self
      obtain ⟨r, hr⟩ := applySummary_spec (hfound s hs) happly₁
      exact hc.of_extends hr.cycle hr.keep
  | branch _ _ hstep =>
    obtain ⟨t, positive, negative, -, -, -, hboth⟩ := visitIf_cases hstep
    rcases hboth c' hc' with rfl | rfl
    · exact hc.of_extends rfl fun _ _ hn => hn
    · exact hc.of_extends rfl fun _ _ hn => hn
  | programExit _ hstep =>
    obtain rfl := List.mem_singleton.mp (by simpa using hc')
    have hdepth := (handleProgramExitVertex_returns hstep).1
    have hmain := hplaced.stack.of_length_one hdepth
    rw [hstack] at hmain
    obtain ⟨rfl, -⟩ := List.cons.inj hmain
    exact handleProgramExitVertex_opens hc rfl rfl hstep
  | functionBlockExit _ hstep =>
    obtain rfl := List.mem_singleton.mp (by simpa using hc')
    obtain ⟨_, _, _, next, -, -, rfl⟩ := handleFunctionBlockExitVertex_returns hstep
    exact hc.of_extends rfl fun _ _ hn => hn

/-- A step leads from a feasible context to feasible ones, which leave out no inputs. -/
theorem execute_feasible {successors : Successors} (hp : p.WellFormed)
    (hfits : p.FindsFitting findApplicableSummaries) (hi : c.Invariant p versions k)
    (hplaced : c.Placed p) (hc : c.Feasible) (hkeeps : KeepsReplays p findApplicableSummaries c)
    (h : (Engine.executor p simplifier solver findApplicableSummaries).execute versions c =
      .ok (versions', successors)) :
    (∀ c' ∈ successors.contexts ++ successors.forked.toList, c'.Feasible) ∧
      ∀ I M, c.Holds I M →
        ∃ c' ∈ successors.contexts ++ successors.forked.toList, ∃ M', c'.Holds I M' := by
  obtain ⟨frame, frames, hstack, hexecutes⟩ := execute_cases h
  have hsingle : ∀ {c' : Context}, (∀ I M, c.Holds I M → ∃ M', c'.Holds I M') →
      (∀ c'' ∈ [c'] ++ none.toList, c''.Feasible) ∧
        ∀ I M, c.Holds I M → ∃ c'' ∈ [c'] ++ none.toList, ∃ M', c''.Holds I M' := by
    intro c' hholds
    constructor
    · intro c'' hc''
      obtain rfl : c'' = c' := List.mem_singleton.mp (by simpa using hc'')
      obtain ⟨I, M, hM⟩ := Context.feasible_iff.mp hc
      obtain ⟨M', hM'⟩ := hholds I M hM
      exact Context.feasible_iff.mpr ⟨I, M', hM'⟩
    · intro I M hM
      exact ⟨c', List.mem_append_left _ List.mem_cons_self, hholds I M hM⟩
  have hframes := hstack ▸ hplaced.stack
  obtain ⟨l, hl⟩ := hplaced.atVertex frame frames hstack
  cases hexecutes with
  | move _ _ => exact hsingle fun I M hM => ⟨M, hM.reads, hM.pathConstraint⟩
  | @assignment _ _ _ _ c₁ _ hinstruction hstep =>
    obtain ⟨-, -, hconstraint, hkeep⟩ := visitAssignment_keeps hstep
    have hacyclic := (visitAssignment_invariant hi
      (hp.sorted hframes.instance_of_head hl hinstruction) hstep).1.acyclic
    exact hsingle fun I M hM => hM.extend hacyclic hi hkeep fun M' _ hM' => hconstraint ▸ hM'
  | call _ hinstruction hstep =>
    exact visitCall_feasible hfits hi hc hstack hinstruction hkeeps hstep
  | branch _ _ hstep =>
    obtain ⟨hfeasible, hholds⟩ := visitIf_feasible hc hstep
    refine ⟨hfeasible, fun I M hM => ?_⟩
    obtain ⟨c', hc', hM'⟩ := hholds I M hM
    exact ⟨c', hc', M, hM'⟩
  | @programExit _ c₁ _ hstep =>
    obtain ⟨-, hconstraint, -⟩ := handleProgramExitVertex_keeps hstep
    have hdepth := (handleProgramExitVertex_returns hstep).1
    have hmain := hplaced.stack.of_length_one hdepth
    rw [hstack] at hmain
    obtain ⟨rfl, -⟩ := List.cons.inj hmain
    have hacyclic := (handleProgramExitVertex_invariant hp hi rfl hstep).acyclic
    refine hsingle fun I _ _ => ?_
    obtain ⟨M', hM'⟩ := hacyclic.exists_reads I
    refine ⟨M', hM', fun t ht => ?_⟩
    rw [hconstraint] at ht
    exact absurd ht List.not_mem_nil
  | functionBlockExit _ hstep =>
    obtain ⟨_, _, _, next, -, -, rfl⟩ := handleFunctionBlockExitVertex_returns hstep
    exact hsingle fun I M hM => ⟨M, hM.reads, hM.pathConstraint⟩

end Executor

namespace Merger

/-- The merged context replays where both contexts do: what it admits is admitted by one of them,
whose values it has. -/
theorem Merged.replays {c₁ c₂ : Context} (h : Merged p simplifier versions versions' k c₁ c₂ m)
    (hc₁ : c₁.Invariant p versions k) (hc₂ : c₂.Invariant p versions k)
    (hvertex : c₂.state.vertex = c₁.state.vertex) (hstack : c₂.callStack = c₁.callStack)
    (hrenames : ¬ Renames simplifier c₁ c₂) (hr₁ : c₁.Replays p) (hr₂ : c₂.Replays p) :
    m.Replays p := by
  intro inputs M hM
  -- the configuration that follows the chosen context follows the merged one
  have hfollows : ∀ (c : Context) (conf : Configuration), c.cycle = k →
      c.state.vertex = m.state.vertex → c.callStack = m.callStack → Follows p M c conf →
      (∀ {x s v v'}, p.sortOf x = some s → m.state.flattenedNameToVersion.find? x = some v →
        c.state.flattenedNameToVersion.find? x = some v' →
        M s (contextualized x v k) = M s (contextualized x v' k)) →
      (∀ {x s}, p.sortOf x = some s → ∃ v', c.state.flattenedNameToVersion.find? x = some v') →
      Follows p M m conf := by
    intro c conf hcycle hv hs hf hvalue hversion
    refine ⟨hf.cycle.trans (hcycle.trans h.invariant.cycle.symm), hf.vertex.trans hv,
      hf.callStack.trans hs, fun {x s} hx => ?_⟩
    obtain ⟨v, hv, -⟩ := h.invariant.current hx
    obtain ⟨v', hv'⟩ := hversion hx
    rw [hf.store hx, Context.store_eq hx hv, Context.store_eq hx hv', h.invariant.cycle, hcycle,
      hvalue hx hv hv']
  have hcurrent : ∀ {x s}, p.sortOf x = some s → ∃ v v₁ v₂,
      m.state.flattenedNameToVersion.find? x = some v ∧
      c₁.state.flattenedNameToVersion.find? x = some v₁ ∧
      c₂.state.flattenedNameToVersion.find? x = some v₂ ∧ M s (contextualized x v k) =
        chosen c₁ M (M s (contextualized x v₁ k)) (M s (contextualized x v₂ k)) := by
    intro x s hx
    obtain ⟨v, v₁, v₂, hv, hv₁, hv₂, hvalue⟩ := h.current hx
    exact ⟨v, v₁, v₂, hv, hv₁, hv₂, hvalue M hM.respects⟩
  have hcycle₁ : c₁.cycle ≤ m.cycle := by rw [hc₁.cycle, h.invariant.cycle]
  have hcycle₂ : c₂.cycle ≤ m.cycle := by rw [hc₂.cycle, h.invariant.cycle]
  by_cases hconstraint : ∀ t ∈ c₁.state.pathConstraint, t.Holds M
  · obtain ⟨conf₀, conf, hstart, hruns, hf⟩ :=
      hr₁ inputs M (hM.of_extends hcycle₁ h.left hconstraint)
    refine ⟨conf₀, conf, hstart, hruns, hfollows c₁ conf hc₁.cycle h.vertex.symm h.callStack.symm hf
      ?_ fun hx => ?_⟩
    · intro x s v v' hx hv hv'
      obtain ⟨w, w₁, w₂, hw, hw₁, -, hvalue⟩ := hcurrent hx
      rw [hv] at hw
      rw [hv'] at hw₁
      cases hw
      cases hw₁
      rw [hvalue, chosen_of_holds hconstraint]
    · obtain ⟨-, v₁, -, -, hv₁, -⟩ := hcurrent hx
      exact ⟨v₁, hv₁⟩
  · have hconstraint₂ := ((h.pathConstraint hrenames M).mp hM.pathConstraint).resolve_left hconstraint
    obtain ⟨conf₀, conf, hstart, hruns, hf⟩ :=
      hr₂ inputs M (hM.of_extends hcycle₂ h.right hconstraint₂)
    refine ⟨conf₀, conf, hstart, hruns, hfollows c₂ conf hc₂.cycle (hvertex.trans h.vertex.symm)
      (hstack.trans h.callStack.symm) hf ?_ fun hx => ?_⟩
    · intro x s v v' hx hv hv'
      obtain ⟨w, w₁, w₂, hw, -, hw₂, hvalue⟩ := hcurrent hx
      rw [hv] at hw
      rw [hv'] at hw₂
      cases hw
      cases hw₂
      rw [hvalue, chosen_of_not_holds hconstraint]
    · obtain ⟨-, -, v₂, -, -, hv₂, -⟩ := hcurrent hx
      exact ⟨v₂, hv₂⟩

theorem vertex_eq (hp : p.WellFormed) {c₁ c₂ : Context} (h₁ : c₁.Placed p) (h₂ : c₂.Placed p)
    (hdepth₁ : c₁.callStack.length = 1) (hdepth₂ : c₂.callStack.length = 1)
    (hlabel : c₁.state.vertex.label = c₂.state.vertex.label) :
    c₂.state.vertex = c₁.state.vertex ∧ c₂.callStack = c₁.callStack := by
  have hstack₁ := h₁.stack.of_length_one hdepth₁
  have hstack₂ := h₂.stack.of_length_one hdepth₂
  obtain ⟨l₁, hl₁⟩ := h₁.atVertex _ _ hstack₁
  obtain ⟨l₂, hl₂⟩ := h₂.atVertex _ _ hstack₂
  have hsame : l₁ = l₂ := by rw [← (hp.labels hl₁).1, ← (hp.labels hl₂).1, hlabel]
  subst hsame
  rw [hl₁] at hl₂
  exact ⟨(Option.some.inj hl₂).symm, hstack₂.trans hstack₁.symm⟩

/-- The fold over the contexts at a merge point, by induction on the contexts. -/
theorem mergeAll_replays {cs : List Context} (hp : p.WellFormed) (hc : c.Invariant p versions k)
    (hplaced : c.Placed p) (hcs : ∀ c' ∈ cs, c'.Invariant p versions k ∧ c'.Placed p)
    (hkeeps : KeepsConstraints simplifier versions c cs) (hr : ∀ c' ∈ c :: cs, c'.Replays p)
    (ho : c.Opens p) (h : mergeAll simplifier versions c cs = .ok (versions', m)) :
    m.Replays p ∧ m.Opens p ∧
      ∀ I, (∃ M, m.Holds I M) ↔ ∃ c' ∈ c :: cs, ∃ M, c'.Holds I M := by
  induction cs generalizing versions c with
  | nil =>
    cases h
    refine ⟨hr m List.mem_cons_self, ho, fun I => ?_⟩
    simp only [List.mem_singleton, exists_eq_left]
  | cons c' cs ih =>
    obtain ⟨⟨versions₁, m₁⟩, hm₁, h⟩ := bind_eq_ok h
    obtain ⟨hc', hplaced'⟩ := hcs c' List.mem_cons_self
    have hmerged := merge_spec hp hc hc' hplaced hplaced' hm₁
    obtain ⟨hlabel, hdepth, hdepth', -⟩ := merge_eq hm₁
    obtain ⟨hvertex, hstack⟩ := vertex_eq hp hplaced hplaced' hdepth hdepth' hlabel
    have hplaced₁ : m₁.Placed p := mergeAll_placed hplaced
      (show mergeAll simplifier versions c [c'] = .ok (versions₁, m₁) by
        unfold mergeAll
        rw [hm₁]
        rfl)
    have hr₁ := hmerged.replays hc hc' hvertex hstack hkeeps.1 (hr c List.mem_cons_self)
      (hr c' (List.mem_cons_of_mem _ List.mem_cons_self))
    have hcycle : m₁.cycle = c.cycle := hmerged.invariant.cycle.trans hc.cycle.symm
    obtain ⟨hreplays, hopens, hholds⟩ := ih hmerged.invariant hplaced₁
      (fun c'' hc'' => ⟨(hcs c'' (List.mem_cons_of_mem _ hc'')).1.mono hmerged.le,
        (hcs c'' (List.mem_cons_of_mem _ hc'')).2⟩)
      (hkeeps.2 versions₁ m₁ hm₁)
      (by
        intro c'' hc''
        rcases List.mem_cons.mp hc'' with rfl | hc''
        · exact hr₁
        · exact hr c'' (List.mem_cons_of_mem _ (List.mem_cons_of_mem _ hc'')))
      (ho.of_extends hcycle hmerged.left) h
    refine ⟨hreplays, hopens, fun I => ?_⟩
    rw [hholds, List.exists_mem_cons_iff, hmerged.holds_iff hc hc' hkeeps.1,
      List.exists_mem_cons_iff, List.exists_mem_cons_iff, or_assoc]

end Merger

end Ahorn.Etfa
