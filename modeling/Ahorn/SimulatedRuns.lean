import Ahorn.ProgramVersions

set_option autoImplicit false

/-!
# Simulated runs

A simulation is in step with the execution of the version it follows: it stands at the same vertex,
with the same call stack, and the values of the current cycle are those of the store.
-/
namespace Ahorn.Simulator

open Etfa (Configuration Inputs Branch)

def Frame.version (mode : ShadowProcessingMode) (f : Frame) : Etfa.Frame :=
  ⟨f.unit.root.version mode, f.scope, f.returnLabel⟩

/-- The place of a simulation is that of an execution. -/
structure Located (mode : ShadowProcessingMode) (c : Context) (conf : Configuration) : Prop where
  cycle : conf.cycle = c.cycle
  callStack : conf.callStack = (c.frame :: c.callers).map (Frame.version mode)
  vertex : ∃ v, c.frame.cfg.labelToVertex.find? c.label = some v ∧ conf.vertex = v.version mode

/-- The values of the current cycle are those of the store, but for some variables, and no later
cycle has values. -/
structure Stores (P : String → Prop) (c : ValuedContext) (store : Valuation) : Prop where
  same : ∀ x v, ¬P x → c.concreteValuations.find? (contextualizedName x c.cycle) = some v →
    store x = v
  fresh : ∀ x k, c.cycle < k → c.concreteValuations.find? (contextualizedName x k) = none

structure Tracks (mode : ShadowProcessingMode) (P : String → Prop) (c : ValuedContext)
    (conf : Configuration) : Prop where
  located : Located mode c.toContext conf
  stores : Stores P c conf.store

/-- What is taken at a vertex that leads from one context to another: a side of a branch, or
nothing. -/
inductive Takes (c c' : Context) : List Branch → Prop where
  | side {taken : Bool} {e : Expression} {l₁ l₂ : ℤ} {v : Vertex} {edge : Edge}
    (hvertex : c.frame.cfg.labelToVertex.find? c.label = some v) (htype : v.type = .regular)
    (hinstruction : v.instruction = some (.ifInstruction e l₁ l₂)) (hframe : c'.frame = c.frame)
    (hcycle : c'.cycle = c.cycle)
    (hedge : c.frame.cfg.getEdgeOfType (if taken then .trueBranch else .falseBranch) c.label =
      .ok edge) (htarget : edge.targetLabel = c'.label) :
    Takes c c' [⟨c.frame.scope, c.label, taken⟩]
  | nothing {v : Vertex} (hvertex : c.frame.cfg.labelToVertex.find? c.label = some v)
    (hbranch : ¬v.IsBranch) : Takes c c' []

section Control

variable {mode : ShadowProcessingMode} {c c' : Context} {conf : Configuration} {label : ℤ}
  {v : Vertex}

theorem find?_of_getVertex {cfg : Cfg} (h : cfg.getVertex label = .ok v) :
    cfg.labelToVertex.find? label = some v := by
  unfold Cfg.getVertex at h
  cases hfind : cfg.labelToVertex.find? label with
  | none =>
    rw [hfind] at h
    cases h
  | some v' =>
    rw [hfind] at h
    cases h
    rfl

theorem moveTo_cases (h : c.moveTo label = .ok c') :
    c' = { c with label := label } ∧ ∃ v, c.frame.cfg.getVertex label = .ok v := by
  refine ⟨moveTo_eq h, ?_⟩
  obtain ⟨v, hv, -⟩ := bind_eq_ok h
  exact ⟨v, hv⟩

theorem Located.move (hcycle : conf.cycle = c.cycle)
    (hstack : conf.callStack = (c.frame :: c.callers).map (Frame.version mode))
    (hv : c.frame.cfg.getVertex label = .ok v) (h : c.moveTo label = .ok c') :
    Located mode c' (conf.moveTo (v.version mode)) := by
  obtain ⟨rfl, -⟩ := moveTo_cases h
  exact ⟨hcycle, hstack, v, find?_of_getVertex hv, rfl⟩

end Control

section Prepare

variable {ex : Executor} {c c' : ValuedContext}

/-- The values of the next cycle are those of the current one, but for the inputs, and the others
stay. -/
theorem prepareCycle_values {entries : List (String × Variable)}
    (h : ex.prepareCycle entries c = .ok c') :
    (∀ x v, x ∉ ex.wholeProgramInputs →
      c'.concreteValuations.find? (contextualizedName x (c.cycle + 1)) = some v →
      c.concreteValuations.find? (contextualizedName x (c.cycle + 1)) = some v ∨
        c.concreteValuations.find? (contextualizedName x c.cycle) = some v) ∧
    ∀ x k, k ≠ c.cycle + 1 → c'.concreteValuations.find? (contextualizedName x k) =
      c.concreteValuations.find? (contextualizedName x k) := by
  induction entries generalizing c with
  | nil =>
    cases h
    exact ⟨fun x v _ hv => Or.inl hv, fun _ _ _ => rfl⟩
  | cons e entries ih =>
    unfold Executor.prepareCycle at h
    -- what is set is a value of the next cycle
    have hset : ∀ {c₀ c₁ : ValuedContext} {value : Value},
        c₀.concreteValuations = c.concreteValuations → c₀.cycle = c.cycle →
        c₀.setConcreteValuation (contextualizedName e.1 (c.cycle + 1)) value = .ok c₁ →
        c₁.cycle = c.cycle ∧ ∀ x k, c₁.concreteValuations.find? (contextualizedName x k) =
          if x = e.1 ∧ k = c.cycle + 1 then some value
          else c.concreteValuations.find? (contextualizedName x k) := by
      intro c₀ c₁ value hvaluations hcycle hset
      obtain ⟨hnone, rfl⟩ := set_cases hset
      refine ⟨hcycle, fun x k => ?_⟩
      dsimp only
      rw [OrderedMap.find?_emplace, hvaluations]
      by_cases hx : x = e.1 ∧ k = c.cycle + 1
      · obtain ⟨rfl, rfl⟩ := hx
        rw [hvaluations] at hnone
        rw [if_pos rfl, if_pos ⟨rfl, rfl⟩, hnone]
        rfl
      · rw [if_neg hx, if_neg fun heq => hx (contextualizedName_injective heq)]
    by_cases hinput : e.1 ∈ ex.wholeProgramInputs
    · rw [if_pos hinput] at h
      obtain ⟨⟨value, drawn⟩, -, h⟩ := bind_eq_ok h
      obtain ⟨c₁, hc₁, h⟩ := bind_eq_ok h
      obtain ⟨hcycle, hfind⟩ := @hset { c with drawn := drawn } c₁ value rfl rfl hc₁
      have hrest := ih h
      rw [hcycle] at hrest
      constructor
      · intro x v hx hv
        have hne : ∀ k, ¬(x = e.1 ∧ k = c.cycle + 1) := fun k heq => hx (heq.1 ▸ hinput)
        have hboth := hrest.1 x v hx hv
        rwa [hfind, hfind, if_neg (hne _), if_neg (hne _)] at hboth
      · intro x k hk
        rw [hrest.2 x k hk, hfind, if_neg fun heq => hk heq.2]
    · rw [if_neg hinput] at h
      obtain ⟨value, hvalue, h⟩ := bind_eq_ok h
      obtain ⟨c₁, hc₁, h⟩ := bind_eq_ok h
      obtain ⟨hcycle, hfind⟩ := hset rfl rfl hc₁
      have hrest := ih h
      rw [hcycle] at hrest
      constructor
      · intro x v hx hv
        have hboth := hrest.1 x v hx hv
        rw [hfind, hfind] at hboth
        have hne : ¬(x = e.1 ∧ c.cycle = c.cycle + 1) := fun heq => by omega
        rw [if_neg hne] at hboth
        by_cases heq : x = e.1 ∧ c.cycle + 1 = c.cycle + 1
        · rw [if_pos heq] at hboth
          refine Or.inr (hboth.elim (fun hsame => ?_) id)
          rw [← Option.some.inj hsame, heq.1]
          exact find?_of_get hvalue
        · rwa [if_neg heq] at hboth
      · intro x k hk
        rw [hrest.2 x k hk, hfind, if_neg fun heq => hk heq.2]

end Prepare

section Steps

variable {p : AnnotatedProgram} {ex : Executor} {inputs : Inputs} {c c' : ValuedContext}
  {conf : Configuration}

/-- What a step of the simulation is for the execution of the version: a step that takes the same
side. Where the cycle ends, the inputs of the next one are read, and the values of the cycle stay
those the execution has ended it with. -/
structure InStep (p : AnnotatedProgram) (ex : Executor) (inputs : Inputs) (c c' : ValuedContext)
    (conf conf' : Configuration) : Prop where
  step : (p.version ex.mode).step inputs conf = .ok conf'
  tracks : Tracks ex.mode (fun x => c'.cycle ≠ c.cycle ∧ x ∈ ex.wholeProgramInputs) c' conf'
  takes : ∃ taken, Takes c.toContext c'.toContext taken ∧ conf'.branches = conf.branches ++ taken
  ended : c'.cycle ≠ c.cycle → c'.cycle = c.cycle + 1 ∧
    (∀ x ∈ ex.wholeProgramInputs, conf'.store x = inputs c'.cycle x) ∧
    ∀ x v, c'.concreteValuations.find? (contextualizedName x c.cycle) = some v → conf.store x = v

theorem InStep.of_control {conf' : Configuration} (h : Tracks ex.mode (fun _ => False) c conf)
    (hvaluations : c'.concreteValuations = c.concreteValuations) (hcycle : c'.cycle = c.cycle)
    (hstep : (p.version ex.mode).step inputs conf = .ok conf')
    (hlocated : Located ex.mode c'.toContext conf') (hstore : conf'.store = conf.store)
    (htakes : ∃ taken, Takes c.toContext c'.toContext taken ∧
      conf'.branches = conf.branches ++ taken) :
    InStep p ex inputs c c' conf conf' := by
  refine ⟨hstep, ⟨hlocated, ?_, ?_⟩, htakes, fun hne => absurd hcycle hne⟩
  · intro x v _ hv
    rw [hvaluations, hcycle] at hv
    rw [hstore]
    exact h.stores.same x v id hv
  · intro x k hk
    rw [hvaluations]
    exact h.stores.fresh x k (hcycle ▸ hk)

theorem Tracks.evaluate (h : Tracks ex.mode (fun _ => False) c conf) {e : Expression} {value : Value}
    (hvalue : c.evaluate ex.mode e = .ok value) :
    (e.version ex.mode).eval (conf.valuation c.frame.scope) = value := by
  refine (Evaluator.evaluate_version (fun r v hv => ?_) hvalue).symm
  exact (h.stores.same _ v id (find?_of_get hv)).symm

theorem Located.step_eq {mode : ShadowProcessingMode} {ctx : Context} {vertex : Vertex}
    (h : Located mode ctx conf)
    (hvertex : ctx.frame.cfg.labelToVertex.find? ctx.label = some vertex) :
    conf.vertex = vertex.version mode ∧ (p.version mode).step inputs conf =
      (p.version mode).stepIn inputs (ctx.frame.version mode)
        (ctx.callers.map (Frame.version mode)) conf := by
  obtain ⟨v, hv, hconf⟩ := h.vertex
  rw [hvertex] at hv
  cases hv
  refine ⟨hconf, ?_⟩
  unfold Etfa.Program.step
  rw [h.callStack, List.map_cons]

theorem Tracks.entry {vertex : Vertex} (h : Tracks ex.mode (fun _ => False) c conf)
    (hunit : p.main.Reaches c.frame.unit)
    (hvertex : c.frame.cfg.labelToVertex.find? c.label = some vertex) (htype : vertex.type = .entry)
    (hc : c.proceed handleEntryVertex = .ok c') : ∃ conf', InStep p ex inputs c c' conf conf' := by
  obtain ⟨hcontrol, hvaluations, -⟩ := proceed_cases hc
  obtain ⟨hconf, hstep⟩ := @Located.step_eq p inputs conf _ _ _ h.located hvertex
  have hnext : ∃ next, c.frame.cfg.getOnlySuccessor c.label = .ok next ∧
      c.moveTo next.label = .ok c'.toContext := by
    unfold handleEntryVertex at hcontrol
    cases hkind : c.frame.unit.root.type with
    | function =>
      rw [hkind] at hcontrol
      cases hcontrol
    | program | functionBlock =>
      rw [hkind] at hcontrol
      exact bind_eq_ok hcontrol
  obtain ⟨next, hnext, hmove⟩ := hnext
  have hlabel : vertex.label = c.label := (p.executable hunit hvertex).1
  have hvertex' : c.frame.cfg.getVertex next.label = .ok next := by
    have hfound : ∃ l, c.frame.cfg.getVertex l = .ok next := by
      unfold Cfg.getOnlySuccessor at hnext
      split at hnext
      · exact ⟨_, hnext⟩
      · cases hnext
    obtain ⟨l, hl⟩ := hfound
    rwa [(p.executable hunit (find?_of_getVertex hl)).1]
  obtain ⟨heq, -⟩ := moveTo_cases hmove
  refine ⟨conf.moveTo (next.version ex.mode), .of_control h hvaluations ?_ ?_
    (.move h.located.cycle h.located.callStack hvertex' hmove) rfl
    ⟨[], .nothing hvertex ?_, (List.append_nil _).symm⟩⟩
  · rw [heq]
  · have htype' : conf.vertex.type = .entry := by
      rw [hconf]
      exact htype
    have hsuccessor : (c.frame.version ex.mode).cfg.getOnlySuccessor conf.vertex.label =
        .ok (next.version ex.mode) := by
      rw [hconf]
      exact UnitCfg.getOnlySuccessor_version (hlabel ▸ hnext)
    rw [hstep, Etfa.Program.stepIn, htype']
    dsimp only
    rw [hsuccessor]
    rfl
  · intro hbranch
    rw [hbranch.1] at htype
    cases htype

section StepIn

variable {P : Etfa.Program} {frame : Etfa.Frame} {frames : List Etfa.Frame}

theorem stepIn_assignment {type : AssignmentType} {r : VariableReference} {e : Expression}
    (htype : conf.vertex.type = .regular)
    (hi : conf.vertex.instruction = some (.assignmentInstruction type r e)) :
    P.stepIn inputs frame frames conf = Etfa.Program.assign frame r e conf := by
  rw [Etfa.Program.stepIn, htype, hi]

theorem stepIn_branch {e : Expression} {l₁ l₂ : ℤ} (htype : conf.vertex.type = .regular)
    (hi : conf.vertex.instruction = some (.ifInstruction e l₁ l₂)) :
    P.stepIn inputs frame frames conf = Etfa.Program.branch frame e conf := by
  rw [Etfa.Program.stepIn, htype, hi]

theorem stepIn_call {called : Variable} {l₁ l₂ : ℤ} (htype : conf.vertex.type = .regular)
    (hi : conf.vertex.instruction = some (.callInstruction called l₁ l₂)) :
    P.stepIn inputs frame frames conf = P.enter frame called conf := by
  rw [Etfa.Program.stepIn, htype, hi]

end StepIn

theorem not_isBranch {vertex : Vertex} {i : Instruction} (hi : vertex.instruction = some i)
    (hif : ∀ e l₁ l₂, i ≠ .ifInstruction e l₁ l₂) (hwhile : ∀ e l₁ l₂, i ≠ .whileInstruction e l₁ l₂) :
    ¬vertex.IsBranch := by
  rintro ⟨-, e, l₁, l₂, h | h⟩
  · rw [hi] at h
    exact hif e l₁ l₂ (Option.some.inj h)
  · rw [hi] at h
    exact hwhile e l₁ l₂ (Option.some.inj h)

theorem Tracks.assignment {vertex : Vertex} {type : AssignmentType} {r : VariableReference}
    {e : Expression} (h : Tracks ex.mode (fun _ => False) c conf)
    (hunit : p.main.Reaches c.frame.unit)
    (hvertex : c.frame.cfg.labelToVertex.find? c.label = some vertex)
    (htype : vertex.type = .regular)
    (hinstruction : vertex.instruction = some (.assignmentInstruction type r e))
    (hc : ex.visitAssignment r e c = .ok c') : ∃ conf', InStep p ex inputs c c' conf conf' := by
  obtain ⟨value, hvalue, hc⟩ := bind_eq_ok hc
  obtain ⟨c₁, hupdate, hc⟩ := bind_eq_ok hc
  obtain ⟨-, rfl⟩ := update_cases hupdate
  obtain ⟨hcontrol, hvaluations, -⟩ := proceed_cases hc
  obtain ⟨edge, hedge, hmove⟩ := bind_eq_ok hcontrol
  obtain ⟨hconf, hstep⟩ := @Located.step_eq p inputs conf _ _ _ h.located hvertex
  obtain ⟨heq, next, hnext⟩ := moveTo_cases hmove
  have hlabel : conf.vertex.label = c.label := by
    rw [hconf]
    exact (p.executable hunit hvertex).1
  have hlocated : Located ex.mode c'.toContext (conf.moveTo (next.version ex.mode)) :=
    .move h.located.cycle h.located.callStack hnext hmove
  have hcycle : c'.cycle = c.cycle := by
    rw [heq]
  refine ⟨{ conf.moveTo (next.version ex.mode) with
    store := Function.update conf.store (c.frame.scope ++ "." ++ r.getName) value }, ?_,
    ⟨⟨hlocated.cycle, hlocated.callStack, hlocated.vertex⟩, ?_, ?_⟩, ⟨[], .nothing hvertex ?_, ?_⟩,
    fun hne => absurd hcycle hne⟩
  · have htype' : conf.vertex.type = .regular := by
      rw [hconf]
      exact htype
    have hinstruction' : conf.vertex.instruction =
        some (.assignmentInstruction type r (e.version ex.mode)) := by
      rw [hconf]
      change vertex.instruction.map _ = _
      rw [hinstruction]
      rfl
    have hedge' : (c.frame.version ex.mode).cfg.getIntraproceduralEdge conf.vertex.label = .ok edge := by
      rw [hlabel]
      exact hedge
    have hnext' : (c.frame.version ex.mode).cfg.getVertex edge.targetLabel =
        .ok (next.version ex.mode) := UnitCfg.getVertex_version hnext
    have heval : (e.version ex.mode).eval (conf.valuation (c.frame.version ex.mode).scope) = value :=
      h.evaluate hvalue
    rw [hstep, stepIn_assignment htype' hinstruction', Etfa.Program.assign, hedge']
    dsimp only [bind, Except.bind]
    rw [hnext', heval]
    rfl
  · intro x v _ hv
    rw [hvaluations, hcycle] at hv
    dsimp only at hv
    rw [OrderedMap.find?_assign] at hv
    dsimp only
    have hname : c.nameOf r = contextualizedName (c.frame.scope ++ "." ++ r.getName) c.cycle := rfl
    rw [hname] at hv
    by_cases hx : x = c.frame.scope ++ "." ++ r.getName
    · rw [if_pos (by rw [hx])] at hv
      rw [hx, Function.update_self]
      exact Option.some.inj hv
    · rw [if_neg fun heq => hx (contextualizedName_injective heq).1] at hv
      rw [Function.update_of_ne hx]
      exact h.stores.same x v id hv
  · intro x k hk
    rw [hcycle] at hk
    rw [hvaluations]
    dsimp only
    rw [OrderedMap.find?_assign, if_neg fun heq => ?_]
    · exact h.stores.fresh x k hk
    · have hkeys := (contextualizedName_injective heq).2
      omega
  · exact not_isBranch hinstruction (fun _ _ _ h => by cases h) fun _ _ _ h => by cases h
  · exact (List.append_nil _).symm

theorem Tracks.branch {vertex : Vertex} {e : Expression} {l₁ l₂ : ℤ}
    (h : Tracks ex.mode (fun _ => False) c conf) (hunit : p.main.Reaches c.frame.unit)
    (hvertex : c.frame.cfg.labelToVertex.find? c.label = some vertex)
    (htype : vertex.type = .regular)
    (hinstruction : vertex.instruction = some (.ifInstruction e l₁ l₂))
    (hc : ex.visitIf e c = .ok c') : ∃ conf', InStep p ex inputs c c' conf conf' := by
  obtain ⟨value, hvalue, hc⟩ := bind_eq_ok hc
  cases value with
  | int i => cases hc
  | bool taken =>
    obtain ⟨hcontrol, hvaluations, -⟩ := proceed_cases hc
    obtain ⟨hconf, hstep⟩ := @Located.step_eq p inputs conf _ _ _ h.located hvertex
    have hside : ∃ edge, c.frame.cfg.getEdgeOfType (if taken then .trueBranch else .falseBranch)
        c.label = .ok edge ∧ c.moveTo edge.targetLabel = .ok c'.toContext := by
      obtain ⟨trueEdge, htrue, hcontrol⟩ := bind_eq_ok hcontrol
      obtain ⟨positive, hpositive, hcontrol⟩ := bind_eq_ok hcontrol
      obtain ⟨falseEdge, hfalse, hcontrol⟩ := bind_eq_ok hcontrol
      obtain ⟨negative, hnegative, hcontrol⟩ := bind_eq_ok hcontrol
      cases taken with
      | true =>
        cases hcontrol
        exact ⟨trueEdge, htrue, hpositive⟩
      | false =>
        cases hcontrol
        exact ⟨falseEdge, hfalse, hnegative⟩
    obtain ⟨edge, hedge, hmove⟩ := hside
    obtain ⟨heq, next, hnext⟩ := moveTo_cases hmove
    have hlabel : conf.vertex.label = c.label := by
      rw [hconf]
      exact (p.executable hunit hvertex).1
    have hlocated : Located ex.mode c'.toContext (conf.moveTo (next.version ex.mode)) :=
      .move h.located.cycle h.located.callStack hnext hmove
    refine ⟨{ conf.moveTo (next.version ex.mode) with
      branches := conf.branches ++ [⟨c.frame.scope, c.label, taken⟩] }, .of_control h hvaluations
      (by rw [heq]) ?_ ⟨hlocated.cycle, hlocated.callStack, hlocated.vertex⟩ rfl
      ⟨_, .side hvertex htype hinstruction ?_ ?_ hedge ?_, rfl⟩⟩
    · have htype' : conf.vertex.type = .regular := by
        rw [hconf]
        exact htype
      have hinstruction' : conf.vertex.instruction =
          some (.ifInstruction (e.version ex.mode) l₁ l₂) := by
        rw [hconf]
        change vertex.instruction.map _ = _
        rw [hinstruction]
        rfl
      have heval : (e.version ex.mode).eval (conf.valuation (c.frame.version ex.mode).scope) =
          .bool taken := h.evaluate hvalue
      have hedge' : (c.frame.version ex.mode).cfg.getEdgeOfType
          (if (Value.bool taken).toBool then .trueBranch else .falseBranch) conf.vertex.label =
            .ok edge := by
        rw [hlabel]
        exact hedge
      have hnext' : (c.frame.version ex.mode).cfg.getVertex edge.targetLabel =
          .ok (next.version ex.mode) := UnitCfg.getVertex_version hnext
      rw [hstep, stepIn_branch htype' hinstruction', Etfa.Program.branch, heval]
      dsimp only
      rw [hedge']
      dsimp only [bind, Except.bind]
      rw [hnext', hlabel]
      rfl
    · rw [heq]
    · rw [heq]
    · rw [heq]

theorem Tracks.call {vertex : Vertex} {called : Variable} {l₁ l₂ : ℤ}
    (h : Tracks ex.mode (fun _ => False) c conf) (hunit : p.main.Reaches c.frame.unit)
    (hvertex : c.frame.cfg.labelToVertex.find? c.label = some vertex)
    (htype : vertex.type = .regular)
    (hinstruction : vertex.instruction = some (.callInstruction called l₁ l₂))
    (hc : c.proceed (visitCall called) = .ok c') : ∃ conf', InStep p ex inputs c c' conf conf' := by
  obtain ⟨hcontrol, hvaluations, -⟩ := proceed_cases hc
  obtain ⟨hconf, hstep⟩ := @Located.step_eq p inputs conf _ _ _ h.located hvertex
  obtain ⟨returnEdge, hreturn, hcontrol⟩ := bind_eq_ok hcontrol
  obtain ⟨callEdge, hcall, hcontrol⟩ := bind_eq_ok hcontrol
  have hlabel : conf.vertex.label = c.label := by
    rw [hconf]
    exact (p.executable hunit hvertex).1
  cases hdata : called.dataType with
  | derivedType typeName =>
    rw [hdata] at hcontrol
    dsimp only at hcontrol
    cases hcallee : c.frame.unit.callees.find? (·.name = typeName) with
    | none =>
      rw [hcallee] at hcontrol
      cases hcontrol
    | some callee =>
      rw [hcallee] at hcontrol
      dsimp only at hcontrol
      obtain ⟨heq, next, hnext⟩ := moveTo_cases hcontrol
      have hname : callee.name = typeName := by simpa using List.find?_some hcallee
      have hcfg : (p.version ex.mode).getCfg typeName = some (callee.root.version ex.mode) := by
        rw [← hname]
        exact AnnotatedProgram.getCfg_version (hunit.tail (List.mem_of_find?_eq_some hcallee))
      have hframe : c'.frame = ⟨callee, c.frame.scope ++ "." ++ called.name, returnEdge.targetLabel⟩ := by
        rw [heq]
      have hcallers : c'.callers = c.frame :: c.callers := by
        rw [heq]
      have hcycle : c'.cycle = c.cycle := by
        rw [heq]
      refine ⟨{ conf.moveTo (next.version ex.mode) with
        callStack := ⟨callee.root.version ex.mode, c.frame.scope ++ "." ++ called.name,
          returnEdge.targetLabel⟩ :: conf.callStack }, .of_control h hvaluations hcycle ?_
        ⟨?_, ?_, ?_⟩ rfl ⟨[], .nothing hvertex ?_, (List.append_nil _).symm⟩⟩
      · have htype' : conf.vertex.type = .regular := by
          rw [hconf]
          exact htype
        have hinstruction' : conf.vertex.instruction = some (.callInstruction called l₁ l₂) := by
          rw [hconf]
          change vertex.instruction.map _ = _
          rw [hinstruction]
          rfl
        have hreturn' : (c.frame.version ex.mode).cfg.getIntraproceduralCallToReturnEdge
            conf.vertex.label = .ok returnEdge := by
          rw [hlabel]
          exact hreturn
        have hcall' : (c.frame.version ex.mode).cfg.getInterproceduralCallEdge conf.vertex.label =
            .ok callEdge := by
          rw [hlabel]
          exact hcall
        have hnext' : (callee.root.version ex.mode).getVertex callEdge.targetLabel =
            .ok (next.version ex.mode) := UnitCfg.getVertex_version hnext
        rw [hstep, stepIn_call htype' hinstruction', Etfa.Program.enter, hreturn']
        dsimp only [bind, Except.bind]
        rw [hcall']
        dsimp only
        rw [hdata]
        dsimp only
        rw [hcfg]
        dsimp only
        rw [hnext']
        rfl
      · rw [hcycle]
        exact h.located.cycle
      · rw [hframe, hcallers, h.located.callStack]
        rfl
      · refine ⟨next, ?_, rfl⟩
        rw [heq]
        exact find?_of_getVertex hnext
      · exact not_isBranch hinstruction (fun _ _ _ h => by cases h) fun _ _ _ h => by cases h
  | _ =>
    rw [hdata] at hcontrol
    cases hcontrol

theorem Tracks.functionBlockExit {vertex : Vertex} (h : Tracks ex.mode (fun _ => False) c conf)
    (hvertex : c.frame.cfg.labelToVertex.find? c.label = some vertex) (htype : vertex.type = .exit)
    (hkind : c.frame.unit.root.type = .functionBlock)
    (hc : c.proceed Simulator.handleExitVertex = .ok c') :
    ∃ conf', InStep p ex inputs c c' conf conf' := by
  obtain ⟨hcontrol, hvaluations, -⟩ := proceed_cases hc
  obtain ⟨hconf, hstep⟩ := @Located.step_eq p inputs conf _ _ _ h.located hvertex
  unfold Simulator.handleExitVertex at hcontrol
  rw [hkind] at hcontrol
  dsimp only at hcontrol
  cases hcallers : c.callers with
  | nil =>
    rw [hcallers] at hcontrol
    cases hcontrol
  | cons caller callers =>
    rw [hcallers] at hcontrol
    dsimp only at hcontrol
    obtain ⟨heq, next, hnext⟩ := moveTo_cases hcontrol
    refine ⟨{ conf.moveTo (next.version ex.mode) with
      callStack := (caller :: callers).map (Frame.version ex.mode) },
      .of_control h hvaluations (by rw [heq]) ?_ ⟨?_, ?_, next, ?_, rfl⟩ rfl
      ⟨[], .nothing hvertex ?_, (List.append_nil _).symm⟩⟩
    · have htype' : conf.vertex.type = .exit := by
        rw [hconf]
        exact htype
      have hkind' : (c.frame.version ex.mode).cfg.type = .functionBlock := hkind
      have hnext' : (caller.version ex.mode).cfg.getVertex (c.frame.version ex.mode).returnLabel =
          .ok (next.version ex.mode) := UnitCfg.getVertex_version hnext
      rw [hstep, hcallers, Etfa.Program.stepIn, htype']
      dsimp only
      rw [hkind']
      unfold Etfa.Program.leave
      rw [List.map_cons]
      dsimp only
      rw [hnext']
      rfl
    · rw [heq]
      exact h.located.cycle
    · rw [heq]
    · rw [heq]
      exact find?_of_getVertex hnext
    · intro hbranch
      rw [hbranch.1] at htype
      cases htype

/-- The cycle ends: the inputs are read anew, and the other values stay. -/
theorem Tracks.programExit {vertex : Vertex} (h : Tracks ex.mode (fun _ => False) c conf)
    (hinputs : (p.version ex.mode).wholeProgramInputs = ex.wholeProgramInputs)
    (hvertex : c.frame.cfg.labelToVertex.find? c.label = some vertex) (htype : vertex.type = .exit)
    (hkind : c.frame.unit.root.type = .program) (hc : ex.handleExitVertex c = .ok c') :
    ∃ conf', InStep p ex inputs c c' conf conf' := by
  unfold Executor.handleExitVertex at hc
  rw [hkind] at hc
  obtain ⟨c₁, hprepare, hc⟩ := bind_eq_ok hc
  obtain ⟨hcontrol, hvaluations, -⟩ := proceed_cases hc
  obtain ⟨hvalues, hothers⟩ := prepareCycle_values hprepare
  obtain ⟨hconf, hstep⟩ := @Located.step_eq p inputs conf _ _ _ h.located hvertex
  rw [Executor.prepareCycle_control hprepare] at hcontrol
  unfold Simulator.handleExitVertex at hcontrol
  rw [hkind] at hcontrol
  obtain ⟨heq, next, hnext⟩ := moveTo_cases hcontrol
  have hcycle : c'.cycle = c.cycle + 1 := by
    rw [heq]
  refine ⟨{ conf.moveTo (next.version ex.mode) with
    cycle := conf.cycle + 1
    store := fun x =>
      if x ∈ (p.version ex.mode).wholeProgramInputs then inputs (conf.cycle + 1) x
      else conf.store x }, ?_, ⟨⟨?_, ?_, next, ?_, rfl⟩, ?_, ?_⟩,
    ⟨[], .nothing hvertex ?_, (List.append_nil _).symm⟩,
    fun _ => ⟨hcycle, fun x hx => ?_, fun x v hv => ?_⟩⟩
  · have htype' : conf.vertex.type = .exit := by
      rw [hconf]
      exact htype
    have hkind' : (c.frame.version ex.mode).cfg.type = .program := hkind
    have hnext' : (c.frame.version ex.mode).cfg.getVertex (c.frame.version ex.mode).returnLabel =
        .ok (next.version ex.mode) := UnitCfg.getVertex_version hnext
    rw [hstep, Etfa.Program.stepIn, htype']
    dsimp only
    rw [hkind']
    dsimp only
    rw [Etfa.Program.nextCycle, hnext']
    rfl
  · rw [hcycle]
    exact congrArg (· + 1) h.located.cycle
  · rw [heq]
    exact h.located.callStack
  · rw [heq]
    exact find?_of_getVertex hnext
  · intro x v hx hv
    have hinput : x ∉ ex.wholeProgramInputs := fun hmem => hx ⟨by omega, hmem⟩
    rw [hvaluations, hcycle] at hv
    rw [hinputs]
    dsimp only
    rw [if_neg hinput]
    rcases hvalues x v hinput hv with hv | hv
    · rw [h.stores.fresh x _ (Nat.lt_succ_self _)] at hv
      cases hv
    · exact h.stores.same x v id hv
  · intro x k hk
    rw [hcycle] at hk
    rw [hvaluations, hothers x k (by omega)]
    exact h.stores.fresh x k (by omega)
  · intro hbranch
    rw [hbranch.1] at htype
    cases htype
  · rw [hinputs, hcycle]
    dsimp only
    rw [if_pos hx, h.located.cycle]
  · rw [hvaluations, hothers x _ (by omega)] at hv
    exact h.stores.same x v id hv

/-- Each step of a simulation is one of the execution of its version. -/
theorem Tracks.execute (hp : p.HavocFree)
    (hinputs : (p.version ex.mode).wholeProgramInputs = ex.wholeProgramInputs)
    (h : Tracks ex.mode (fun _ => False) c conf) (hunit : p.main.Reaches c.frame.unit)
    (hc : ex.execute c = .ok c') : ∃ conf', InStep p ex inputs c c' conf conf' := by
  obtain ⟨vertex, hvertex, hc⟩ := bind_eq_ok hc
  have hfind := find?_of_getVertex hvertex
  unfold Executor.handleVertex at hc
  cases htype : vertex.type with
  | entry =>
    rw [htype] at hc
    exact h.entry hunit hfind htype hc
  | exit =>
    rw [htype] at hc
    dsimp only at hc
    cases hkind : c.frame.unit.root.type with
    | program => exact h.programExit hinputs hfind htype hkind hc
    | functionBlock =>
      unfold Executor.handleExitVertex at hc
      rw [hkind] at hc
      exact h.functionBlockExit hfind htype hkind hc
    | function =>
      unfold Executor.handleExitVertex at hc
      rw [hkind] at hc
      obtain ⟨hcontrol, -, -⟩ := proceed_cases hc
      unfold Simulator.handleExitVertex at hcontrol
      rw [hkind] at hcontrol
      cases hcontrol
  | regular =>
    rw [htype] at hc
    cases hinstruction : vertex.instruction with
    | none =>
      rw [hinstruction] at hc
      cases hc
    | some i =>
      rw [hinstruction] at hc
      cases i with
      | assignmentInstruction type r e => exact h.assignment hunit hfind htype hinstruction hc
      | callInstruction called l₁ l₂ => exact h.call hunit hfind htype hinstruction hc
      | ifInstruction e l₁ l₂ => exact h.branch hunit hfind htype hinstruction hc
      | havocInstruction r => exact absurd hinstruction (hp _ _ _ r hunit hfind)
      | whileInstruction e l₁ l₂ => cases hc
      | gotoInstruction l => cases hc

end Steps

end Ahorn.Simulator
