import Ahorn.EtfaEngine

set_option autoImplicit false

/-!
# Runs of a program

The execution of a program on values of its inputs, cycle after cycle. A configuration remembers
the branches that were taken. Whole-program inputs are read when a cycle begins, all other variables
keep their values from one cycle to the next.
-/
namespace Ahorn.Etfa

/-- The side of a branch that was taken, at a label of the unit called under a scope. -/
structure Branch where
  scope : String
  label : ℤ
  taken : Bool
  deriving DecidableEq, Repr

/-- The frame in front of the call stack is the current one. The store holds the flattened variables
under their fully qualified names. -/
structure Configuration where
  cycle : ℕ
  vertex : Vertex
  callStack : List Frame
  store : Valuation
  branches : List Branch

/-- The values of the whole-program inputs in every cycle. -/
abbrev Inputs := ℕ → Valuation

namespace Configuration

/-- The variables as the unit called under a scope sees them. -/
def valuation (conf : Configuration) (scope : String) : Valuation :=
  fun name => conf.store (scope ++ "." ++ name)

def moveTo (vertex : Vertex) (conf : Configuration) : Configuration := { conf with vertex := vertex }

end Configuration

namespace Program

def defaultValue (dataType : DataType) : Value :=
  match dataType.sort with
  | .ok .bool => .bool false
  | _ => .int 0

/-- The value of a flattened variable when the first cycle begins. -/
def initialStore (p : Program) (inputs : Inputs) : Valuation := fun x =>
  if x ∈ p.wholeProgramInputs then inputs 0 x
  else
    match p.main.flattenedInterface.find? x with
    | some v => v.initialization.getD (defaultValue v.dataType)
    | none => .int 0

def start (p : Program) (inputs : Inputs) : Except String Configuration := do
  let vertex ← p.main.getVertex p.main.entryLabel
  .ok {
    cycle := 0
    vertex := vertex
    callStack := [⟨p.main, p.main.name, p.main.entryLabel⟩]
    store := p.initialStore inputs
    branches := [] }

def assign (frame : Frame) (r : VariableReference) (e : Expression) (conf : Configuration) :
    Except String Configuration := do
  let edge ← frame.cfg.getIntraproceduralEdge conf.vertex.label
  let next ← frame.cfg.getVertex edge.targetLabel
  let value := e.eval (conf.valuation frame.scope)
  .ok { conf.moveTo next with
    store := Function.update conf.store (frame.scope ++ "." ++ r.getName) value }

def branch (frame : Frame) (e : Expression) (conf : Configuration) :
    Except String Configuration := do
  let taken := (e.eval (conf.valuation frame.scope)).toBool
  let edge ← frame.cfg.getEdgeOfType (if taken then .trueBranch else .falseBranch) conf.vertex.label
  let next ← frame.cfg.getVertex edge.targetLabel
  .ok { conf.moveTo next with
    branches := conf.branches ++ [⟨frame.scope, conf.vertex.label, taken⟩] }

def enter (p : Program) (frame : Frame) (called : Variable) (conf : Configuration) :
    Except String Configuration := do
  let returnEdge ← frame.cfg.getIntraproceduralCallToReturnEdge conf.vertex.label
  let callEdge ← frame.cfg.getInterproceduralCallEdge conf.vertex.label
  match called.dataType with
  | .derivedType typeName =>
    match p.getCfg typeName with
    | some callee =>
      let next ← callee.getVertex callEdge.targetLabel
      .ok { conf.moveTo next with
        callStack :=
          ⟨callee, frame.scope ++ "." ++ called.name, returnEdge.targetLabel⟩ :: conf.callStack }
    | none => .error "no such unit"
  | _ => .error "not an instance"

def nextCycle (p : Program) (inputs : Inputs) (frame : Frame) (conf : Configuration) :
    Except String Configuration := do
  let next ← frame.cfg.getVertex frame.returnLabel
  .ok { conf.moveTo next with
    cycle := conf.cycle + 1
    store := fun x =>
      if x ∈ p.wholeProgramInputs then inputs (conf.cycle + 1) x else conf.store x }

def leave (frame : Frame) (frames : List Frame) (conf : Configuration) :
    Except String Configuration := do
  match frames with
  | caller :: _ =>
    let next ← caller.cfg.getVertex frame.returnLabel
    .ok { conf.moveTo next with callStack := frames }
  | [] => .error "no caller"

def stepIn (p : Program) (inputs : Inputs) (frame : Frame) (frames : List Frame)
    (conf : Configuration) : Except String Configuration :=
  match conf.vertex.type with
  | .entry => do
    let next ← frame.cfg.getOnlySuccessor conf.vertex.label
    .ok (conf.moveTo next)
  | .regular =>
    match conf.vertex.instruction with
    | none => do
      let next ← frame.cfg.getOnlySuccessor conf.vertex.label
      .ok (conf.moveTo next)
    | some (.assignmentInstruction _ r e) => assign frame r e conf
    | some (.callInstruction called _ _) => p.enter frame called conf
    | some (.ifInstruction e _ _) => branch frame e conf
    | _ => .error "no loop-free deterministic instruction"
  | .exit =>
    match frame.cfg.type with
    | .program => p.nextCycle inputs frame conf
    | .functionBlock => leave frame frames conf
    | .function => .error "no function block"

def step (p : Program) (inputs : Inputs) (conf : Configuration) : Except String Configuration :=
  match conf.callStack with
  | frame :: frames => p.stepIn inputs frame frames conf
  | [] => .error "no frame"

def Runs (p : Program) (inputs : Inputs) : Configuration → Configuration → Prop :=
  Relation.ReflTransGen fun conf conf' => p.step inputs conf = .ok conf'

/-- Branches are only added. -/
theorem step_branches {p : Program} {inputs : Inputs} {conf conf' : Configuration}
    (h : p.step inputs conf = .ok conf') :
    conf.branches <+: conf'.branches := by
  unfold step at h
  split at h
  · rename_i frame frames _
    unfold stepIn at h
    split at h
    · obtain ⟨_, -, h⟩ := bind_eq_ok h
      cases h
      exact List.prefix_rfl
    · split at h
      · obtain ⟨_, -, h⟩ := bind_eq_ok h
        cases h
        exact List.prefix_rfl
      · obtain ⟨_, -, h⟩ := bind_eq_ok h
        obtain ⟨_, -, h⟩ := bind_eq_ok h
        cases h
        exact List.prefix_rfl
      · unfold enter at h
        obtain ⟨_, -, h⟩ := bind_eq_ok h
        obtain ⟨_, -, h⟩ := bind_eq_ok h
        split at h
        · split at h
          · obtain ⟨_, -, h⟩ := bind_eq_ok h
            cases h
            exact List.prefix_rfl
          · cases h
        · cases h
      · obtain ⟨_, -, h⟩ := bind_eq_ok h
        obtain ⟨_, -, h⟩ := bind_eq_ok h
        cases h
        exact List.prefix_append _ _
      · cases h
    · split at h
      · obtain ⟨_, -, h⟩ := bind_eq_ok h
        cases h
        exact List.prefix_rfl
      · unfold leave at h
        split at h
        · obtain ⟨_, -, h⟩ := bind_eq_ok h
          cases h
          exact List.prefix_rfl
        · cases h
      · cases h
  · cases h

theorem runs_branches {p : Program} {inputs : Inputs} {conf conf' : Configuration}
    (h : p.Runs inputs conf conf') :
    conf.branches <+: conf'.branches := by
  induction h with
  | refl => exact List.prefix_rfl
  | tail _ hstep ih => exact ih.trans (step_branches hstep)

theorem runs_cases {p : Program} {inputs : Inputs} {conf conf₁ conf' : Configuration}
    (h : p.Runs inputs conf conf')
    (hstep : p.step inputs conf = .ok conf₁) : conf' = conf ∨ p.Runs inputs conf₁ conf' := by
  rcases h.cases_head with rfl | ⟨conf₂, hstep₂, hrest⟩
  · exact Or.inl rfl
  · rw [hstep] at hstep₂
    cases hstep₂
    exact Or.inr hrest

end Program

end Ahorn.Etfa
