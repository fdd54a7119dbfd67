import Ahorn.EtfaTestSuite
import Ahorn.Evaluator
import Ahorn.ShadowSimulation

set_option autoImplicit false

/-!
# The executor of the simulator

The simulator executes a program on concrete values. Every flattened variable has a value in each
cycle that has begun, under its name in the cycle; a change expression has the value of the operand
of the version that is simulated.
-/
namespace Ahorn.Simulator

/-- Which operand of a change expression counts. -/
inductive ShadowProcessingMode where
  | none | old | new
  deriving DecidableEq, Repr

namespace Evaluator

open Ahorn.Evaluator (evaluateComparison evaluateConnective evaluateEquality)

def evaluateArithmetic (f : Int → Int → Int) : Value → Value → Except String Value
  | .int l, .int r => .ok (.int (f l r))
  | _, _ => .error "assertion failed"

def evaluateBinary (op : BinaryOperator) (l r : Value) : Except String Value :=
  match op with
  | .greaterThanOrEqualTo => evaluateComparison .ge l r
  | .add => evaluateArithmetic (· + ·) l r
  | .equality => do
    let b ← evaluateEquality l r
    .ok (.bool b)
  | .booleanAnd => evaluateConnective .and l r
  | .booleanOr => evaluateConnective .or l r
  | .subtract => evaluateArithmetic (· - ·) l r
  | .lessThan => evaluateComparison .lt l r
  | .greaterThan => evaluateComparison .gt l r
  | .exponentiation | .multiply | .divide | .modulo | .lessThanOrEqualTo | .inequality
  | .booleanExclusiveOr => .error "Unexpected binary operator encountered."

def evaluate (mode : ShadowProcessingMode) (access : VariableReference → Except String Value) :
    Expression → Except String Value
  | .booleanConstant b => .ok (.bool b)
  | .integerConstant i => .ok (.int i)
  | .timeConstant t => .ok (.int t)
  | .enumeratedValue i => .ok (.int i)
  | .reference r => access r
  | .unary op e => do
    let v ← evaluate mode access e
    Ahorn.Evaluator.evaluateUnary op v
  | .binary op l r => do
    let l ← evaluate mode access l
    let r ← evaluate mode access r
    evaluateBinary op l r
  | .change old new =>
    match mode with
    | .none => .error "ChangeExpression encountered while shadow processing mode is set to none!"
    | .old => evaluate mode access old
    | .new => evaluate mode access new
  | .nondeterministicConstant _ | .booleanToInteger _ | .integerToBoolean _ =>
    .error "Not implemented yet."

end Evaluator

def contextualizedName (flattenedName : String) (cycle : ℕ) : String :=
  flattenedName ++ "__" ++ toString cycle

/-- The random value of a type, of a sequence of numbers of which some have been drawn. -/
def makeRandomValue (random : ℕ → ℤ) (drawn : ℕ) : DataType → Except String (Value × ℕ)
  | .int | .time => .ok (.int (random drawn), drawn + 1)
  | .bool => .ok (.bool (random drawn ≠ 0), drawn + 1)
  | .safeBool => .ok (.bool false, drawn)
  | .real => .error "Unsupported elementary type."
  | .enumeratedType _ | .derivedType _ | .simpleType _ | .inconclusiveType =>
    .error "Unsupported data type."

/-- A context with its concrete valuations, and how many random values have been drawn. -/
structure ValuedContext extends Context where
  concreteValuations : OrderedMap String Value
  drawn : ℕ

namespace ValuedContext

def getConcreteValuation (name : String) (c : ValuedContext) : Except String Value :=
  match c.concreteValuations.find? name with
  | some v => .ok v
  | none => .error "assertion failed"

def setConcreteValuation (name : String) (value : Value) (c : ValuedContext) :
    Except String ValuedContext :=
  match c.concreteValuations.find? name with
  | some _ => .error "assertion failed"
  | none => .ok { c with concreteValuations := c.concreteValuations.emplace name value }

def updateConcreteValuation (name : String) (value : Value) (c : ValuedContext) :
    Except String ValuedContext :=
  match c.concreteValuations.find? name with
  | some _ => .ok { c with concreteValuations := c.concreteValuations.assign name value }
  | none => .error "Concrete valuation not found."

/-- The name of what the current frame refers to, in the current cycle. -/
def nameOf (c : ValuedContext) (r : VariableReference) : String :=
  contextualizedName (c.frame.scope ++ "." ++ r.getName) c.cycle

def evaluate (mode : ShadowProcessingMode) (e : Expression) (c : ValuedContext) :
    Except String Value :=
  Evaluator.evaluate mode (fun r => c.getConcreteValuation (c.nameOf r)) e

def proceed (f : Context → Except String Context) (c : ValuedContext) : Except String ValuedContext := do
  let context ← f c.toContext
  .ok { c with toContext := context }

end ValuedContext

def followEdge (c : Context) : Except String Context := do
  let edge ← c.frame.cfg.getIntraproceduralEdge c.label
  c.moveTo edge.targetLabel

/-- How the simulator executes: the version it follows, its random numbers and the inputs of the
program. -/
structure Executor where
  mode : ShadowProcessingMode
  random : ℕ → ℤ
  wholeProgramInputs : List String

namespace Executor

variable (ex : Executor)

def visitAssignment (r : VariableReference) (e : Expression) (c : ValuedContext) :
    Except String ValuedContext := do
  let value ← c.evaluate ex.mode e
  let c ← c.updateConcreteValuation (c.nameOf r) value
  c.proceed followEdge

def visitHavoc (r : VariableReference) (c : ValuedContext) : Except String ValuedContext := do
  let (value, drawn) ← makeRandomValue ex.random c.drawn r.getVariable.dataType
  let c ← ({ c with drawn := drawn } : ValuedContext).updateConcreteValuation (c.nameOf r) value
  c.proceed followEdge

def visitIf (e : Expression) (c : ValuedContext) : Except String ValuedContext := do
  let value ← c.evaluate ex.mode e
  match value with
  | .bool condition => c.proceed (Simulator.visitIf condition)
  | .int _ => .error "assertion failed"

def visit (c : ValuedContext) : Instruction → Except String ValuedContext
  | .assignmentInstruction _ r e => ex.visitAssignment r e c
  | .callInstruction called _ _ => c.proceed (Simulator.visitCall called)
  | .ifInstruction e _ _ => ex.visitIf e c
  | .havocInstruction r => ex.visitHavoc r c
  | .whileInstruction _ _ _ | .gotoInstruction _ => .error "Not implemented yet."

/-- The values of the flattened variables in the next cycle. Those of the inputs are random until
the engine replaces them. -/
def prepareCycle : List (String × Variable) → ValuedContext → Except String ValuedContext
  | [], c => .ok c
  | (flattenedName, flattened) :: entries, c => do
    if flattenedName ∈ ex.wholeProgramInputs then
      let (value, drawn) ← makeRandomValue ex.random c.drawn flattened.dataType
      let c ← ({ c with drawn := drawn } : ValuedContext).setConcreteValuation
        (contextualizedName flattenedName (c.cycle + 1)) value
      prepareCycle entries c
    else
      let value ← c.getConcreteValuation (contextualizedName flattenedName c.cycle)
      let c ← c.setConcreteValuation (contextualizedName flattenedName (c.cycle + 1)) value
      prepareCycle entries c

def handleExitVertex (c : ValuedContext) : Except String ValuedContext :=
  match c.frame.unit.root.type with
  | .program => do
    let c ← ex.prepareCycle c.frame.unit.root.flattenedInterface.entries c
    c.proceed Simulator.handleExitVertex
  | _ => c.proceed Simulator.handleExitVertex

def handleVertex (c : ValuedContext) (vertex : Vertex) : Except String ValuedContext :=
  match vertex.type with
  | .entry => c.proceed Simulator.handleEntryVertex
  | .regular =>
    match vertex.instruction with
    | none => .error "assertion failed: instruction != nullptr"
    | some i => ex.visit c i
  | .exit => ex.handleExitVertex c

def execute (c : ValuedContext) : Except String ValuedContext := do
  let vertex ← c.frame.cfg.getVertex c.label
  ex.handleVertex c vertex

end Executor

theorem contextualizedName_injective {x y : String} {k n : ℕ}
    (h : contextualizedName x k = contextualizedName y n) : x = y ∧ k = n := by
  have hversioned : ∀ z m, contextualizedName z m = versioned (z ++ "_") m := by
    intro z m
    apply String.toList_injective
    simp [contextualizedName, versioned]
  rw [hversioned, hversioned] at h
  obtain ⟨hxy, hkn⟩ := versioned_injective h
  exact ⟨String.append_left_inj _ |>.mp hxy, hkn⟩

section Valuations

variable {c c' : ValuedContext} {name : String} {value : Value}

theorem find?_of_get (h : c.getConcreteValuation name = .ok value) :
    c.concreteValuations.find? name = some value := by
  unfold ValuedContext.getConcreteValuation at h
  cases hfind : c.concreteValuations.find? name with
  | none =>
    rw [hfind] at h
    cases h
  | some v =>
    rw [hfind] at h
    cases h
    rfl

theorem set_cases (h : c.setConcreteValuation name value = .ok c') :
    c.concreteValuations.find? name = none ∧
      c' = { c with concreteValuations := c.concreteValuations.emplace name value } := by
  unfold ValuedContext.setConcreteValuation at h
  cases hfind : c.concreteValuations.find? name with
  | some v =>
    rw [hfind] at h
    cases h
  | none =>
    rw [hfind] at h
    exact ⟨rfl, (Except.ok.inj h).symm⟩

theorem update_cases (h : c.updateConcreteValuation name value = .ok c') :
    (c.concreteValuations.find? name).isSome = true ∧
      c' = { c with concreteValuations := c.concreteValuations.assign name value } := by
  unfold ValuedContext.updateConcreteValuation at h
  cases hfind : c.concreteValuations.find? name with
  | none =>
    rw [hfind] at h
    cases h
  | some v =>
    rw [hfind] at h
    exact ⟨rfl, (Except.ok.inj h).symm⟩

theorem proceed_cases {f : Context → Except String Context} (h : c.proceed f = .ok c') :
    f c.toContext = .ok c'.toContext ∧ c'.concreteValuations = c.concreteValuations ∧
      c'.drawn = c.drawn := by
  obtain ⟨context, hcontext, h⟩ := bind_eq_ok h
  cases h
  exact ⟨hcontext, rfl, rfl⟩

end Valuations

namespace Executor

variable {ex : Executor} {c c' : ValuedContext}

theorem prepareCycle_control {entries : List (String × Variable)}
    (h : ex.prepareCycle entries c = .ok c') : c'.toContext = c.toContext := by
  induction entries generalizing c with
  | nil =>
    cases h
    rfl
  | cons e entries ih =>
    unfold prepareCycle at h
    by_cases hinput : e.1 ∈ ex.wholeProgramInputs
    · rw [if_pos hinput] at h
      obtain ⟨⟨value, drawn⟩, -, h⟩ := bind_eq_ok h
      obtain ⟨c₁, hset, h⟩ := bind_eq_ok h
      rw [ih h, (set_cases hset).2]
    · rw [if_neg hinput] at h
      obtain ⟨value, -, h⟩ := bind_eq_ok h
      obtain ⟨c₁, hset, h⟩ := bind_eq_ok h
      rw [ih h, (set_cases hset).2]

/-- The control of a step is that of a simulation whose condition is the value of the branch. -/
theorem execute_control (h : ex.execute c = .ok c') :
    ∃ condition, Simulator.execute condition c.toContext = .ok c'.toContext := by
  obtain ⟨vertex, hvertex, h⟩ := bind_eq_ok h
  have hcontrol : ∀ condition, Simulator.execute condition c.toContext =
      Simulator.handleVertex condition c.toContext vertex := by
    intro condition
    unfold Simulator.execute
    rw [hvertex]
    rfl
  unfold handleVertex at h
  cases htype : vertex.type with
  | entry =>
    rw [htype] at h
    refine ⟨true, ?_⟩
    rw [hcontrol, Simulator.handleVertex, htype]
    exact (proceed_cases h).1
  | exit =>
    rw [htype] at h
    refine ⟨true, ?_⟩
    rw [hcontrol, Simulator.handleVertex, htype]
    dsimp only at h
    unfold handleExitVertex at h
    cases hunit : c.frame.unit.root.type with
    | program =>
      rw [hunit] at h
      obtain ⟨c₁, hprepare, h⟩ := bind_eq_ok h
      have hexit := (proceed_cases h).1
      rw [prepareCycle_control hprepare] at hexit
      exact hexit
    | functionBlock =>
      rw [hunit] at h
      exact (proceed_cases h).1
    | function =>
      rw [hunit] at h
      exact (proceed_cases h).1
  | regular =>
    rw [htype] at h
    cases hinstruction : vertex.instruction with
    | none =>
      rw [hinstruction] at h
      cases h
    | some i =>
      rw [hinstruction] at h
      have hvisit : ∀ condition, Simulator.handleVertex condition c.toContext vertex =
          Simulator.visit condition c.toContext i := by
        intro condition
        rw [Simulator.handleVertex, htype, hinstruction]
      cases i with
      | assignmentInstruction type r e =>
        refine ⟨true, ?_⟩
        rw [hcontrol, hvisit]
        obtain ⟨value, -, h⟩ := bind_eq_ok h
        obtain ⟨c₁, hupdate, h⟩ := bind_eq_ok h
        have hnext := (proceed_cases h).1
        rw [(update_cases hupdate).2] at hnext
        exact hnext
      | callInstruction called l₁ l₂ =>
        refine ⟨true, ?_⟩
        rw [hcontrol, hvisit]
        exact (proceed_cases h).1
      | ifInstruction e l₁ l₂ =>
        obtain ⟨value, -, h⟩ := bind_eq_ok h
        cases value with
        | int i => cases h
        | bool condition =>
          refine ⟨condition, ?_⟩
          rw [hcontrol, hvisit]
          exact (proceed_cases h).1
      | havocInstruction r =>
        refine ⟨true, ?_⟩
        rw [hcontrol, hvisit]
        obtain ⟨⟨value, drawn⟩, -, h⟩ := bind_eq_ok h
        obtain ⟨c₁, hupdate, h⟩ := bind_eq_ok h
        have hnext := (proceed_cases h).1
        rw [(update_cases hupdate).2] at hnext
        exact hnext
      | whileInstruction e l₁ l₂ => cases h
      | gotoInstruction l => cases h

end Executor

end Ahorn.Simulator
