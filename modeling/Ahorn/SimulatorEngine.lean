import Ahorn.Loops
import Ahorn.ShadowCoverage
import Ahorn.SimulatorExecutor

set_option autoImplicit false

/-!
# The engine of the simulator

The engine simulates the cycles of a test case one after the other. It either records the labels on
the way and the values of the state variables at the end of the cycles, or it simulates a whole
suite and keeps the coverage.
-/
namespace Ahorn.Simulator

open Etfa (Coverage TestCase UnitCfg.inputVariables)

def makeDefaultValue : DataType → Except String Value
  | .int | .time | .enumeratedType _ => .ok (.int 0)
  | .bool | .safeBool => .ok (.bool false)
  | .real => .error "Unsupported elementary type."
  | .derivedType _ | .simpleType _ | .inconclusiveType => .error "Unsupported data type."

/-- The constants of times and of enumerated types are not supported. -/
def makeValue (dataType : DataType) (value : Value) : Except String Value :=
  match dataType with
  | .time | .enumeratedType _ => .error "Not implemented yet."
  | _ => .ok value

/-- The context of a simulation, and the coverage of the explorer. -/
structure Simulation where
  context : ValuedContext
  coverage : Coverage

structure RecordedSimulation extends Simulation where
  history : History

/-- What an engine simulates, and how. -/
structure Engine where
  main : CallTree UnitCfg
  mode : ShadowProcessingMode
  random : ℕ → ℤ

namespace Engine

variable (g : Engine)

def executor : Executor := ⟨g.mode, g.random, UnitCfg.inputVariables g.main.root⟩

def flattened : List (String × Variable) := g.main.root.flattenedInterface.entries

/-- The state variables: the flattened variables that are no inputs of the program. -/
def stateVariables : List String := Etfa.UnitCfg.stateVariables g.main.root

def initialValuation (initial : OrderedMap String Value) (flattenedName : String)
    (flattened : Variable) : Except String Value :=
  if flattenedName ∈ g.executor.wholeProgramInputs then
    match flattened.initialization with
    | some value => makeValue flattened.dataType value
    | none => makeDefaultValue flattened.dataType
  else
    match initial.find? flattenedName with
    | some value => .ok value
    | none => .error "map::at"

def initialValuations (initial : OrderedMap String Value) :
    List (String × Variable) → OrderedMap String Value → Except String (OrderedMap String Value)
  | [], valuations => .ok valuations
  | (flattenedName, flattened) :: entries, valuations => do
    let value ← g.initialValuation initial flattenedName flattened
    initialValuations initial entries
      (valuations.emplace (contextualizedName flattenedName 0) value)

/-- The program stands at its entry in the first cycle. -/
def initialContext : Context :=
  ⟨0, g.main.root.entryLabel, ⟨g.main, g.main.name, g.main.root.entryLabel⟩, []⟩

def initializeFromConcreteValuation (initial : OrderedMap String Value) (drawn : ℕ) :
    Except String ValuedContext := do
  let _ ← g.main.root.getVertex g.main.root.entryLabel
  let valuations ← g.initialValuations initial g.flattened .empty
  .ok ⟨g.initialContext, valuations, drawn⟩

def initializeExplorer : Except String Coverage := do
  let (_, coverage) ← Explorer.initializeCoverage g.main ([], ⟨.empty, .empty⟩)
  .ok coverage

def updateInputs (cycle : ℕ) : List (String × Value) → ValuedContext → Except String ValuedContext
  | [], c => .ok c
  | (flattenedName, value) :: valuations, c => do
    let c ← c.updateConcreteValuation (contextualizedName flattenedName cycle) value
    updateInputs cycle valuations c

def advance (s : Simulation) : Except String Simulation := do
  let context ← g.executor.execute s.context
  let (coverage, _) ← s.coverage.update context.frame.cfg s.context.label context.label
  .ok ⟨context, coverage⟩

def advanceRecording (s : RecordedSimulation) : Except String RecordedSimulation := do
  let simulation ← g.advance s.toSimulation
  .ok ⟨simulation, record s.history s.context.toContext⟩

def exhausted : String := "out of fuel"

def step (fuel cycle : ℕ) (s : Simulation) : Except String Simulation :=
  Loop.run exhausted (fun s => s.context.cycle = cycle) g.advance fuel s

def stepRecording (fuel cycle : ℕ) (s : RecordedSimulation) : Except String RecordedSimulation :=
  Loop.run exhausted (fun s => s.context.cycle = cycle) g.advanceRecording fuel s

def stateValuations (cycle : ℕ) (c : ValuedContext) :
    List String → Except String (OrderedMap String Value)
  | [] => .ok .empty
  | flattenedName :: flattenedNames => do
    let value ← c.getConcreteValuation (contextualizedName flattenedName cycle)
    let valuations ← stateValuations cycle c flattenedNames
    .ok (valuations.emplace flattenedName value)

/-- A simulation on the way: the cycle of the engine, and the values of the state variables at the
ends of the cycles so far. -/
structure Recording where
  cycle : ℕ
  simulation : RecordedSimulation
  cycleToConcreteStateValuations : OrderedMap ℕ (OrderedMap String Value)

def recordCycle (fuel : ℕ) (r : Recording) (input : ℕ × OrderedMap String Value) :
    Except String Recording := do
  let context ← updateInputs input.1 input.2.entries r.simulation.context
  let simulation ← g.stepRecording fuel r.cycle { r.simulation with context := context }
  let valuations ← stateValuations input.1 simulation.context g.stateVariables
  .ok ⟨r.cycle + 1, simulation, r.cycleToConcreteStateValuations.emplace input.1 valuations⟩

/-- The execution history of a test case, and the values of the state variables at the ends of its
cycles. -/
def run (fuel : ℕ) (t : TestCase) :
    Except String (History × OrderedMap ℕ (OrderedMap String Value)) :=
  if t.initialConcreteStateValuations.entries = [] then .error "assertion failed"
  else do
    let coverage ← g.initializeExplorer
    let context ← g.initializeFromConcreteValuation t.initialConcreteStateValuations 0
    if t.cycleToConcreteInputValuations.entries = [] then .error "assertion failed"
    else do
      let r ← t.cycleToConcreteInputValuations.entries.foldlM (g.recordCycle fuel)
        ⟨0, ⟨⟨context, coverage⟩, .empty⟩, .empty⟩
      .ok (r.simulation.history, r.cycleToConcreteStateValuations)

/-- Simulate a cycle of a test case of a suite. -/
def simulateCycle (fuel : ℕ) (s : ℕ × Simulation) (input : ℕ × OrderedMap String Value) :
    Except String (ℕ × Simulation) := do
  let context ← updateInputs input.1 input.2.entries s.2.context
  let simulation ← g.step fuel s.1 { s.2 with context := context }
  .ok (s.1 + 1, simulation)

def runTestCase (fuel : ℕ) (s : Coverage × ℕ) (t : TestCase) : Except String (Coverage × ℕ) := do
  let context ← g.initializeFromConcreteValuation t.initialConcreteStateValuations s.2
  let s ← t.cycleToConcreteInputValuations.entries.foldlM (g.simulateCycle fuel) (0, ⟨context, s.1⟩)
  .ok (s.2.coverage, s.2.context.drawn)

def runTestCases (fuel : ℕ) (testCases : List TestCase) : Except String Coverage := do
  let coverage ← g.initializeExplorer
  let (coverage, _) ← testCases.foldlM (g.runTestCase fuel) (coverage, 0)
  .ok coverage

variable {g} {fuel : ℕ} {t : TestCase} {history : History}
  {valuations : OrderedMap ℕ (OrderedMap String Value)}

theorem run_cases (h : g.run fuel t = .ok (history, valuations)) :
    t.initialConcreteStateValuations.entries ≠ [] ∧ t.cycleToConcreteInputValuations.entries ≠ [] ∧
      ∃ coverage context r, g.initializeExplorer = .ok coverage ∧
        g.initializeFromConcreteValuation t.initialConcreteStateValuations 0 = .ok context ∧
        t.cycleToConcreteInputValuations.entries.foldlM (g.recordCycle fuel)
          ⟨0, ⟨⟨context, coverage⟩, .empty⟩, .empty⟩ = .ok r ∧
        r.simulation.history = history ∧ r.cycleToConcreteStateValuations = valuations := by
  unfold run at h
  by_cases hinitial : t.initialConcreteStateValuations.entries = []
  · rw [if_pos hinitial] at h
    cases h
  · rw [if_neg hinitial] at h
    obtain ⟨coverage, hcoverage, h⟩ := bind_eq_ok h
    obtain ⟨context, hcontext, h⟩ := bind_eq_ok h
    by_cases hinputs : t.cycleToConcreteInputValuations.entries = []
    · rw [if_pos hinputs] at h
      cases h
    · rw [if_neg hinputs] at h
      obtain ⟨r, hr, h⟩ := bind_eq_ok h
      cases h
      exact ⟨hinitial, hinputs, coverage, context, r, hcoverage, hcontext, hr, rfl, rfl⟩

theorem run_of_cases {coverage : Coverage} {context : ValuedContext} {r : Recording}
    (hinitial : t.initialConcreteStateValuations.entries ≠ [])
    (hinputs : t.cycleToConcreteInputValuations.entries ≠ [])
    (hcoverage : g.initializeExplorer = .ok coverage)
    (hcontext : g.initializeFromConcreteValuation t.initialConcreteStateValuations 0 = .ok context)
    (hr : t.cycleToConcreteInputValuations.entries.foldlM (g.recordCycle fuel)
      ⟨0, ⟨⟨context, coverage⟩, .empty⟩, .empty⟩ = .ok r) :
    g.run fuel t = .ok (r.simulation.history, r.cycleToConcreteStateValuations) := by
  unfold run
  rw [if_neg hinitial, hcoverage, hcontext]
  dsimp only [bind, Except.bind]
  rw [if_neg hinputs, hr]

theorem initializeFromConcreteValuation_context {initial : OrderedMap String Value} {drawn : ℕ}
    {c : ValuedContext} (h : g.initializeFromConcreteValuation initial drawn = .ok c) :
    c.toContext = g.initialContext := by
  obtain ⟨_, -, h⟩ := bind_eq_ok h
  obtain ⟨valuations, -, h⟩ := bind_eq_ok h
  cases h
  rfl

theorem placed_initialContext : Placed g.main g.initialContext := by
  refine ⟨fun f hf => ?_, .singleton _⟩
  rw [List.mem_singleton.mp hf]
  exact .refl

end Engine

end Ahorn.Simulator
