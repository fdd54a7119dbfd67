import Mathlib.Algebra.Ring.Nat
import Ahorn.EtfaEngine
import Ahorn.PartialModels
import Ahorn.ProgramRuns

set_option autoImplicit false

/-!
# Test cases of the merging engine

A branch that is covered for the first time gives a test case: the initial values of the state
variables, and the values of the whole-program inputs in every cycle so far, as a model of the
context has them.
-/
namespace Ahorn.Etfa

structure TestCase where
  initialConcreteStateValuations : OrderedMap String Value
  cycleToConcreteInputValuations : OrderedMap ℕ (OrderedMap String Value)
  deriving DecidableEq

namespace UnitCfg

def inputVariables (cfg : UnitCfg) : List String :=
  (cfg.interface.filter (·.storageType = .input)).map fun v => cfg.name ++ "." ++ v.name

def stateVariables (cfg : UnitCfg) : List String :=
  cfg.flattenedInterface.keys.filter fun x => x ∉ inputVariables cfg

end UnitCfg

namespace Context

def getMainFrame (c : Context) : Except String Frame :=
  match c.callStack.getLast? with
  | some frame => .ok frame
  | none => .error "assertion failed"

/-- The path constraint, and the symbolic valuations as equations. -/
def expressions (c : Context) : List (Term String .bool) :=
  c.state.pathConstraint ++ c.state.symbolicValuations.entries.map Executor.equation

end Context

namespace TestSuite

/-- The interpretations of a model under the names of their constants. -/
def concreteValuations : PartialModel String → OrderedMap String Value →
    Except String (OrderedMap String Value)
  | [], valuations => .ok valuations
  | i :: model, valuations =>
    match valuations.find? i.name with
    | none => concreteValuations model (valuations.emplace i.name (i.sort.value i.value))
    | some _ => .error "Can not write concrete valuation twice."

/-- The values that variables have at version 0 in a cycle. -/
def lowestValues (valuations : OrderedMap String Value) (cycle : ℕ) :
    List String → Except String (OrderedMap String Value)
  | [] => .ok .empty
  | flattenedName :: flattenedNames => do
    match valuations.find? (contextualized flattenedName 0 cycle) with
    | none => .error "map::at"
    | some value =>
      let values ← lowestValues valuations cycle flattenedNames
      .ok (values.emplace flattenedName value)

def inputValues (valuations : OrderedMap String Value) (flattenedNames : List String) :
    List ℕ → Except String (OrderedMap ℕ (OrderedMap String Value))
  | [] => .ok .empty
  | cycle :: cycles => do
    let values ← lowestValues valuations cycle flattenedNames
    let rest ← inputValues valuations flattenedNames cycles
    .ok (rest.emplace cycle values)

def testCaseOf (finder : ModelFinder String) (c : Context) : Except String TestCase := do
  let frame ← c.getMainFrame
  match finder.find c.expressions with
  | none => .error "assertion failed: result.first == z3::sat"
  | some model =>
    let valuations ← concreteValuations model .empty
    let initial ← lowestValues valuations 0 (UnitCfg.stateVariables frame.cfg)
    let inputs ← inputValues valuations (UnitCfg.inputVariables frame.cfg) (List.range (c.cycle + 1))
    .ok ⟨initial, inputs⟩

/-- A test case that is already in the suite is skipped. Test cases of a program have values for the
same names, so they are compared as they are. -/
def deriveTestCase (finder : ModelFinder String) (testCases : List TestCase) (c : Context) :
    Except String (List TestCase) := do
  let testCase ← testCaseOf finder c
  .ok (if testCase ∈ testCases then testCases else testCases ++ [testCase])

end TestSuite

/-- What the exploration has covered: the labels of vertices, and both sides of the branches. -/
structure Coverage where
  coveredStatements : OrderedMap ℤ Bool
  coveredBranches : OrderedMap ℤ (Bool × Bool)

namespace Coverage

/-- Cover the side of a branch that leads to the succeeding label. -/
def coverEdges (label succeedingLabel : ℤ) :
    List Edge → OrderedMap ℤ (Bool × Bool) → Except String (OrderedMap ℤ (Bool × Bool))
  | [], branches => .ok branches
  | edge :: edges, branches =>
    if edge.targetLabel = succeedingLabel ∧ (edge.type = .trueBranch ∨ edge.type = .falseBranch) then
      match branches.find? label with
      | none => .error "map::at"
      | some sides =>
        coverEdges label succeedingLabel edges (branches.assign label
          (if edge.type = .trueBranch then (true, sides.2) else (sides.1, true)))
    else coverEdges label succeedingLabel edges branches

def countStatements (coverage : Coverage) : ℕ :=
  (coverage.coveredStatements.entries.map fun e => e.2.toNat).sum

def countBranches (coverage : Coverage) : ℕ :=
  (coverage.coveredBranches.entries.map fun e => e.2.1.toNat + e.2.2.toNat).sum

/-- The new coverage, and whether the share of the covered statements and that of the covered
branches have grown. -/
def update (cfg : Cfg) (label succeedingLabel : ℤ) (coverage : Coverage) :
    Except String (Coverage × Bool × Bool) := do
  match coverage.coveredStatements.find? label with
  | none => .error "map::at"
  | some _ =>
    let branches ← coverEdges label succeedingLabel (cfg.getOutgoingEdges label)
      coverage.coveredBranches
    let updated : Coverage := ⟨coverage.coveredStatements.assign label true, branches⟩
    .ok (updated, coverage.countStatements < updated.countStatements,
      coverage.countBranches < updated.countBranches)

/-- One side of a branch. -/
def Covers (coverage : Coverage) (label : ℤ) (taken : Bool) : Prop :=
  ∃ sides, coverage.coveredBranches.find? label = some sides ∧
    (if taken then sides.1 else sides.2) = true

end Coverage

/-- The coverage and the test suite of the engine. -/
structure Testing where
  coverage : Coverage
  testCases : List TestCase

namespace Testing

def coverSucceeding (finder : ModelFinder String) (label : ℤ) (c : Context) (testing : Testing) :
    Except String Testing := do
  let frame ← c.getFrame
  let (coverage, _, increased) ←
    testing.coverage.update frame.cfg.toCfg label c.state.vertex.label
  if increased then
    let testCases ← TestSuite.deriveTestCase finder testing.testCases c
    .ok ⟨coverage, testCases⟩
  else .ok ⟨coverage, testing.testCases⟩

/-- The label an assumption literal is named after: the number behind the first underscore, once the
prefix is cut off. -/
def summarizedLabel (assumptionLiteral : String) : Except String ℕ :=
  let name := assumptionLiteral.toList.drop 2
  if '_' ∈ name then stoi ((name.dropWhile (· ≠ '_')).drop 1) else stoi name

/-- What the executor does with a context a summary has been applied to, from the given label on.
The label is passed on to the next summary. -/
def coverSummarized (finder : ModelFinder String) (callee : UnitCfg) (returnLabel : ℤ)
    (c : Context) : List String → ℤ × Testing → Except String (ℤ × Testing)
  | [], (label, testing) => do
    let (coverage, _) ← testing.coverage.update callee.toCfg label returnLabel
    .ok (label, { testing with coverage := coverage })
  | assumptionLiteral :: assumptionLiterals, (label, testing) => do
    let next ← summarizedLabel assumptionLiteral
    let (coverage, _, increased) ← testing.coverage.update callee.toCfg label next
    if increased then
      let testCases ← TestSuite.deriveTestCase finder testing.testCases c
      coverSummarized finder callee returnLabel c assumptionLiterals (next, ⟨coverage, testCases⟩)
    else
      coverSummarized finder callee returnLabel c assumptionLiterals
        (next, { testing with coverage := coverage })

end Testing

end Ahorn.Etfa
