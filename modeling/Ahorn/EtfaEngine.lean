import Ahorn.EtfaMerger

set_option autoImplicit false

/-!
# The engine of the symbolic execution

The engine explores a cycle until no context is left and then merges at one merge point after the
other; the context that leaves the exit of the program starts the next cycle.
-/
namespace Ahorn.Etfa

/-- The contexts still to be explored, those waiting at merge points in the order of their arrival,
and the one that has left the program. -/
structure Engine where
  cycle : ℕ := 0
  versions : Versions
  explorer : List Context := []
  merger : List Context := []
  succeedingCycle : Option Context := none

/-- A program: its main unit, the other units by the name of their type, and how deep instances are
nested. -/
structure Program where
  main : UnitCfg
  getCfg : String → Option UnitCfg
  nesting : ℕ

namespace Program

def wholeProgramInputs (p : Program) : List String :=
  (p.main.interface.filter (·.storageType = .input)).map fun v => p.main.name ++ "." ++ v.name

def mergePoints (p : Program) : List MergePoint :=
  Merger.initializeMergePoints p.getCfg p.nesting p.main p.main.name 1 p.main.entryLabel

end Program

namespace Engine

def makeDefaultValue (dataType : DataType) : Except String (SortedTerm String) := do
  match ← dataType.sort with
  | .int => .ok ⟨.int, .integerValue 0⟩
  | .bool => .ok ⟨.bool, .booleanValue false⟩

def makeValue : Value → SortedTerm String
  | .bool b => ⟨.bool, .booleanValue b⟩
  | .int i => ⟨.int, .integerValue i⟩

/-- Version 0 of a variable in the first cycle. -/
def initialValuation (inputs : List String) (flattenedName : String) (flattened : Variable) :
    Except String (SortedTerm String) :=
  if flattenedName ∈ inputs then
    makeConstant (contextualized flattenedName 0 0) flattened.dataType
  else
    match flattened.initialization with
    | some value => .ok (makeValue value)
    | none => makeDefaultValue flattened.dataType

def initialState (inputs : List String) :
    List (String × Variable) → Versions × State → Except String (Versions × State)
  | [], r => .ok r
  | (flattenedName, flattened) :: entries, (versions, st) => do
    let valuation ← initialValuation inputs flattenedName flattened
    initialState inputs entries
      (versions.emplace flattenedName 0,
        { st with
          symbolicValuations :=
            st.symbolicValuations.emplace (contextualized flattenedName 0 0) valuation
          flattenedNameToVersion := st.flattenedNameToVersion.emplace flattenedName 0 })

def initial (p : Program) : Except String Engine := do
  let vertex ← p.main.getVertex p.main.entryLabel
  let (versions, st) ← initialState p.wholeProgramInputs p.main.flattenedInterface.entries
    (.empty, ⟨vertex, .empty, [.booleanValue true], .empty⟩)
  .ok {
    versions := versions
    explorer := [⟨0, st, [⟨p.main, p.main.name, p.main.entryLabel⟩]⟩] }

/-- Put a succeeding context where it goes on: into the next cycle, to a merge point, or back to the
exploration. -/
def push (p : Program) (g : Engine) (c : Context) : Engine :=
  if g.cycle = c.cycle then
    match Merger.mergePointOf c with
    | some point =>
      if point ∈ p.mergePoints then { g with merger := g.merger ++ [c] }
      else { g with explorer := g.explorer ++ [c] }
    | none => { g with explorer := g.explorer ++ [c] }
  else { g with succeedingCycle := some c }

def waiting (g : Engine) (point : MergePoint) : List Context :=
  g.merger.filter (Merger.mergePointOf · = some point)

/-- The executor of a program, with the choice of summaries left open. -/
def executor (p : Program) (simplifier : Simplifier String) (solver : Solver String)
    (findApplicableSummaries : Context → Except String (List Summary)) : Executor where
  simplifier := simplifier
  solver := solver
  getCfg := p.getCfg
  findApplicableSummaries := findApplicableSummaries
  wholeProgramInputs := p.wholeProgramInputs

/-- One iteration of the engine. The order in which the exploration takes its contexts is left
open. -/
inductive Step (p : Program) (simplifier : Simplifier String) (solver : Solver String)
    (findApplicableSummaries : Context → Except String (List Summary)) :
    Engine → Engine → Prop where
  | explore {g : Engine} {c : Context} {rest rest' : List Context} {versions : Versions}
      {successors : Executor.Successors} (h : g.explorer = rest ++ c :: rest')
      (hexecute : (executor p simplifier solver findApplicableSummaries).execute g.versions c =
        .ok (versions, successors)) :
      Step p simplifier solver findApplicableSummaries g
        ((successors.contexts ++ successors.forked.toList).foldl (push p)
          { g with versions := versions, explorer := rest ++ rest' })
  | merge {g : Engine} {point : MergePoint} {c merged : Context} {cs : List Context}
      {versions : Versions} (hexplorer : g.explorer = []) (hwaiting : g.waiting point = c :: cs)
      (hfirst : ∀ c' ∈ g.merger, ∀ point', Merger.mergePointOf c' = some point' →
        Merger.before point' point = false)
      (hmerge : Merger.mergeAll simplifier g.versions c cs = .ok (versions, merged)) :
      Step p simplifier solver findApplicableSummaries g
        { g with
          versions := versions
          explorer := [merged]
          merger := g.merger.filter (Merger.mergePointOf · ≠ some point) }
  | nextCycle {g : Engine} {c : Context} (hexplorer : g.explorer = []) (hmerger : g.merger = [])
      (hnext : g.succeedingCycle = some c) :
      Step p simplifier solver findApplicableSummaries g
        { g with cycle := g.cycle + 1, explorer := [c], succeedingCycle := none }

/-- The states of the engine in the runs on a program. -/
def Reachable (p : Program) (simplifier : Simplifier String) (solver : Solver String)
    (findApplicableSummaries : Context → Except String (List Summary)) (g : Engine) : Prop :=
  ∃ g₀, initial p = .ok g₀ ∧
    Relation.ReflTransGen (Step p simplifier solver findApplicableSummaries) g₀ g

end Engine

end Ahorn.Etfa
