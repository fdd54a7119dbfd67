import Ahorn.EtfaEngine
import Ahorn.NoMergeSummarizer

set_option autoImplicit false

/-!
# The executor without merging

Every step evaluates concretely what it encodes symbolically. At a branch the concrete value decides
where the context goes, and the solver whether another one is forked off to the other side.
-/
namespace Ahorn.EtfaNoMerge

open Etfa

structure Executor where
  simplifier : Simplifier String
  finder : ModelFinder String
  getCfg : String → Option UnitCfg
  getSummaries : String → List Summary
  wholeProgramInputs : List String
  /-- The branches along the path of a summary when its unit is called under a scope. -/
  branchesOf : String → Summary → List Branch

namespace Executor

def symbolic (ex : Executor) : Etfa.Executor where
  simplifier := ex.simplifier
  solver := ex.finder.solver
  getCfg := ex.getCfg
  findApplicableSummaries := fun _ => .ok []
  wholeProgramInputs := ex.wholeProgramInputs

structure Successors where
  contexts : List Context
  forked : Option Context := none

def moveTo (vertex : Vertex) (c : Context) : Context :=
  { c with toContext := Etfa.Executor.moveTo vertex c.toContext }

def evaluate (frame : Frame) (c : Context) (e : Expression) : Except String Value :=
  Evaluator.evaluate (fun r => do
    let flattenedName := frame.scope ++ "." ++ r.getName
    let version ← c.state.getVersion flattenedName
    c.getConcreteValuation (contextualized flattenedName version c.cycle)) e

def visitAssignment (ex : Executor) (frame : Frame) (r : VariableReference) (e : Expression)
    (versions : Versions) (c : Context) : Except String (Versions × Context) := do
  let evaluated ← evaluate frame c e
  let (versions, c') ← ex.symbolic.visitAssignment frame r e versions c.toContext
  let flattenedName := frame.scope ++ "." ++ r.getName
  let version ← c'.state.getVersion flattenedName
  let concreteValuations ← setConcreteValuation (contextualized flattenedName version c.cycle)
    evaluated c.concreteValuations
  .ok (versions, { c with toContext := c', concreteValuations := concreteValuations })

/-- Whether the expression depends on a constant that stands for itself. The search follows the
valuations of its constants. -/
def containsUnconstrainedUninterpretedConstant (simplifier : Simplifier String) (st : State) :
    ℕ → {s : SmtSort} → Term String s → Except String Bool
  | 0, _, _ => .error "stack overflow"
  | fuel + 1, _, expression =>
    match (simplifier.simplify expression).constants with
    | [] => if (simplifier.simplify expression).isLiteral then .ok false else .error "assertion failed"
    | [(_, contextualizedName)] => do
      let nested ← st.getSymbolicValuation contextualizedName
      match nested.2.constants with
      | [] => if nested.2.isLiteral then .ok false else .error "assertion failed"
      | [(_, nestedName)] =>
        if contextualizedName = nestedName then .ok true
        else containsUnconstrainedUninterpretedConstant simplifier st fuel nested.2
      | _ => containsUnconstrainedUninterpretedConstant simplifier st fuel nested.2
    | constants => constants.anyM fun k => do
      if ← containsUnconstrainedUninterpretedConstant simplifier st fuel (.constant k.1 k.2) then
        .ok true
      else
        let nested ← st.getSymbolicValuation k.2
        containsUnconstrainedUninterpretedConstant simplifier st fuel nested.2

/-- Fork off a context to the other side of a branch, if its inputs can be chosen so. -/
def tryFork (ex : Executor) (frame : Frame) (taken : Bool) (vertex : Vertex)
    (expression : Term String .bool) (c : Context) : Except String (Option Context) := do
  let st := c.state
  if ← containsUnconstrainedUninterpretedConstant ex.simplifier st
      (2 * st.symbolicValuations.entries.length + 2) expression then
    let expressions := st.pathConstraint ++
      st.symbolicValuations.entries.map Etfa.Executor.equation ++ [expression]
    match ex.finder.find expressions with
    | none => .ok none
    | some model => do
      let concreteValuations ← overwrite model c.concreteValuations
      .ok (some { c.take frame taken vertex expression with
        concreteValuations := concreteValuations })
  else .ok none

def visitIf (ex : Executor) (frame : Frame) (e : Expression) (c : Context) :
    Except String Successors := do
  match ← evaluate frame c e with
  | .int _ => .error "assertion failed"
  | .bool evaluated =>
    match ← ex.symbolic.encode frame c.toContext e with
    | ⟨.int, _⟩ => .error "Sort mismatch"
    | ⟨.bool, encoded⟩ =>
      let negated := ex.simplifier.simplify (Term.not encoded)
      let trueEdge ← frame.cfg.getTrueEdge c.state.vertex.label
      let positive ← frame.cfg.getVertex trueEdge.targetLabel
      let falseEdge ← frame.cfg.getFalseEdge c.state.vertex.label
      let negative ← frame.cfg.getVertex falseEdge.targetLabel
      if evaluated then
        let forked ← ex.tryFork frame false negative negated c
        .ok ⟨[c.take frame true positive encoded], forked⟩
      else
        let forked ← ex.tryFork frame true positive encoded c
        .ok ⟨[c.take frame false negative negated], forked⟩

/-- The values of the hard constraints under the model, at the names of the context. -/
def evaluateHardConstraints (used : OrderedMap String String) (model : PartialModel String) :
    List (String × SortedTerm String) → Except String (List (String × Value))
  | [] => .ok []
  | (n, ⟨_, t⟩) :: entries =>
    match used.find? n with
    | some n' => do
      let valuations ← evaluateHardConstraints used model entries
      .ok ((n', SmtSort.value (t.eval model.complete)) :: valuations)
    | none => .error "map::at"

def applySummaryConcretely (ex : Executor) (summary : Summary) (model : PartialModel String)
    (versions : Versions) (c : Context) : Except String (Versions × Context) := do
  let frame ← c.toContext.getFrame
  let r ← Etfa.Executor.reversionWritten versions c.cycle summary.hardConstraints.keys {}
  let valuations ← evaluateHardConstraints r.used model summary.hardConstraints.entries
  let concreteValuations ← setConcreteValuations valuations c.concreteValuations
  let (versions, c') ← Etfa.Executor.applySummary summary versions c.toContext
  .ok (versions, {
    toContext := c'
    concreteValuations := concreteValuations
    branches := c.branches ++ ex.branchesOf frame.scope summary })

/-- Apply the summaries one after the other, each with its model to a clone of the context. -/
def applySummaries (ex : Executor) (returnVertex : Vertex) (callStack : List Frame) (c : Context) :
    List (Summary × PartialModel String) → Versions → Except String (Versions × List Context)
  | [], versions => .ok (versions, [])
  | (summary, model) :: applicable, versions => do
    let (versions, c') ← ex.applySummaryConcretely summary model versions c
    let (versions, cs) ← ex.applySummaries returnVertex callStack c applicable versions
    .ok (versions, { moveTo returnVertex c' with callStack := callStack } :: cs)

def inside (frame : Frame) (called : Variable) (callee : UnitCfg) (returnLabel : ℤ) (c : Context) :
    Context :=
  { c with callStack := ⟨callee, frame.scope ++ "." ++ called.name, returnLabel⟩ :: c.callStack }

def findApplicable (ex : Executor) (c : Context) :
    Except String (List (Summary × PartialModel String)) :=
  Summarizer.findConcretelyApplicableSummaries ex.simplifier ex.finder ex.getSummaries c

def visitCall (ex : Executor) (frame : Frame) (called : Variable) (versions : Versions)
    (c : Context) : Except String (Versions × Successors) := do
  let intraproceduralEdge ← frame.cfg.getIntraproceduralCallToReturnEdge c.state.vertex.label
  let interproceduralEdge ← frame.cfg.getInterproceduralCallEdge c.state.vertex.label
  match called.dataType with
  | .derivedType typeName =>
    match ex.getCfg typeName with
    | none => .error ("No type representative cfg for " ++ typeName ++ " exists.")
    | some callee =>
      let c' := inside frame called callee intraproceduralEdge.targetLabel c
      let applicable ← ex.findApplicable c'
      if applicable.isEmpty then
        let next ← callee.getVertex interproceduralEdge.targetLabel
        .ok (versions, ⟨[moveTo next c'], none⟩)
      else
        let next ← frame.cfg.getVertex intraproceduralEdge.targetLabel
        let (versions, cs) ← ex.applySummaries next c.callStack c' applicable versions
        .ok (versions, ⟨cs, none⟩)
  | _ => .error "assertion failed"

/-- A random number as a value of a type. A safety-related one defaults to false. -/
def makeRandomValue (random : ℤ) : DataType → Except String Value
  | .int | .time => .ok (.int random)
  | .bool => .ok (.bool (random ≠ 0))
  | .safeBool => .ok (.bool false)
  | .real => .error "Unsupported elementary type."
  | .enumeratedType _ | .derivedType _ | .inconclusiveType | .simpleType _ =>
    .error "Unsupported data type."

/-- The concrete value of version 0 in the next cycle. -/
def carriedValue (ex : Executor) (random : String → ℤ) (c : Context) (flattenedName : String)
    (flattened : Variable) : Except String Value :=
  if flattenedName ∈ ex.wholeProgramInputs then
    makeRandomValue (random flattenedName) flattened.dataType
  else do
    let version ← c.state.getVersion flattenedName
    c.getConcreteValuation (contextualized flattenedName version c.cycle)

def carryOver (ex : Executor) (random : String → ℤ) (c : Context) :
    List (String × Variable) → OrderedMap String Value → Except String (OrderedMap String Value)
  | [], concreteValuations => .ok concreteValuations
  | (flattenedName, flattened) :: entries, concreteValuations => do
    let value ← ex.carriedValue random c flattenedName flattened
    let concreteValuations ← setConcreteValuation (contextualized flattenedName 0 (c.cycle + 1))
      value concreteValuations
    ex.carryOver random c entries concreteValuations

/-- The symbolic half resets the versions, those of the executor too, and clears the path
constraint. -/
def handleProgramExitVertex (ex : Executor) (random : String → ℤ) (frame : Frame)
    (versions : Versions) (c : Context) : Except String (Versions × Context) := do
  let concreteValuations ←
    ex.carryOver random c frame.cfg.flattenedInterface.entries c.concreteValuations
  let (versions, c') ← ex.symbolic.handleProgramExitVertex frame versions c.toContext
  .ok (versions, { c with toContext := c', concreteValuations := concreteValuations })

def execute (ex : Executor) (random : String → ℤ) (versions : Versions) (c : Context) :
    Except String (Versions × Successors) := do
  let frame ← c.toContext.getFrame
  match c.state.vertex.type with
  | .entry =>
    let c' ← Etfa.Executor.handleEntryVertex frame c.toContext
    .ok (versions, ⟨[{ c with toContext := c' }], none⟩)
  | .regular =>
    match c.state.vertex.instruction with
    | none =>
      let c' ← Etfa.Executor.handleIntermediateDecisionVertex frame c.toContext
      .ok (versions, ⟨[{ c with toContext := c' }], none⟩)
    | some (.assignmentInstruction _ r e) =>
      let (versions, c') ← ex.visitAssignment frame r e versions c
      .ok (versions, ⟨[c'], none⟩)
    | some (.callInstruction called _ _) => ex.visitCall frame called versions c
    | some (.ifInstruction e _ _) =>
      let successors ← ex.visitIf frame e c
      .ok (versions, successors)
    | some (.whileInstruction _ _ _) | some (.gotoInstruction _) | some (.havocInstruction _) =>
      .error "Not implemented yet."
  | .exit =>
    match frame.cfg.type with
    | .program =>
      let (versions, c') ← ex.handleProgramExitVertex random frame versions c
      .ok (versions, ⟨[c'], none⟩)
    | .functionBlock =>
      let c' ← Etfa.Executor.handleFunctionBlockExitVertex frame c.toContext
      .ok (versions, ⟨[{ c with toContext := c' }], none⟩)
    | .function => .error "Not implemented yet."

end Executor

/-- The contexts still to be explored, and those that have left the program. -/
structure Engine where
  cycle : ℕ := 0
  versions : Versions
  explorer : List Context := []
  succeedingCycle : List Context := []

namespace Engine

def initialValue (flattened : Variable) : Except String Value :=
  match flattened.initialization with
  | some value => .ok value
  | none => do
    match ← flattened.dataType.sort with
    | .int => .ok (.int 0)
    | .bool => .ok (.bool false)

def initialConcreteValuations :
    List (String × Variable) → OrderedMap String Value → Except String (OrderedMap String Value)
  | [], concreteValuations => .ok concreteValuations
  | (flattenedName, flattened) :: entries, concreteValuations => do
    let value ← initialValue flattened
    initialConcreteValuations entries
      (concreteValuations.emplace (contextualized flattenedName 0 0) value)

/-- The inputs have concrete values too in the first cycle, their initial ones. -/
def initial (p : Program) : Except String Engine := do
  let concreteValuations ←
    initialConcreteValuations p.main.flattenedInterface.entries .empty
  let vertex ← p.main.getVertex p.main.entryLabel
  let (versions, st) ← Etfa.Engine.initialState p.wholeProgramInputs
    p.main.flattenedInterface.entries (.empty, ⟨vertex, .empty, [.booleanValue true], .empty⟩)
  .ok {
    versions := versions
    explorer := [{
      cycle := 0
      state := st
      callStack := [⟨p.main, p.main.name, p.main.entryLabel⟩]
      concreteValuations := concreteValuations }] }

def push (g : Engine) (c : Context) : Engine :=
  if g.cycle = c.cycle then { g with explorer := g.explorer ++ [c] }
  else { g with succeedingCycle := g.succeedingCycle ++ [c] }

def executor (p : Program) (simplifier : Simplifier String) (finder : ModelFinder String)
    (getSummaries : String → List Summary) (branchesOf : String → Summary → List Branch) :
    Executor where
  simplifier := simplifier
  finder := finder
  getCfg := p.getCfg
  getSummaries := getSummaries
  wholeProgramInputs := p.wholeProgramInputs
  branchesOf := branchesOf

/-- The states of the engine in the runs of an executor on a program in which every context that is
executed meets a condition. The order in which the exploration takes its contexts is left open, and
so are the random numbers. -/
inductive Reachable (p : Program) (ex : Executor) (P : Versions → Context → Prop) : Engine → Prop
  | initial {g : Engine} (h : initial p = .ok g) : Reachable p ex P g
  | explore {g : Engine} {c : Context} {rest rest' : List Context} {random : String → ℤ}
      {versions : Versions} {successors : Executor.Successors} (hg : Reachable p ex P g)
      (h : g.explorer = rest ++ c :: rest') (hP : P g.versions c)
      (hexecute : ex.execute random g.versions c = .ok (versions, successors)) :
      Reachable p ex P ((successors.contexts ++ successors.forked.toList).foldl push
        { g with versions := versions, explorer := rest ++ rest' })
  | nextCycle {g : Engine} (hg : Reachable p ex P g) (hexplorer : g.explorer = [])
      (hnext : g.succeedingCycle ≠ []) :
      Reachable p ex P { g with
        cycle := g.cycle + 1
        explorer := g.succeedingCycle
        succeedingCycle := [] }

theorem Reachable.explore_first {p : Program} {ex : Executor} {P : Versions → Context → Prop}
    {g : Engine} {c : Context} {rest : List Context} {random : String → ℤ} {versions : Versions}
    {successors : Executor.Successors} (hg : Reachable p ex P g) (h : g.explorer = c :: rest)
    (hP : P g.versions c) (hexecute : ex.execute random g.versions c = .ok (versions, successors)) :
    Reachable p ex P ((successors.contexts ++ successors.forked.toList).foldl push
      { g with versions := versions, explorer := rest }) := by
  have hfront : g.explorer = [] ++ c :: rest := h
  exact hg.explore hfront hP hexecute

def live (g : Engine) : List Context := g.explorer ++ g.succeedingCycle

end Engine

end Ahorn.EtfaNoMerge
