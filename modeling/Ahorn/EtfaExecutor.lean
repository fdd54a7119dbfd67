import Ahorn.Encoder
import Ahorn.EtfaContext
import Ahorn.Summary

set_option autoImplicit false

/-!
# The executor of the symbolic execution

One step of a context at its vertex. The executor keeps the highest version of every flattened
variable over all contexts; it is passed along as state.
-/
namespace Ahorn.Etfa

abbrev Versions := OrderedMap String ℕ

/-- What the executor works with: the solver, the units by the name of their type, the choice of
the summaries that apply at a call, and the inputs of the whole program. -/
structure Executor where
  simplifier : Simplifier String
  solver : Solver String
  getCfg : String → Option UnitCfg
  findApplicableSummaries : Context → Except String (List Summary)
  wholeProgramInputs : List String

namespace Executor

def getVersion (versions : Versions) (flattenedName : String) : Except String ℕ :=
  match versions.find? flattenedName with
  | some v => .ok v
  | none => .error "map::at"

/-- The contexts a step leads to, and the one forked off. -/
structure Successors where
  contexts : List Context
  forked : Option Context := none

def moveTo (vertex : Vertex) (c : Context) : Context := c.mapState (State.setVertex vertex)

def handleEntryVertex (frame : Frame) (c : Context) : Except String Context := do
  match frame.cfg.type with
  | .function => .error "Not implemented yet."
  | _ =>
    let next ← frame.cfg.getOnlySuccessor c.state.vertex.label
    .ok (moveTo next c)

def handleIntermediateDecisionVertex (frame : Frame) (c : Context) : Except String Context := do
  let next ← frame.cfg.getOnlySuccessor c.state.vertex.label
  .ok (moveTo next c)

/-- The constant that stands for the current version of a variable in the frame. -/
def access (frame : Frame) (c : Context) (r : VariableReference) :
    Except String (SortedTerm String) := do
  let flattenedName := frame.scope ++ "." ++ r.getName
  let version ← c.state.getVersion flattenedName
  makeConstant (contextualized flattenedName version c.cycle) r.getVariable.dataType

def encode (ex : Executor) (frame : Frame) (c : Context) (e : Expression) :
    Except String (SortedTerm String) :=
  Encoder.encode ex.simplifier .rejected (access frame c) e

def visitAssignment (ex : Executor) (frame : Frame) (r : VariableReference) (e : Expression)
    (versions : Versions) (c : Context) : Except String (Versions × Context) := do
  let encoded ← ex.encode frame c e
  let flattenedName := frame.scope ++ "." ++ r.getName
  let highest ← getVersion versions flattenedName
  let version := highest + 1
  let st ← c.state.setVersion flattenedName version
  let st ← st.setSymbolicValuation (contextualized flattenedName version c.cycle) encoded
  let edge ← frame.cfg.getIntraproceduralEdge st.vertex.label
  let next ← frame.cfg.getVertex edge.targetLabel
  .ok (versions.assign flattenedName version, { c with state := st.setVertex next })

/-- The valuation as an equation between the name and its term. -/
def equation (entry : String × SortedTerm String) : Term String .bool :=
  .eq (.constant entry.2.1 entry.1) entry.2.2

def visitIf (ex : Executor) (frame : Frame) (e : Expression) (c : Context) :
    Except String Successors := do
  match ← ex.encode frame c e with
  | ⟨.int, _⟩ => .error "Sort mismatch"
  | ⟨.bool, encoded⟩ =>
    let negated := ex.simplifier.simplify (Term.not encoded)
    let trueEdge ← frame.cfg.getTrueEdge c.state.vertex.label
    let positive ← frame.cfg.getVertex trueEdge.targetLabel
    let falseEdge ← frame.cfg.getFalseEdge c.state.vertex.label
    let negative ← frame.cfg.getVertex falseEdge.targetLabel
    let expressions := c.state.pathConstraint ++ c.state.symbolicValuations.entries.map equation
    if ex.solver.check (expressions ++ [encoded]) then
      let forked :=
        if ex.solver.check (expressions ++ [negated]) then some (c.fork negative negated) else none
      .ok ⟨[c.fork positive encoded], forked⟩
    else .ok ⟨[c.fork negative negated], none⟩

def readNames (summary : Summary) : List String :=
  ((summary.occurrences.map Prod.snd).filter fun n =>
    (summary.hardConstraints.find? n).isNone).eraseDups

/-- The versions a summary is applied at: the name of every constant in the context, and the
highest version of every variable. -/
structure Reversioning where
  used : OrderedMap String String := .empty
  highest : Versions := .empty

def Reversioning.push (name flattenedName : String) (version cycle : ℕ) (r : Reversioning) :
    Reversioning where
  used := r.used.emplace name (contextualized flattenedName version cycle)
  highest :=
    match r.highest.find? flattenedName with
    | some v => if v < version then r.highest.assign flattenedName version else r.highest
    | none => r.highest.emplace flattenedName version

/-- Written names get versions above all others of the executor. -/
def reversionWritten (versions : Versions) (cycle : ℕ) :
    List String → Reversioning → Except String Reversioning
  | [], r => .ok r
  | name :: names, r => do
    let summaryVersion ← extractVersion name
    let flattenedName := decontextualize name
    let globalVersion ← getVersion versions flattenedName
    reversionWritten versions cycle names
      (r.push name flattenedName (summaryVersion + globalVersion + 1) cycle)

/-- Names that are only read get the current version of the context. -/
def reversionRead (st : State) (cycle : ℕ) :
    List String → Reversioning → Except String Reversioning
  | [], r => .ok r
  | name :: names, r => do
    let _ ← extractVersion name
    let flattenedName := decontextualize name
    let localVersion ← st.getVersion flattenedName
    reversionRead st cycle names (r.push name flattenedName localVersion cycle)

def substituteAll (used : OrderedMap String String) :
    List (SmtSort × String) → {s : SmtSort} → Term String s → Except String (Term String s)
  | [], _, t => .ok t
  | (s', n) :: ks, _, t =>
    match used.find? n with
    | some n' => substituteAll used ks (t.substitute n (.constant s' n'))
    | none => .error "map::at"

def reversionTerm (used : OrderedMap String String) {s : SmtSort} (t : Term String s) :
    Except String (Term String s) := substituteAll used t.constants t

def reversionValuations (used : OrderedMap String String) :
    List (String × SortedTerm String) → OrderedMap String (SortedTerm String) →
      Except String (OrderedMap String (SortedTerm String))
  | [], valuations => .ok valuations
  | (n, ⟨s, t⟩) :: entries, valuations => do
    let t' ← reversionTerm used t
    match used.find? n with
    | some n' => reversionValuations used entries (valuations.emplace n' ⟨s, t'⟩)
    | none => .error "map::at"

def setSymbolicValuations : List (String × SortedTerm String) → State → Except String State
  | [], st => .ok st
  | (n, e) :: entries, st => do
    let st ← st.setSymbolicValuation n e
    setSymbolicValuations entries st

/-- Raise the versions of the executor and of the context to the highest ones of the summary. -/
def updateVersions : List (String × ℕ) → Versions × State → Except String (Versions × State)
  | [], r => .ok r
  | (flattenedName, version) :: entries, (versions, st) => do
    let globalVersion ← getVersion versions flattenedName
    let st ← st.setVersion flattenedName version
    updateVersions entries
      (if globalVersion < version then versions.assign flattenedName version else versions, st)

def applySummary (summary : Summary) (versions : Versions) (c : Context) :
    Except String (Versions × Context) := do
  let r ← reversionWritten versions c.cycle summary.hardConstraints.keys {}
  let r ← reversionRead c.state c.cycle (readNames summary) r
  let valuations ← reversionValuations r.used summary.hardConstraints.entries .empty
  let pathConstraint ← summary.assumptions.mapM fun t => reversionTerm r.used t
  let st ← setSymbolicValuations valuations.entries c.state
  let st := { st with pathConstraint := st.pathConstraint ++ pathConstraint }
  let (versions, st) ← updateVersions r.highest.entries (versions, st)
  .ok (versions, { c with state := st })

/-- Apply the summaries one after the other, each to a copy of the context. -/
def applySummaries (returnVertex : Vertex) (callStack : List Frame) (c : Context) :
    List Summary → Versions → Except String (Versions × List Context)
  | [], versions => .ok (versions, [])
  | summary :: summaries, versions => do
    let (versions, c') ← applySummary summary versions c
    let (versions, cs) ← applySummaries returnVertex callStack c summaries versions
    .ok (versions, { moveTo returnVertex c' with callStack := callStack } :: cs)

def visitCall (ex : Executor) (frame : Frame) (called : Variable) (versions : Versions)
    (c : Context) : Except String (Versions × Successors) := do
  let intraproceduralEdge ← frame.cfg.getIntraproceduralCallToReturnEdge c.state.vertex.label
  let interproceduralEdge ← frame.cfg.getInterproceduralCallEdge c.state.vertex.label
  match called.dataType with
  | .derivedType typeName =>
    match ex.getCfg typeName with
    | none => .error ("No type representative cfg for " ++ typeName ++ " exists.")
    | some callee =>
      let calleeFrame : Frame :=
        ⟨callee, frame.scope ++ "." ++ called.name, intraproceduralEdge.targetLabel⟩
      let inside := { c with callStack := calleeFrame :: c.callStack }
      let summaries ← ex.findApplicableSummaries inside
      if summaries.isEmpty then
        let next ← callee.getVertex interproceduralEdge.targetLabel
        .ok (versions, ⟨[moveTo next inside], none⟩)
      else
        let next ← frame.cfg.getVertex intraproceduralEdge.targetLabel
        let (versions, cs) ← applySummaries next c.callStack inside summaries versions
        .ok (versions, ⟨cs, none⟩)
  | _ => .error "assertion failed"

/-- What version 0 of the next cycle stands for: an input of the whole program for itself, any other
variable for its current valuation. -/
def carriedValuation (ex : Executor) (cycle : ℕ) (st : State) (flattenedName : String)
    (flattened : Variable) : Except String (SortedTerm String) :=
  if flattenedName ∈ ex.wholeProgramInputs then
    makeConstant (contextualized flattenedName 0 (cycle + 1)) flattened.dataType
  else do
    let version ← st.getVersion flattenedName
    st.getSymbolicValuation (contextualized flattenedName version cycle)

/-- Carry the valuations of the cycle over to version 0 of the next one. -/
def carryOver (ex : Executor) (cycle : ℕ) :
    List (String × Variable) → Versions × State → Except String (Versions × State)
  | [], r => .ok r
  | (flattenedName, flattened) :: entries, (versions, st) => do
    let valuation ← ex.carriedValuation cycle st flattenedName flattened
    let st ← st.setSymbolicValuation (contextualized flattenedName 0 (cycle + 1)) valuation
    carryOver ex cycle entries (versions.assign flattenedName 0, st)

def resetVersions : List (String × Variable) → State → Except String State
  | [], st => .ok st
  | (flattenedName, _) :: entries, st => do
    let st ← st.setVersion flattenedName 0
    resetVersions entries st

def handleProgramExitVertex (ex : Executor) (frame : Frame) (versions : Versions) (c : Context) :
    Except String (Versions × Context) := do
  if c.callStack.length ≠ 1 then .error "assertion failed"
  else
    let entries := frame.cfg.flattenedInterface.entries
    let (versions, st) ← ex.carryOver c.cycle entries (versions, c.state)
    let st ← resetVersions entries st
    let next ← frame.cfg.getVertex frame.returnLabel
    .ok (versions, { c with
      cycle := c.cycle + 1
      state := { st with pathConstraint := [], vertex := next } })

def handleFunctionBlockExitVertex (frame : Frame) (c : Context) : Except String Context := do
  match c.callStack with
  | _ :: caller :: callers =>
    let next ← caller.cfg.getVertex frame.returnLabel
    .ok { moveTo next c with callStack := caller :: callers }
  | _ => .error "assertion failed"

def execute (ex : Executor) (versions : Versions) (c : Context) :
    Except String (Versions × Successors) := do
  let frame ← c.getFrame
  match c.state.vertex.type with
  | .entry =>
    let c' ← handleEntryVertex frame c
    .ok (versions, ⟨[c'], none⟩)
  | .regular =>
    match c.state.vertex.instruction with
    | none =>
      let c' ← handleIntermediateDecisionVertex frame c
      .ok (versions, ⟨[c'], none⟩)
    | some (.assignmentInstruction _ r e) =>
      let (versions, c') ← ex.visitAssignment frame r e versions c
      .ok (versions, ⟨[c'], none⟩)
    | some (.callInstruction called _ _) => ex.visitCall frame called versions c
    | some (.ifInstruction e _ _) =>
      let successors ← ex.visitIf frame e c
      .ok (versions, successors)
    | some (.whileInstruction _ _ _) | some (.gotoInstruction _) | some (.havocInstruction _) =>
      .error "Not implemented yet."
  | .exit =>
    match frame.cfg.type with
    | .program =>
      let (versions, c') ← ex.handleProgramExitVertex frame versions c
      .ok (versions, ⟨[c'], none⟩)
    | .functionBlock =>
      let c' ← handleFunctionBlockExitVertex frame c
      .ok (versions, ⟨[c'], none⟩)
    | .function => .error "Not implemented yet."

end Executor

end Ahorn.Etfa
