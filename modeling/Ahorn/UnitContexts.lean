import Ahorn.EtfaExecutor

set_option autoImplicit false

/-!
# The contexts of the summarization

One context for each path through a unit. Every vertex on the path has an assumption literal; what
is assumed when it is entered and what is written there is filed under the literal. The engine that
validates summaries after a change encodes units in the same way.
-/
namespace Ahorn.Summarization

abbrev Versions := Etfa.Versions

structure State where
  vertex : Vertex
  assumptionLiteral : String
  /-- The literals that precede a literal. -/
  assumptionLiterals : OrderedMap String (List (Term String .bool))
  assumptions : OrderedMap String (List (Term String .bool))
  hardConstraints : OrderedMap String (OrderedMap String (SortedTerm String))
  flattenedNameToVersion : Versions

/-- The frame in front of the call stack is the current one. -/
structure Context where
  state : State
  callStack : List Etfa.Frame

def Context.getFrame (c : Context) : Except String Etfa.Frame :=
  match c.callStack with
  | frame :: _ => .ok frame
  | [] => .error "assertion failed"

/-- The literal of a vertex of the unit called under a scope. -/
def literalName (scope : String) (label : ℤ) : String := "b_" ++ scope ++ "_" ++ toString label

namespace State

/-- Relate a literal to the one in front of it. A literal that is there already is joined, where the
engine can do so. -/
def pushAssumptionLiteral (joins : Bool) (assumptionLiteralName : String)
    (assumptionLiteral : Term String .bool) (st : State) : Except String State :=
  match st.assumptionLiterals.find? assumptionLiteralName with
  | none => .ok { st with
      assumptionLiterals := st.assumptionLiterals.emplace assumptionLiteralName [assumptionLiteral] }
  | some existing =>
    if joins then
      if assumptionLiteral ∈ existing then .ok st
      else .ok { st with
        assumptionLiterals :=
          st.assumptionLiterals.assign assumptionLiteralName (existing ++ [assumptionLiteral]) }
    else .error "Not implemented yet."

def getAssumptionLiterals (assumptionLiteralName : String) (st : State) :
    Except String (List (Term String .bool)) :=
  match st.assumptionLiterals.find? assumptionLiteralName with
  | some literals => .ok literals
  | none => .error "assertion failed"

def getVersion (flattenedName : String) (st : State) : Except String ℕ :=
  match st.flattenedNameToVersion.find? flattenedName with
  | some v => .ok v
  | none => .error "map::at"

def setVersion (flattenedName : String) (version : ℕ) (st : State) : Except String State :=
  match st.flattenedNameToVersion.find? flattenedName with
  | some _ => .ok { st with
      flattenedNameToVersion := st.flattenedNameToVersion.assign flattenedName version }
  | none => .error "assertion failed"

def pushAssumption (assumptionLiteralName : String) (assumption : Term String .bool) (st : State) :
    State :=
  match st.assumptions.find? assumptionLiteralName with
  | none => { st with assumptions := st.assumptions.emplace assumptionLiteralName [assumption] }
  | some existing => { st with
      assumptions := st.assumptions.assign assumptionLiteralName (existing ++ [assumption]) }

def pushHardConstraint (assumptionLiteralName contextualizedName : String)
    (expression : SortedTerm String) (st : State) : State :=
  match st.hardConstraints.find? assumptionLiteralName with
  | none => { st with
      hardConstraints := st.hardConstraints.emplace assumptionLiteralName
        (OrderedMap.empty.emplace contextualizedName expression) }
  | some existing => { st with
      hardConstraints := st.hardConstraints.assign assumptionLiteralName
        (existing.emplace contextualizedName expression) }

theorem pushHardConstraint_eq (literal name : String) (e : SortedTerm String) (st : State) :
    (st.pushHardConstraint literal name e).vertex = st.vertex ∧
    (st.pushHardConstraint literal name e).assumptionLiteral = st.assumptionLiteral ∧
    (st.pushHardConstraint literal name e).assumptionLiterals = st.assumptionLiterals := by
  unfold State.pushHardConstraint
  split <;> exact ⟨rfl, rfl, rfl⟩

theorem pushAssumption_eq {literal : String} (t : Term String .bool) (st : State) :
    (st.pushAssumption literal t).assumptionLiterals = st.assumptionLiterals := by
  unfold State.pushAssumption
  split <;> rfl

/-- Go on to a vertex, behind the current literal. -/
def enter (joins : Bool) (literal : String) (vertex : Vertex) (st : State) : Except String State := do
  let st' ← st.pushAssumptionLiteral joins literal (.constant .bool st.assumptionLiteral)
  .ok { st' with vertex := vertex, assumptionLiteral := literal }

/-- The state as a formula: a literal implies one of those in front of it, and what is filed under
it. -/
def encoding (simplifier : Simplifier String) (st : State) : List (Term String .bool) :=
  (st.assumptionLiterals.entries.map fun e =>
    .connective .implies (.constant .bool e.1) (simplifier.simplify (Term.disjunction e.2))) ++
  (st.assumptions.entries.map fun e =>
    .connective .implies (.constant .bool e.1) (Term.conjunction e.2)) ++
  (st.hardConstraints.entries.map fun e =>
    .connective .implies (.constant .bool e.1)
      (Term.conjunction (e.2.entries.map Etfa.Executor.equation)))

end State

/-- The context in front of the first vertex of a callee. -/
def initialContext (frame callee : Etfa.Frame) : Except String Context := do
  let vertex ← callee.cfg.getVertex callee.cfg.entryLabel
  let literal := literalName callee.scope callee.cfg.entryLabel
  .ok {
    state := {
      vertex := vertex
      assumptionLiteral := literal
      assumptionLiterals := OrderedMap.empty.emplace literal [.booleanValue true]
      assumptions := .empty
      hardConstraints := .empty
      flattenedNameToVersion := OrderedMap.empty.emplaceAll
        (callee.cfg.interface.map fun v => (callee.scope ++ "." ++ v.name, 0)) }
    callStack := [callee, frame] }

end Ahorn.Summarization
