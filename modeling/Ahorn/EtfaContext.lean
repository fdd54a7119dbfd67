import Ahorn.ControlFlowGraph
import Ahorn.Definitions
import Ahorn.Names

set_option autoImplicit false

/-!
# Contexts of the symbolic execution

A context is a cycle, a state and a call stack. The state holds the symbolic valuations of all
versions written so far, the path constraint and the current version of every flattened variable.
-/
namespace Ahorn.Etfa

structure Frame where
  cfg : UnitCfg
  scope : String
  returnLabel : ℤ

structure State where
  vertex : Vertex
  symbolicValuations : OrderedMap String (SortedTerm String)
  pathConstraint : List (Term String .bool)
  flattenedNameToVersion : OrderedMap String ℕ

/-- The frame in front of the call stack is the current one, the last one that of the program. -/
structure Context where
  cycle : ℕ
  state : State
  callStack : List Frame

namespace State

def getSymbolicValuation (st : State) (contextualizedName : String) :
    Except String (SortedTerm String) :=
  match st.symbolicValuations.find? contextualizedName with
  | some e => .ok e
  | none => .error "assertion failed"

/-- The assertion of `setSymbolicValuation`. -/
def valuationExists : String :=
  "assertion failed: _symbolic_valuations.find(contextualized_name) == _symbolic_valuations.end()"

def setSymbolicValuation (contextualizedName : String) (valuation : SortedTerm String)
    (st : State) : Except String State :=
  match st.symbolicValuations.find? contextualizedName with
  | some _ => .error valuationExists
  | none =>
    .ok { st with
      symbolicValuations := st.symbolicValuations.emplace contextualizedName valuation }

def getVersion (st : State) (flattenedName : String) : Except String ℕ :=
  match st.flattenedNameToVersion.find? flattenedName with
  | some v => .ok v
  | none => .error "map::at"

def setVersion (flattenedName : String) (version : ℕ) (st : State) : Except String State :=
  match st.flattenedNameToVersion.find? flattenedName with
  | some _ =>
    .ok { st with
      flattenedNameToVersion := st.flattenedNameToVersion.assign flattenedName version }
  | none => .error "assertion failed"

def setVertex (vertex : Vertex) (st : State) : State := { st with vertex := vertex }

def pushPathConstraint (t : Term String .bool) (st : State) : State :=
  { st with pathConstraint := st.pathConstraint ++ [t] }

end State

namespace Context

def getFrame (c : Context) : Except String Frame :=
  match c.callStack with
  | frame :: _ => .ok frame
  | [] => .error "assertion failed"

def mapState (f : State → State) (c : Context) : Context := { c with state := f c.state }

def fork (vertex : Vertex) (t : Term String .bool) (c : Context) : Context :=
  c.mapState fun st => (st.pushPathConstraint t).setVertex vertex

/-- The symbolic valuations as definitions of the contextualized names. -/
def definitions (c : Context) : Definitions String := c.state.symbolicValuations.find?

/-- The model reads the constants that stand for themselves as given, the others through the
symbolic valuations, and satisfies the path constraint. -/
structure Holds (c : Context) (inputs M : Model String) : Prop where
  reads : c.definitions.Reads inputs M
  pathConstraint : ∀ t ∈ c.state.pathConstraint, t.Holds M

/-- No values of the inputs satisfy the path constraints of both. -/
def Exclusive (c c' : Context) : Prop :=
  ∀ inputs M M', c.Holds inputs M → c'.Holds inputs M' → False

/-- Names both contexts give a valuation have the same one. -/
def Agrees (c c' : Context) : Prop :=
  ∀ n e e', c.definitions n = some e → c'.definitions n = some e' → e = e'

end Context

end Ahorn.Etfa
