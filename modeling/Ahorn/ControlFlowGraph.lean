import Mathlib.Data.Int.Order.Basic
import Mathlib.Data.String.Basic
import Mathlib.Logic.Relation
import Ahorn.OrderedMap
import Ahorn.Intermediate

set_option autoImplicit false

/-!
# Control-flow graphs

Vertices under their labels and typed edges. Execution of the intraprocedural part goes from vertex
to vertex along the edges; it stops at a vertex without an outgoing edge that fits.
-/
namespace Ahorn

inductive EdgeType where
  | intraprocedural | intraproceduralCallToReturn | interproceduralCall | interproceduralReturn
  | trueBranch | falseBranch
  deriving DecidableEq, Repr

structure Edge where
  sourceLabel : ℤ
  targetLabel : ℤ
  callerName : Option String := none
  callLabel : Option ℤ := none
  type : EdgeType := .intraprocedural
  deriving DecidableEq, Repr

inductive VertexType where
  | entry | regular | exit
  deriving DecidableEq, Repr

structure Vertex where
  label : ℤ
  type : VertexType := .regular
  instruction : Option Instruction := none
  deriving DecidableEq, Repr

structure Cfg where
  labelToVertex : OrderedMap ℤ Vertex
  edges : List Edge
  entryLabel : ℤ
  exitLabel : ℤ

namespace Cfg

/-- One step of an execution: the instruction at the vertex, then the edge that fits. Vertices
without an instruction (entry and exit) only pass control on. -/
inductive Step (cfg : Cfg) : ℤ × Memory → ℤ × Memory → Prop where
  | pass {l t : ℤ} {m : Memory} {v : Vertex} :
      cfg.labelToVertex.find? l = some v → v.instruction = none →
      { sourceLabel := l, targetLabel := t } ∈ cfg.edges → Step cfg (l, m) (t, m)
  | assignment {l t : ℤ} {m : Memory} {v : Vertex} {type : AssignmentType}
      {r : VariableReference} {e : Expression} :
      cfg.labelToVertex.find? l = some v →
      v.instruction = some (.assignmentInstruction type r e) →
      { sourceLabel := l, targetLabel := t } ∈ cfg.edges → Step cfg (l, m) (t, m.assign r e)
  | havoc {l t : ℤ} {m : Memory} {v : Vertex} {r : VariableReference} :
      cfg.labelToVertex.find? l = some v → v.instruction = some (.havocInstruction r) →
      { sourceLabel := l, targetLabel := t } ∈ cfg.edges → Step cfg (l, m) (t, m.havoc r)
  | branch {l t : ℤ} {m : Memory} {v : Vertex} {e : Expression} :
      cfg.labelToVertex.find? l = some v →
      (∃ t₁ t₂, v.instruction = some (.ifInstruction e t₁ t₂) ∨
        v.instruction = some (.whileInstruction e t₁ t₂)) →
      { sourceLabel := l, targetLabel := t,
        type := if m.holds e then .trueBranch else .falseBranch } ∈ cfg.edges →
      Step cfg (l, m) (t, m)

/-- Execution from the entry ends at the exit with the given memory. -/
def Terminates (cfg : Cfg) (m m' : Memory) : Prop :=
  Relation.ReflTransGen cfg.Step (cfg.entryLabel, m) (cfg.exitLabel, m')

end Cfg

inductive CfgType where
  | program | function | functionBlock
  deriving DecidableEq, Repr

/-- The graph of a program organisation unit with its interface. The flattened interface holds the
variables of the unit and of the instances in it under their fully qualified names. -/
structure UnitCfg extends Cfg where
  type : CfgType
  name : String
  interface : List Variable
  flattenedInterface : OrderedMap String Variable

namespace Cfg

variable (cfg : Cfg)

def getVertex (label : ℤ) : Except String Vertex :=
  match cfg.labelToVertex.find? label with
  | some v => .ok v
  | none => .error ("No vertex with label " ++ toString label ++ " exists.")

def getOutgoingEdges (label : ℤ) : List Edge := cfg.edges.filter (·.sourceLabel = label)

def getIncomingEdges (label : ℤ) : List Edge := cfg.edges.filter (·.targetLabel = label)

def getSucceedingLabels (label : ℤ) : List ℤ := (cfg.getOutgoingEdges label).map (·.targetLabel)

def getEdgeOfType (type : EdgeType) (label : ℤ) : Except String Edge :=
  match (cfg.getOutgoingEdges label).find? (·.type = type) with
  | some e => .ok e
  | none => .error ("No edge for instruction at label " ++ toString label ++ " exists.")

def getTrueEdge (label : ℤ) : Except String Edge := cfg.getEdgeOfType .trueBranch label

def getFalseEdge (label : ℤ) : Except String Edge := cfg.getEdgeOfType .falseBranch label

def getIntraproceduralCallToReturnEdge (label : ℤ) : Except String Edge :=
  cfg.getEdgeOfType .intraproceduralCallToReturn label

def getInterproceduralCallEdge (label : ℤ) : Except String Edge :=
  cfg.getEdgeOfType .interproceduralCall label

def getIntraproceduralEdge (label : ℤ) : Except String Edge :=
  if (cfg.getSucceedingLabels label).length = 1 then cfg.getEdgeOfType .intraprocedural label
  else .error "assertion failed"

/-- The vertex behind a vertex with exactly one outgoing edge. -/
def getOnlySuccessor (label : ℤ) : Except String Vertex :=
  match cfg.getSucceedingLabels label with
  | [next] => cfg.getVertex next
  | _ => .error "assertion failed"

end Cfg

end Ahorn
