import Ahorn.BlockGraphs
import Ahorn.ExpressionTypes
import Ahorn.Flattening

set_option autoImplicit false

/-!
# Three-address code

The pass over graphs of basic blocks that gives the operations inside of an expression temporary
variables. What is inserted stands in front of the instruction it is for.
-/
namespace Ahorn

namespace Expression

def isUnary : Expression → Bool
  | unary _ _ => true
  | _ => false

def isBinary : Expression → Bool
  | binary _ _ _ => true
  | _ => false

def isOperation (e : Expression) : Bool := e.isBinary || e.isUnary

end Expression

def BlockInstruction.instructions : BlockInstruction → List Instruction
  | instruction i => [i]
  | sequenceInstruction instructions => instructions

/-- A graph of basic blocks with the variables of its unit. -/
structure BlockUnit extends BlockCfg where
  interface : VariableMap

def temporaryName (n : ℕ) : String := "temp" ++ toString n

namespace TacPass

/-- The next number of a temporary variable, the temporary variables of the unit, and what has been
inserted at the current label. -/
structure State where
  value : ℕ
  temporaryVariables : List Variable
  instructions : List Instruction

def State.insertInstruction (i : Instruction) (s : State) : State :=
  { s with instructions := s.instructions ++ [i] }

def temporaryType (e : Expression) : Except String DataType :=
  match e.getType with
  | .arithmetic => .ok .int
  | .boolean => .ok .bool
  | .undefined => .error "Unexpected expression type encountered."

def introduceTemporaryVariableExpression (e : Expression) (s : State) :
    Except String (Expression × State) := do
  let dataType ← temporaryType e
  let v : Variable := ⟨temporaryName s.value, dataType, .temporary, none⟩
  let s : State := ⟨s.value + 1, s.temporaryVariables ++ [v], s.instructions⟩
  .ok (.reference (.variableAccess v),
    s.insertInstruction (.assignmentInstruction .regular (.variableAccess v) e))

/-- What is put in the place of an operand or a condition: an operation is given a temporary
variable. -/
def substitute (e : Expression) (s : State) : Except String (Expression × State) :=
  if e.isOperation then introduceTemporaryVariableExpression e s else .ok (e, s)

/-- The operand of a unary expression is given one only if it is a binary expression. -/
def encode : Expression → State → Except String (Expression × State)
  | .binary op l r, s => do
    let (left, s) ← encode l s
    let (temporaryLeft, s) ← substitute left s
    let (right, s) ← encode r s
    let (temporaryRight, s) ← substitute right s
    if left.isOperation || right.isOperation then
      .ok (.binary op temporaryLeft temporaryRight, s)
    else .ok (.binary op l r, s)
  | .unary op e, s => do
    let (encoded, s) ← encode e s
    if encoded.isBinary then do
      let (temporary, s) ← introduceTemporaryVariableExpression encoded s
      .ok (.unary op temporary, s)
    else .ok (.unary op encoded, s)
  | .booleanConstant b, s => .ok (.booleanConstant b, s)
  | .integerConstant i, s => .ok (.integerConstant i, s)
  | .enumeratedValue i, s => .ok (.enumeratedValue i, s)
  | .reference r, s => .ok (.reference r, s)
  | .timeConstant _, _ | .nondeterministicConstant _, _ | .change _ _, _ | .booleanToInteger _, _
  | .integerToBoolean _, _ => .error "Not implemented yet."

def visit (i : Instruction) (s : State) : Except String State :=
  match i with
  | .assignmentInstruction type r e => do
    let (encoded, s) ← encode e s
    .ok (s.insertInstruction (.assignmentInstruction type r encoded))
  | .callInstruction v intra inter => .ok (s.insertInstruction (.callInstruction v intra inter))
  | .ifInstruction e gotoThen gotoElse => do
    let (encoded, s) ← encode e s
    let (condition, s) ← substitute encoded s
    .ok (s.insertInstruction (.ifInstruction condition gotoThen gotoElse))
  | .whileInstruction _ _ _ | .gotoInstruction _ => .error "Not implemented yet."
  | .havocInstruction r => .ok (s.insertInstruction (.havocInstruction r))

/-- The vertex in the place of one, with what has been inserted at its label. -/
def makeVertex (v : BlockVertex) (instructions : List Instruction) : Except String BlockVertex :=
  match instructions with
  | [] => .error "map::at"
  | [i] => .ok { label := v.label, type := v.type, instruction := some (.instruction i) }
  | is => .ok { label := v.label, type := v.type, instruction := some (.sequenceInstruction is) }

def visitBlock : BlockInstruction → State → Except String State
  | .instruction i, s => visit i s
  | .sequenceInstruction instructions, s => instructions.foldlM (fun s i => visit i s) s

def visitInstruction (v : BlockVertex) (s : State) : Except String State :=
  match v.type, v.instruction with
  | .regular, none => .error "assertion failed"
  | .regular, some b => visitBlock b s
  | .entry, _ | .exit, _ => .ok s

def visitVertex (cfg : BlockUnit) (v : BlockVertex) (s : State) :
    Except String (BlockVertex × State) := do
  let s ← visitInstruction v { s with instructions := [] }
  if v.label = cfg.entryLabel ∨ v.label = cfg.exitLabel then
    .ok ({ label := v.label, type := v.type }, s)
  else do
    let v' ← makeVertex v s.instructions
    .ok (v', s)

def visitVertices (cfg : BlockUnit) : List BlockVertex → State →
    Except String (List BlockVertex × State)
  | [], s => .ok ([], s)
  | v :: vs, s => do
    let (v', s) ← visitVertex cfg v s
    let (vs', s) ← visitVertices cfg vs s
    .ok (v' :: vs', s)

def copyEdge (e : Edge) : Edge :=
  match e.type with
  | .interproceduralReturn =>
    ⟨e.sourceLabel, e.targetLabel, e.callerName, e.callLabel, .interproceduralReturn⟩
  | type => { sourceLabel := e.sourceLabel, targetLabel := e.targetLabel, type := type }

/-- The unit of the new vertices. The temporary variables come behind the others. -/
def makeUnit (cfg : BlockUnit) (vertices : List BlockVertex) (temporaryVariables : List Variable) :
    BlockUnit where
  labelToVertex := OrderedMap.empty.emplaceAll (vertices.map fun v => (v.label, v))
  edges := cfg.edges.map copyEdge
  entryLabel := cfg.entryLabel
  exitLabel := cfg.exitLabel
  interface := VariableMap.empty.emplaceAll (cfg.interface.getVariables ++ temporaryVariables)

/-- The pass over one unit, with the next number of a temporary variable. -/
def transform (cfg : BlockUnit) (value : ℕ) : Except String (BlockUnit × ℕ) := do
  let (vertices, s) ← visitVertices cfg (cfg.labelToVertex.entries.map Prod.snd) ⟨value, [], []⟩
  .ok (makeUnit cfg vertices s.temporaryVariables, s.value)

/-- The pass over a unit with its callees. Where the numbers of the temporary variables begin is not
determined. -/
def apply (t : CallTree BlockUnit) (value : ℕ) : Except String (CallTree BlockUnit) :=
  (t.apply transform value).map Prod.fst

end TacPass

end Ahorn
