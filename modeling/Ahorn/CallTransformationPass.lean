import Ahorn.BlockGraphs
import Ahorn.Flattening
import Ahorn.TacPass

set_option autoImplicit false

/-!
# Calls by value

The pass over graphs of basic blocks that makes the values explicit that a call passes on and gives
back. What a callee keeps between its calls is kept in variables of the caller.
-/
namespace Ahorn

/-- A unit with the names of the units it calls. -/
structure TypedUnit extends BlockUnit where
  type : CfgType
  name : String
  callees : List String

namespace BlockCfg

variable (cfg : BlockCfg)

def getIncomingEdges (label : ℤ) : List Edge := cfg.edges.filter (·.targetLabel = label)

def getOutgoingEdges (label : ℤ) : List Edge := cfg.edges.filter (·.sourceLabel = label)

def getPrecedingLabels (label : ℤ) : List ℤ := (cfg.getIncomingEdges label).map (·.sourceLabel)

def getSucceedingLabels (label : ℤ) : List ℤ := (cfg.getOutgoingEdges label).map (·.targetLabel)

def getVertex (label : ℤ) : Except String BlockVertex :=
  match cfg.labelToVertex.find? label with
  | some v => .ok v
  | none => .error ("No vertex with label " ++ toString label ++ " exists.")

def getIntraproceduralCallToReturnEdge (label : ℤ) : Except String Edge :=
  match (cfg.getOutgoingEdges label).find? (·.type = .intraproceduralCallToReturn) with
  | some e => .ok e
  | none =>
    .error ("No intraprocedural call-to-return edge for instruction at label " ++ toString label ++
      " exists.")

end BlockCfg

def VariableReference.getVariableAccess : VariableReference → Variable
  | variableAccess v => v
  | fieldAccess _ r => r.getVariableAccess

def insertInstructionAtLabel {ι : Type} (i : ι) (label : ℤ) (inFront : Bool)
    (labelToInstructions : OrderedMap ℤ (List ι)) : OrderedMap ℤ (List ι) :=
  let instructions := (labelToInstructions.find? label).getD []
  labelToInstructions.assign label (if inFront then i :: instructions else instructions ++ [i])

/-- The instruction of a vertex. At no label the list of instructions is empty. -/
def instructionAt (labelToInstructions : OrderedMap ℤ (List Instruction)) (label : ℤ) :
    Except String BlockInstruction :=
  match labelToInstructions.find? label with
  | none => .error "map::at"
  | some [i] => .ok (.instruction i)
  | some instructions => .ok (.sequenceInstruction instructions)

namespace CallTransformationPass

section Instructions

-- The interfaces of the units that have been transformed, under the names of the units.
variable (nameToInterface : OrderedMap String VariableMap)

def parameter (record : Variable) (name : String) : Except String Variable :=
  match nameToInterface.find? record.dataType.getName with
  | none => .error "map::at"
  | some interface =>
    match interface.nameToVariable.find? name with
    | none => .error "Variable does not exist."
    | some v => .ok v

def visit (label : ℤ) (i : Instruction) (m : OrderedMap ℤ (List Instruction)) :
    Except String (OrderedMap ℤ (List Instruction)) :=
  match i with
  | .assignmentInstruction .parameterIn (.fieldAccess record r) e => do
    let v ← parameter nameToInterface record (r.getVariableAccess.name ++ "_input")
    .ok (insertInstructionAtLabel
      (.assignmentInstruction .parameterIn (.fieldAccess record (.variableAccess v)) e) label false m)
  | .assignmentInstruction .parameterIn (.variableAccess _) _ => .error "assertion failed"
  | .assignmentInstruction .parameterOut r (.reference (.fieldAccess record r')) => do
    let v ← parameter nameToInterface record (r'.getVariableAccess.name ++ "_output")
    .ok (insertInstructionAtLabel (.assignmentInstruction .parameterOut r
      (.reference (.fieldAccess record (.variableAccess v)))) label false m)
  | .assignmentInstruction .parameterOut _ _ => .error "Not implemented yet."
  | .callInstruction v _ _ =>
    match v.dataType with
    | .derivedType name =>
      match nameToInterface.find? name with
      | none => .error "map::at"
      | some _ => .ok (insertInstructionAtLabel i label false m)
    | _ => .error "assertion failed"
  | .whileInstruction _ _ _ | .gotoInstruction _ => .error "Not implemented yet."
  | .assignmentInstruction .regular _ _ | .ifInstruction _ _ _ | .havocInstruction _ =>
    .ok (insertInstructionAtLabel i label false m)

/-- The entry and the exit are left to what comes later. -/
def visitVertex (cfg : TypedUnit) (m : OrderedMap ℤ (List Instruction)) (v : BlockVertex) :
    Except String (OrderedMap ℤ (List Instruction)) :=
  if v.label = cfg.entryLabel ∨ v.label = cfg.exitLabel then .ok m
  else
    match v.instruction with
    | none => .error "assertion failed"
    | some _ => v.instructions.foldlM (fun m i => visit nameToInterface v.label i m) m

/-- The instructions of all blocks, at their labels. -/
def visitVertices (cfg : TypedUnit) : Except String (OrderedMap ℤ (List Instruction)) :=
  (cfg.labelToVertex.entries.map Prod.snd).foldlM (visitVertex nameToInterface cfg) .empty

end Instructions

section Interface

def augmentedInputVariable (v : Variable) : Variable :=
  ⟨v.name ++ "_input", v.dataType, .input, v.initialization⟩

def augmentedOutputVariable (v : Variable) : Variable :=
  ⟨v.name ++ "_output", v.dataType, .output, v.initialization⟩

/-- The variables that get a value from outside. -/
def isAugmentedInput (type : CfgType) (v : Variable) : Bool :=
  type != .program && (v.storageType == .input || v.storageType == .local)

def isAugmentedOutput (type : CfgType) (v : Variable) : Bool :=
  type != .program && (v.storageType == .local || v.storageType == .output)

/-- A variable that keeps the value of a variable of an instance. -/
def stateVariable (v nested : Variable) : Variable :=
  { nested with name := v.name ++ nested.name }

/-- Instances of the callee are left out: its interface has their variables already. -/
def nestedVariables : List Variable → Except String (List Variable)
  | [] => .ok []
  | nested :: rest =>
    match nested.dataType with
    | .int | .real | .bool | .time => (nestedVariables rest).map (nested :: ·)
    | .derivedType _ => nestedVariables rest
    | .safeBool | .enumeratedType _ | .inconclusiveType | .simpleType _ =>
      .error "Not implemented yet."

variable (nameToInterface : OrderedMap String VariableMap) (cfg : TypedUnit)

/-- The local variables that the instances of a type keep. -/
def stateOf (typeName : String) : Except String (List Variable) :=
  match if typeName ∈ cfg.callees then nameToInterface.find? typeName else none with
  | none => .error "map::at"
  | some interface => nestedVariables (interface.getVariables.filter (·.storageType = .local))

def augment (v : Variable) : Except String (List Variable) :=
  match v.dataType with
  | .int | .real | .bool | .time | .safeBool =>
    .ok (v :: ((if isAugmentedInput cfg.type v then [augmentedInputVariable v] else []) ++
      if isAugmentedOutput cfg.type v then [augmentedOutputVariable v] else []))
  | .derivedType typeName =>
    if v.initialization.isSome then .error "assertion failed" else
      (stateOf nameToInterface cfg typeName).map fun nested => v :: nested.map (stateVariable v)
  | .enumeratedType _ | .inconclusiveType | .simpleType _ => .error "Not implemented yet."

def augmentedVariables : Except String (List Variable) :=
  (cfg.interface.getVariables.mapM (augment nameToInterface cfg)).map List.flatten

end Interface

section States

variable (nameToInterface : OrderedMap String VariableMap) (cfg : TypedUnit)

def calledVariable (name : String) (instructions : List Instruction) : Option Variable :=
  instructions.findSome? fun i =>
    match i with
    | .callInstruction v _ _ => if v.name = name then some v else none
    | _ => none

def stateIn (v callee nested : Variable) : Instruction :=
  .assignmentInstruction .parameterIn
    (.fieldAccess callee (.variableAccess ⟨nested.name ++ "_input", callee.dataType, .input, none⟩))
    (.reference (.variableAccess (stateVariable v nested)))

def stateOut (v callee nested : Variable) : Instruction :=
  .assignmentInstruction .parameterOut (.variableAccess (stateVariable v nested))
    (.reference (.fieldAccess callee
      (.variableAccess ⟨nested.name ++ "_output", callee.dataType, .output, none⟩)))

/-- The assignments of the state around a call of an instance. -/
def passState (v : Variable) (nested : List Variable) (label : ℤ)
    (m : OrderedMap ℤ (List Instruction)) : Except String (OrderedMap ℤ (List Instruction)) :=
  match calledVariable v.name ((m.find? label).getD []) with
  | none => .ok m
  | some callee => do
    let m := nested.foldl (fun m n => insertInstructionAtLabel (stateIn v callee n) label true m) m
    let edge ← cfg.getIntraproceduralCallToReturnEdge label
    .ok (nested.foldl
      (fun m n => insertInstructionAtLabel (stateOut v callee n) edge.targetLabel true m) m)

/-- The labels are those at the beginning: no call stands at a label that is new. -/
def passStates (m : OrderedMap ℤ (List Instruction)) :
    Except String (OrderedMap ℤ (List Instruction)) :=
  cfg.interface.getVariables.foldlM (fun m v =>
    match v.dataType with
    | .derivedType typeName => do
      let nested ← stateOf nameToInterface cfg typeName
      if nested = [] then .ok m else m.keys.foldlM (fun m label => passState cfg v nested label m) m
    | _ => .ok m) m

end States

section Vertices

def copy (target source : Variable) : Instruction :=
  .assignmentInstruction .regular (.variableAccess target) (.reference (.variableAccess source))

/-- Derived types have been sorted out, types without a kind as well. -/
def elementaryVariables (cfg : TypedUnit) : List Variable :=
  cfg.interface.getVariables.filter fun v => !v.dataType.isDerived

def inputAssignments (cfg : TypedUnit) : List Instruction :=
  ((elementaryVariables cfg).filter (isAugmentedInput cfg.type)).map fun v =>
    copy v (augmentedInputVariable v)

def outputAssignments (cfg : TypedUnit) : List Instruction :=
  ((elementaryVariables cfg).filter (isAugmentedOutput cfg.type)).map fun v =>
    copy (augmentedOutputVariable v) v

/-- A program has nothing at its entry and exit, any other unit the assignments of its inputs and
outputs. -/
def vertexInstruction (cfg : TypedUnit) (m : OrderedMap ℤ (List Instruction)) (label : ℤ) :
    Except String (Option BlockInstruction) :=
  if label = cfg.entryLabel ∨ label = cfg.exitLabel then
    if cfg.type = .program then .ok none
    else if (m.find? label).isSome then .error "assertion failed"
    else .ok (some (.sequenceInstruction
      (if label = cfg.entryLabel then inputAssignments cfg else outputAssignments cfg)))
  else (instructionAt m label).map some

def makeVertex (cfg : TypedUnit) (m : OrderedMap ℤ (List Instruction)) (v : BlockVertex) :
    Except String BlockVertex := do
  let instruction ← vertexInstruction cfg m v.label
  .ok { label := v.label, type := v.type, instruction := instruction }

end Vertices

/-- The pass over one unit. It hands on the interfaces of the units it has been over. -/
def transform (cfg : TypedUnit) (nameToInterface : OrderedMap String VariableMap) :
    Except String (TypedUnit × OrderedMap String VariableMap) := do
  let m ← visitVertices nameToInterface cfg
  let vs ← augmentedVariables nameToInterface cfg
  let m ← passStates nameToInterface cfg m
  let vertices ← (cfg.labelToVertex.entries.map Prod.snd).mapM (makeVertex cfg m)
  let interface := VariableMap.empty.emplaceAll vs
  .ok ({ cfg with
          labelToVertex := OrderedMap.empty.emplaceAll (vertices.map fun v => (v.label, v))
          edges := cfg.edges.map TacPass.copyEdge
          interface := interface },
    nameToInterface.emplace cfg.name interface)

def apply (t : CallTree TypedUnit) : Except String (CallTree TypedUnit) :=
  (t.apply transform .empty).map Prod.fst

end CallTransformationPass

end Ahorn
