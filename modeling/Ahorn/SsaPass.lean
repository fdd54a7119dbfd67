import Mathlib.Data.List.Infix
import Ahorn.CallTransformationPass

set_option autoImplicit false

/-!
# Static single assignment

The pass gives every definition a variable of its own. It goes through the blocks from the entry on
and looks a variable up where it is read: in the block, and else in the blocks before it, where
several of them meet with a phi.
-/
namespace Ahorn

/-- The operands of a phi stand under the labels of the blocks they come from. -/
inductive SsaInstruction where
  | instruction (i : Instruction)
  | phi (v : Variable) (labelToOperand : OrderedMap ℤ Variable)
  deriving DecidableEq

structure SsaVertex where
  label : ℤ
  type : VertexType
  instructions : List SsaInstruction

structure SsaUnit where
  labelToVertex : OrderedMap ℤ SsaVertex
  edges : List Edge
  entryLabel : ℤ
  exitLabel : ℤ
  type : CfgType
  name : String
  interface : VariableMap

def constantName (value : ℕ) : String := "const" ++ toString value

def nameContains (text name : String) : Bool := decide (text.toList <:+: name.toList)

/-- The names that come from the transformation of calls. -/
def keepsName (name : String) : Bool := nameContains "_input" name || nameContains "_output" name

namespace SsaPass

/-- A phi whose operands are still collected, or that may turn out to be trivial. -/
structure PhiCandidate where
  name : String
  label : ℤ
  value : ℕ
  valuesOfOperands : List ℕ := []
  valuesOfUsers : List ℕ := []

namespace PhiCandidate

def appendValuesOfOperands (operand : ℕ) (phi : PhiCandidate) : PhiCandidate :=
  { phi with valuesOfOperands := phi.valuesOfOperands ++ [operand] }

def addValuesOfUsers (user : ℕ) (phi : PhiCandidate) : PhiCandidate :=
  { phi with valuesOfUsers := phi.valuesOfUsers ++ [user] }

def replaceValueOfUsedPhiCandidate (value same : ℕ) (phi : PhiCandidate) : PhiCandidate :=
  { phi with valuesOfOperands :=
      phi.valuesOfOperands.map fun v => if v = value then same else v }

end PhiCandidate

/-- An erased phi candidate lives on as long as its operands are collected. -/
structure State where
  value : ℕ
  valueToVariable : OrderedMap ℕ Variable
  labelToInstructions : OrderedMap ℤ (List SsaInstruction)
  filledBasicBlocks : List ℤ
  sealedBasicBlocks : List ℤ
  currentDefinitions : OrderedMap String (OrderedMap ℤ ℕ)
  valueToPhiCandidate : OrderedMap ℕ PhiCandidate
  erasedPhiCandidates : List ℕ

namespace State

/-- Nothing is known of a unit before the pass begins with it, and the values go on. -/
def start (value : ℕ) : State := ⟨value, .empty, .empty, [], [], .empty, .empty, []⟩

def insertInstruction (i : SsaInstruction) (label : ℤ) (inFront : Bool) (s : State) : State :=
  { s with labelToInstructions := insertInstructionAtLabel i label inFront s.labelToInstructions }

def writeVariable (name : String) (label : ℤ) (value : ℕ) (s : State) : State :=
  let definitions := (s.currentDefinitions.find? name).getD .empty
  { s with currentDefinitions := s.currentDefinitions.assign name (definitions.assign label value) }

def define (v : Variable) (s : State) : State :=
  { s with value := s.value + 1, valueToVariable := s.valueToVariable.emplace s.value v }

def fill (label : ℤ) (s : State) : State :=
  { s with filledBasicBlocks := label :: s.filledBasicBlocks }

def sealBasicBlock (label : ℤ) (s : State) : State :=
  { s with sealedBasicBlocks := label :: s.sealedBasicBlocks }

def findPhiCandidate (value : ℕ) (s : State) : Option PhiCandidate :=
  if value ∈ s.erasedPhiCandidates then none else s.valueToPhiCandidate.find? value

def modifyPhiCandidate (value : ℕ) (f : PhiCandidate → PhiCandidate) (s : State) : State :=
  match s.valueToPhiCandidate.find? value with
  | none => s
  | some phi => { s with valueToPhiCandidate := s.valueToPhiCandidate.assign value (f phi) }

def erasePhiCandidate (value : ℕ) (s : State) : State :=
  { s with
    erasedPhiCandidates := value :: s.erasedPhiCandidates
    valueToVariable := s.valueToVariable.erase value }

def variableAt (value : ℕ) (s : State) : Except String Variable :=
  match s.valueToVariable.find? value with
  | none => .error "map::at"
  | some v => .ok v

end State

section TrivialPhis

/-- What all operands but the phi itself are; `none` where two of them differ. -/
def findSame (value : ℕ) : List ℕ → Option ℕ → Option (Option ℕ)
  | [], same => some same
  | v :: vs, same =>
    if some v = same ∨ v = value then findSame value vs same
    else if same.isSome then none
    else findSame value vs (some v)

/-- The phis that use a trivial phi use what it stands for instead. -/
def reroute (value same : ℕ) (s : State) (user : ℕ) : Except String State :=
  match s.findPhiCandidate user with
  | none => .error "Not implemented yet."
  | some _ => .ok (s.modifyPhiCandidate user (·.replaceValueOfUsedPhiCandidate value same))

/-- A user that has not been erased may have become trivial. -/
def retry (tryRemove : ℕ → State → Except String (ℕ × State)) (s : State) (user : ℕ) :
    Except String State :=
  match s.findPhiCandidate user with
  | none => .ok s
  | some _ => (tryRemove user s).map Prod.snd

def tryRemoveTrivialPhi : ℕ → ℕ → State → Except String (ℕ × State)
  | 0, _, _ => .error "out of fuel"
  | fuel + 1, value, s =>
    match s.valueToPhiCandidate.find? value with
    | none => .error "Expected phi candidate does not exist."
    | some phi =>
      match findSame value phi.valuesOfOperands none with
      | none => .ok (value, s)
      | some none => .error "Not implemented yet."
      | some (some same) => do
        let users := phi.valuesOfUsers.erase value
        let s ← users.foldlM (reroute value same) s
        let s ← users.foldlM (retry (tryRemoveTrivialPhi fuel)) (s.erasePhiCandidate value)
        .ok (same, s)

end TrivialPhis

section Reading

variable (cfg : TypedUnit)

def placeOperandlessPhi (name : String) (label : ℤ) (s : State) : Except String (ℕ × State) :=
  match cfg.interface.getVariables.find? (·.name = name) with
  | none => .error "Variable does not exist in this cfg."
  | some v =>
    let phi : PhiCandidate := { name := name, label := label, value := s.value }
    let m := s.valueToPhiCandidate.emplace s.value phi
    .ok (s.value, { s.define ⟨versioned name s.value, v.dataType, v.storageType, none⟩ with
      valueToPhiCandidate := m })

/-- A phi uses its operand if that is a phi, too. -/
def appendOperand (value operand : ℕ) (s : State) : State :=
  let s' := s.modifyPhiCandidate value (·.appendValuesOfOperands operand)
  if operand = value ∨ s'.findPhiCandidate operand = none then s'
  else s'.modifyPhiCandidate operand (·.addValuesOfUsers value)

/-- The operands of a phi, one for each edge into its block. `read` looks a variable up. -/
def addPhiOperands (read : String → ℤ → State → Except String (ℕ × State)) (name : String)
    (value : ℕ) (s : State) : Except String (ℕ × State) :=
  match s.findPhiCandidate value with
  | none => .error "Expected phi candidate does not exist."
  | some phi => do
    let s ← (cfg.getPrecedingLabels phi.label).foldlM (fun s precedingLabel => do
      let (operand, s) ← read name precedingLabel s
      .ok (appendOperand value operand s)) s
    -- every nested removal erases a candidate
    tryRemoveTrivialPhi (s.valueToPhiCandidate.entries.length + 1) value s

/-- Where control comes from, returns from callees left out. -/
def readingLabels (label : ℤ) : List ℤ :=
  ((cfg.getIncomingEdges label).filter (·.type ≠ .interproceduralReturn)).map (·.sourceLabel)

/-- Several blocks, or none, meet in a phi. It is the definition of its block while its operands are
looked up. -/
def readBefore (read : String → ℤ → State → Except String (ℕ × State)) (name : String) (label : ℤ)
    (s : State) : Except String (ℕ × State) :=
  match readingLabels cfg label with
  | [precedingLabel] => read name precedingLabel s
  | _ => do
    let (value, s) ← placeOperandlessPhi cfg name label s
    addPhiOperands cfg read name value (s.writeVariable name label value)

def readVariableRecursive (read : String → ℤ → State → Except String (ℕ × State))
    (name : String) (label : ℤ) (s : State) : Except String (ℕ × State) :=
  if label ∈ s.sealedBasicBlocks then do
    let (value, s) ← readBefore cfg read name label s
    .ok (value, s.writeVariable name label value)
  else .error "Not implemented yet."

def readVariable : ℕ → String → ℤ → State → Except String (ℕ × State)
  | 0, _, _, _ => .error "out of fuel"
  | fuel + 1, name, label, s =>
    match s.currentDefinitions.find? name with
    | none => .error "No definition for variable exists."
    | some definitions =>
      match definitions.find? label with
      | some value => .ok (value, s)
      | none => readVariableRecursive cfg (readVariable fuel) name label s

end Reading

section Instructions

-- The names of the units the pass has been over.
variable (cfg : TypedUnit) (names : List String) (fuel : ℕ) (label : ℤ)

def introduceConstant (dataType : DataType) (e : Expression) (s : State) : Expression × State :=
  let v : Variable := ⟨constantName s.value, dataType, .temporary, none⟩
  let i : Instruction := .assignmentInstruction .regular (.variableAccess v) e
  (.reference (.variableAccess v),
    ((s.define v).insertInstruction (.instruction i) label false).writeVariable v.name label s.value)

def encode : Expression → State → Except String (Expression × State)
  | .binary op l r, s => do
    let (left, s) ← encode l s
    let (right, s) ← encode r s
    .ok (.binary op left right, s)
  | .unary op e, s => do
    let (encoded, s) ← encode e s
    .ok (.unary op encoded, s)
  | .booleanConstant b, s => .ok (introduceConstant label .bool (.booleanConstant b) s)
  | .integerConstant i, s => .ok (introduceConstant label .int (.integerConstant i) s)
  | .enumeratedValue i, s => .ok (introduceConstant label .int (.enumeratedValue i) s)
  | .reference (.variableAccess v), s => do
    let (value, s) ← readVariable cfg fuel v.name label s
    let v ← s.variableAt value
    .ok (.reference (.variableAccess v), s)
  | .reference (.fieldAccess record r), s => .ok (.reference (.fieldAccess record r), s)
  | .timeConstant _, _ | .nondeterministicConstant _, _ | .change _ _, _ | .booleanToInteger _, _
  | .integerToBoolean _, _ => .error "Not implemented yet."

/-- The outputs that the transformation of calls has made explicit keep their names. -/
def assignedName (name : String) (value : ℕ) : String :=
  if nameContains "_output" name then name else versioned name value

def freshVariable (name : String) (v : Variable) : Variable :=
  ⟨name, v.dataType, v.storageType, none⟩

/-- The next value is that of a variable which an instruction writes. -/
def writeFresh (name : String) (fresh : Variable) (i : Instruction) (s : State) : State :=
  ((s.define fresh).insertInstruction (.instruction i) label false).writeVariable name label s.value

/-- The callee of a record has to be one that the pass has been over. -/
def freshFieldAccess (record : Variable) (r : VariableReference) : Except String VariableReference :=
  if record.dataType.getName ∈ names then
    .ok (.fieldAccess record
      (.variableAccess (freshVariable r.getVariableAccess.name r.getVariableAccess)))
  else .error "map::at"

def visitAssignment (type : AssignmentType) (r : VariableReference) (e : Expression) (s : State) :
    Except String State :=
  match type with
  | .regular => do
    let (encoded, s) ← encode cfg fuel label e s
    match r with
    | .fieldAccess _ _ => .error "Not implemented yet."
    | .variableAccess v =>
      let fresh := freshVariable (assignedName v.name s.value) v
      .ok (writeFresh label v.name fresh
        (.assignmentInstruction .regular (.variableAccess fresh) encoded) s)
  | .parameterIn => do
    let (encoded, s) ← encode cfg fuel label e s
    match r with
    | .variableAccess _ => .error "assertion failed"
    | .fieldAccess record r' =>
      let field ← freshFieldAccess names record r'
      .ok (s.insertInstruction (.instruction (.assignmentInstruction .parameterIn field encoded))
        label false)
  | .parameterOut =>
    match e with
    | .reference (.fieldAccess record e') => do
      let field ← freshFieldAccess names record e'
      match r with
      | .variableAccess v =>
        let fresh := freshVariable (versioned v.name s.value) v
        .ok (writeFresh label r.getName fresh (.assignmentInstruction .parameterOut
          (.variableAccess fresh) (.reference field)) s)
      | .fieldAccess record' r' =>
        let v := r'.getVariableAccess
        let fresh := freshVariable (versioned v.name s.value) v
        .ok (writeFresh label r.getName fresh (.assignmentInstruction .parameterOut
          (.fieldAccess record' (.variableAccess fresh)) (.reference field)) s)
    | _ => .error "Not implemented yet."

def visit (i : Instruction) (s : State) : Except String State :=
  match i with
  | .assignmentInstruction type r e => visitAssignment cfg names fuel label type r e s
  | .callInstruction _ _ _ => .ok (s.insertInstruction (.instruction i) label false)
  | .ifInstruction e gotoThen gotoElse => do
    let (encoded, s) ← encode cfg fuel label e s
    .ok (s.insertInstruction (.instruction (.ifInstruction encoded gotoThen gotoElse)) label false)
  | .whileInstruction _ _ _ | .gotoInstruction _ => .error "Not implemented yet."
  | .havocInstruction (.variableAccess v) =>
    let fresh := freshVariable (assignedName v.name s.value) v
    .ok (writeFresh label v.name fresh (.havocInstruction (.variableAccess fresh)) s)
  | .havocInstruction (.fieldAccess _ _) => .error "Not implemented yet."

def visitBlock (v : BlockVertex) (s : State) : Except String State :=
  v.instructions.foldlM (fun s i => visit cfg names fuel v.label i s) s

end Instructions

section Worklist

variable (cfg : TypedUnit) (names : List String) (fuel : ℕ)

/-- The value of a variable at the entry. Only a program has its inputs and outputs for itself. -/
def initialVariable (v : Variable) (value : ℕ) : Variable :=
  if keepsName v.name then v
  else if cfg.type ≠ .program ∧ (v.storageType = .input ∨ v.storageType = .output) then
    { v with name := versioned v.name value, storageType := .local }
  else { v with name := versioned v.name value }

def defineInitially (s : State) (v : Variable) : State :=
  (s.define (initialVariable cfg v s.value)).writeVariable v.name cfg.entryLabel s.value

def writeInitialVariables (value : ℕ) : State :=
  (cfg.interface.getVariables.filter (·.storageType ≠ .temporary)).foldl (defineInitially cfg)
    (.start value)

/-- A block without instructions needs no visit. -/
def fillEmpty (label : ℤ) (s : State) : Except String State := do
  let v ← cfg.getVertex label
  .ok (if v.instruction.isNone then s.fill label else s)

/-- The blocks behind a call come after that call only. -/
def returnLabels : List ℤ :=
  (cfg.edges.filter (·.type = .intraproceduralCallToReturn)).map (·.targetLabel)

def prepare (value : ℕ) : Except String State := do
  let s := (writeInitialVariables cfg value).sealBasicBlock cfg.entryLabel
  let s ← fillEmpty cfg cfg.entryLabel s
  let s ← fillEmpty cfg cfg.exitLabel s
  .ok ((returnLabels cfg).foldl (fun s label => s.sealBasicBlock label) s)

def isSealable (label : ℤ) (s : State) : Bool :=
  (cfg.getPrecedingLabels label).all fun precedingLabel => precedingLabel ∈ s.filledBasicBlocks

def nextLabels (label : ℤ) : List ℤ :=
  ((cfg.getOutgoingEdges label).filter fun e =>
    e.type ≠ .interproceduralCall ∧ e.type ≠ .interproceduralReturn).map (·.targetLabel)

def processEntry (label : ℤ) (s : State) : Except String (List ℤ × State) := do
  let v ← cfg.getVertex label
  let s ← visitBlock cfg names fuel v s
  match cfg.getSucceedingLabels label with
  | [next] => .ok ([next], s.fill label)
  | _ => .error "assertion failed"

def processUnsealed (label : ℤ) (s : State) : Except String (List ℤ × State) :=
  if label = cfg.exitLabel then do
    let v ← cfg.getVertex label
    let s ← visitBlock cfg names fuel v s
    .ok ([], s.fill label)
  else .ok ([label], s)

def processSealed (label : ℤ) (s : State) : Except String (List ℤ × State) :=
  if label ∈ s.filledBasicBlocks then .ok ([], s)
  else do
    let v ← cfg.getVertex label
    if v.instruction.isNone then .error "assertion failed"
    else do
      let s ← visitBlock cfg names fuel v s
      .ok (nextLabels cfg label, s.fill label)

/-- The labels that come behind the others in the queue, and what is known then. -/
def processLabel (label : ℤ) (s : State) : Except String (List ℤ × State) :=
  if label = cfg.entryLabel then processEntry cfg names fuel label s
  else
    let s := if isSealable cfg label s then s.sealBasicBlock label else s
    if label ∈ s.sealedBasicBlocks then processSealed cfg names fuel label s
    else processUnsealed cfg names fuel label s

def process : ℕ → List ℤ → State → Except String State
  | _, [], s => .ok s
  | 0, _ :: _, _ => .error "out of fuel"
  | n + 1, label :: q, s => do
    let (labels, s) ← processLabel cfg names fuel label s
    process n (q ++ labels) s

/-- The variables of the unit are read at its exit. -/
def readFinally (s : State) : Except String State :=
  (cfg.interface.getVariables.filter fun v =>
    v.storageType ≠ .temporary ∧ v.dataType.isDerived = false).foldlM (fun s v =>
      (readVariable cfg fuel v.name cfg.exitLabel s).map Prod.snd) s

end Worklist

section Phis

/-- An operand stands under the lowest label at which it is defined. -/
def placeOperand (v : Variable) (value : ℕ) (labelToOperand : OrderedMap ℤ Variable)
    (labelToValue : ℤ × ℕ) : OrderedMap ℤ Variable :=
  if labelToValue.2 = value then
    match labelToOperand.entries.find? (·.2.name = v.name) with
    | none => labelToOperand.emplace labelToValue.1 v
    | some (label, _) =>
      if labelToValue.1 < label then (labelToOperand.erase label).emplace labelToValue.1 v
      else labelToOperand
  else labelToOperand

/-- The definitions of an operand are found under what stands in front of the first underscore of
its name. -/
def addOperand (s : State) (labelToOperand : OrderedMap ℤ Variable) (value : ℕ) :
    Except String (OrderedMap ℤ Variable) := do
  let v ← s.variableAt value
  if '_' ∈ v.name.toList then
    match s.currentDefinitions.find? (decontextualize v.name) with
    | none => .error "map::at"
    | some definitions => .ok (definitions.entries.foldl (placeOperand v value) labelToOperand)
  else .error "assertion failed"

def insertPhi (s : State) (phi : PhiCandidate) : Except String State := do
  let labelToOperand ← phi.valuesOfOperands.foldlM (addOperand s) .empty
  let v ← s.variableAt phi.value
  .ok (s.insertInstruction (.phi v labelToOperand) phi.label true)

def phiCandidates (s : State) : List PhiCandidate :=
  (s.valueToPhiCandidate.entries.filter fun x => x.1 ∉ s.erasedPhiCandidates).map Prod.snd

def insertPhis (s : State) : Except String State := (phiCandidates s).foldlM insertPhi s

end Phis

section Units

variable (cfg : TypedUnit)

/-- Inputs and outputs that are not explicit are the unit's own. -/
def finalVariable (v : Variable) : Variable :=
  if cfg.type ≠ .program ∧ keepsName v.name = false ∧
      (v.storageType = .input ∨ v.storageType = .output) then { v with storageType := .local }
  else v

def finalVariables (s : State) : List Variable :=
  s.valueToVariable.entries.map fun x => finalVariable cfg x.2

def makeVertex (s : State) (v : BlockVertex) : Except String SsaVertex :=
  match s.labelToInstructions.find? v.label with
  | some instructions => .ok ⟨v.label, v.type, instructions⟩
  | none =>
    if v.label = cfg.entryLabel ∨ v.label = cfg.exitLabel then .ok ⟨v.label, v.type, []⟩
    else .error "map::at"

/-- What is known when all blocks have been visited and the phis have been inserted. -/
def finalState (names : List String) (fuel value : ℕ) : Except String State := do
  let s ← prepare cfg value
  let s ← process cfg names fuel fuel [cfg.entryLabel] s
  let s ← readFinally cfg fuel s
  insertPhis s

/-- The pass over one unit. It hands on the names of the units it has been over and the next
value. -/
def transform (fuel : ℕ) (names : List String × ℕ) :
    Except String (SsaUnit × (List String × ℕ)) := do
  let s ← finalState cfg names.1 fuel names.2
  let vertices ← (cfg.labelToVertex.entries.map Prod.snd).mapM (makeVertex cfg s)
  .ok ({  labelToVertex := OrderedMap.empty.emplaceAll (vertices.map fun v => (v.label, v))
          edges := cfg.edges.map TacPass.copyEdge
          entryLabel := cfg.entryLabel
          exitLabel := cfg.exitLabel
          type := cfg.type
          name := cfg.name
          interface := VariableMap.empty.emplaceAll (finalVariables cfg s) },
    (cfg.name :: names.1, s.value))

end Units

def apply (fuel : ℕ) (t : CallTree TypedUnit) : Except String (CallTree SsaUnit) :=
  (t.apply (fun cfg s => transform cfg fuel s) ([], 0)).map Prod.fst

end SsaPass

end Ahorn
