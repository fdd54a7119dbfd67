import Mathlib.Data.Int.Order.Basic
import Mathlib.Data.String.Basic
import Ahorn.OrderedMap
import Ahorn.StructuredText

set_option autoImplicit false

/-!
# The compiler of program organisation units

The visitor hands out labels from a counter, guesses jump targets and patches them afterwards. It is
a function on its state; an exception, a failing assertion or undefined behaviour of the original
is an error.
-/
namespace Ahorn

/-- What the compiler reads of the module of a callee. -/
structure CalleeModule where
  inputVariables : List Variable
  outputVariables : List Variable
  entryLabel : ℤ

structure Module where
  labelToInstruction : OrderedMap ℤ Instruction
  entryLabel : ℤ
  exitLabel : ℤ

structure PouCompiler where
  label : ℤ
  nextLabelPlaceholder : ℤ
  nextLabelPlaceholders : List ℤ
  lastStatement : Bool
  labelToInstruction : OrderedMap ℤ Instruction

/-- Replace a target that is the given placeholder. The entry of a loop body is never one. -/
def Instruction.retarget (placeholder next : ℤ) : Instruction → Instruction
  | ifInstruction e t f =>
    ifInstruction e (if t = placeholder then next else t) (if f = placeholder then next else f)
  | whileInstruction e b x => whileInstruction e b (if x = placeholder then next else x)
  | callInstruction v intra inter =>
    callInstruction v (if intra = placeholder then next else intra) inter
  | gotoInstruction l => gotoInstruction (if l = placeholder then next else l)
  | i => i

namespace PouCompiler

def emplace (label : ℤ) (i : Instruction) (st : PouCompiler) : PouCompiler :=
  { st with labelToInstruction := st.labelToInstruction.emplace label i }

def emit (i : Instruction) (st : PouCompiler) : PouCompiler :=
  { st.emplace st.label i with label := st.label + 1 }

def setLastStatement (b : Bool) (st : PouCompiler) : PouCompiler := { st with lastStatement := b }

def skipLabel (st : PouCompiler) : PouCompiler := { st with label := st.label + 1 }

def pushPlaceholder (st : PouCompiler) : PouCompiler :=
  { st with
    nextLabelPlaceholder := st.nextLabelPlaceholder - 1
    nextLabelPlaceholders := (st.nextLabelPlaceholder - 1) :: st.nextLabelPlaceholders }

def top (st : PouCompiler) : Except String ℤ :=
  match st.nextLabelPlaceholders with
  | [] => .error "top of an empty stack"
  | p :: _ => .ok p

/-- Patch the placeholder on top of the stack in every instruction compiled so far, and pop it. -/
def resolveTop (next : ℤ) (st : PouCompiler) : PouCompiler :=
  match st.nextLabelPlaceholders with
  | [] => st
  | p :: ps =>
    { st with
      nextLabelPlaceholders := ps
      labelToInstruction := st.labelToInstruction.mapValues (Instruction.retarget p next) }

def popPlaceholder (st : PouCompiler) : PouCompiler :=
  { st with nextLabelPlaceholders := st.nextLabelPlaceholders.tail }

/-- The target of the instruction with the greatest label, when it is a call or a goto. -/
def targetOfLastInstruction (st : PouCompiler) : Except String ℤ :=
  match st.labelToInstruction.last? with
  | some (_, .callInstruction _ intraprocedural _) => .ok intraprocedural
  | some (_, .gotoInstruction l) => .ok l
  | _ => .error "Invalid instruction, expected call or goto."

def gotoOfLastInstruction (st : PouCompiler) : Except String ℤ :=
  match st.labelToInstruction.last? with
  | some (_, .gotoInstruction l) => .ok l
  | _ => .error "goto_of_last_instruction != nullptr"

def compileAssignment (r : VariableReference) (e : Expression) : Instruction :=
  match e with
  | .nondeterministicConstant _ => .havocInstruction r
  | e => .assignmentInstruction .regular r e

def visitAssignmentStatement (r : VariableReference) (e : Expression) (st : PouCompiler) :
    Except String PouCompiler :=
  let st := st.emit (compileAssignment r e)
  if st.lastStatement then do
    let p ← st.top
    .ok (st.emit (.gotoInstruction p))
  else .ok (st.emit (.gotoInstruction (st.label + 1)))

/-- An assignment of a parameter: the compiled assignment gets the type of the parameter. -/
def visitParameter (type : AssignmentType) (r : VariableReference) (e : Expression)
    (st : PouCompiler) : Except String PouCompiler := do
  let st' ← st.visitAssignmentStatement r e
  match st'.labelToInstruction.find? st.label with
  | some (.assignmentInstruction _ r e) =>
    .ok { st' with
      labelToInstruction :=
        st'.labelToInstruction.assign st.label (.assignmentInstruction type r e) }
  | _ => .error "compiled assignment expected"

def nameSet (vs : List Variable) : OrderedMap String Variable :=
  vs.foldl (fun s v => s.emplace v.name v) .empty

def visitPreAssignments (st : PouCompiler) (names : OrderedMap String Variable) :
    List (VariableReference × Expression) →
      Except String (PouCompiler × OrderedMap String Variable)
  | [] => .ok (st, names)
  | (r, e) :: rest =>
    match r with
    | .fieldAccess _ (.variableAccess v) =>
      if names.find? v.name = none then .error "input_variable_names.count(input_variable_name) != 0"
      else do
        let st ← st.visitParameter .parameterIn r e
        st.visitPreAssignments (names.erase v.name) rest
    | _ => .error "field access expected"

/-- Identity assignments complete the interface of a call. Where `last` is set, the last one of them
is the last statement of the enclosing part. -/
def completeInterface (type : AssignmentType) (callee : Variable) (last : Bool)
    (st : PouCompiler) : List Variable → Except String PouCompiler
  | [] => .ok st
  | v :: rest => do
    let st := if rest.isEmpty then (if last then st.setLastStatement true else st) else st
    let r := VariableReference.fieldAccess callee (.variableAccess v)
    let st ← st.visitParameter type r (.reference r)
    st.completeInterface type callee last rest

def visitPostAssignments (callee : Variable) (last : Bool) (st : PouCompiler)
    (names : OrderedMap String Variable) : List (VariableReference × Expression) →
      Except String (PouCompiler × OrderedMap String Variable)
  | [] => .ok (st, names)
  | (r, e) :: rest =>
    match r, e with
    | .variableAccess _, .reference (.fieldAccess record (.variableAccess v)) =>
      if record.name ≠ callee.name then .error "record access of another instance"
      else if names.find? v.name = none then
        .error "output_variable_names.count(output_variable_name) != 0"
      else do
        let names := names.erase v.name
        let st := if names.entries.isEmpty && rest.isEmpty then st.setLastStatement last else st
        let st ← st.visitParameter .parameterOut r e
        visitPostAssignments callee last st names rest
    | _, _ => .error "variable and field access expected"

def visitInvocationStatement (modules : String → Option CalleeModule) (callee : Variable)
    (pre post : List (VariableReference × Expression)) (st : PouCompiler) :
    Except String PouCompiler :=
  match callee.dataType with
  | .derivedType name =>
    match modules name with
    | none => .error "_name_to_module.at"
    | some calleeModule => do
      let last := st.lastStatement
      let st := st.setLastStatement false
      let (st, inputs) ← st.visitPreAssignments (nameSet calleeModule.inputVariables) pre
      let st ← st.completeInterface .parameterIn callee false (inputs.entries.map Prod.snd)
      let callLabel := st.label
      let st := st.skipLabel
      if calleeModule.outputVariables.isEmpty then
        let st := st.setLastStatement last
        let next ← if last then st.top else .ok st.label
        .ok (st.emplace callLabel (.callInstruction callee next calleeModule.entryLabel))
      else
        let intraprocedural := st.label
        let (st, outputs) ←
          visitPostAssignments callee last st (nameSet calleeModule.outputVariables) post
        let st ← st.completeInterface .parameterOut callee last (outputs.entries.map Prod.snd)
        .ok (st.emplace callLabel
          (.callInstruction callee intraprocedural calleeModule.entryLabel))
  | _ => .error "_name_to_module.at"

/-- The expression an ELSE branches on when every other part is empty: that of the last ELSIF, and
that of the IF only if there is none. -/
def elseExpression (e : Expression) : ElseIfStatements → Expression
  | .nil => e
  | .cons g _ rest => elseExpression g.expression rest

/-- The THEN part of a selection with its header, given the visitor of the part. Without an ELSIF
and an ELSE the false target is that of the last instruction. -/
def visitThenPart (e : Expression) (thn : StatementList) (elseIfs : ElseIfStatements)
    (els : StatementList) (visitThen : PouCompiler → Except String PouCompiler)
    (st : PouCompiler) : Except String PouCompiler :=
  if thn.isEmpty then .ok st
  else do
    let ifLabel := st.label
    let st := st.skipLabel
    let gotoThen := st.label
    let st ← visitThen st
    let gotoElse ←
      if elseIfs.allEmpty && els.isEmpty then st.targetOfLastInstruction else .ok st.label
    .ok (st.emplace ifLabel (.ifInstruction e gotoThen gotoElse))

/-- The ELSE part of a selection, with a header if there is no other part. -/
def visitElsePart (e : Expression) (thn : StatementList) (elseIfs : ElseIfStatements)
    (els : StatementList) (visitElse : PouCompiler → Except String PouCompiler)
    (st : PouCompiler) : Except String PouCompiler :=
  if els.isEmpty then .ok st
  else if thn.isEmpty && elseIfs.allEmpty then do
    let ifLabel := st.label
    let st := st.skipLabel
    let gotoElse := st.label
    let st ← visitElse st
    let gotoThen ← st.gotoOfLastInstruction
    .ok (st.emplace ifLabel (.ifInstruction (elseExpression e elseIfs) gotoThen gotoElse))
  else visitElse st

/-- The parts of a selection in order; the ELSIF parts are dropped if all of them are empty. -/
def visitParts (e : Expression) (thn : StatementList) (elseIfs : ElseIfStatements)
    (els : StatementList) (visitThen visitElseIfs visitElse : PouCompiler → Except String PouCompiler)
    (st : PouCompiler) : Except String PouCompiler := do
  let st ← visitThenPart e thn elseIfs els visitThen st
  let st ← if elseIfs.allEmpty then .ok st else visitElseIfs st
  visitElsePart e thn elseIfs els visitElse st

def visitIf (e : Expression) (thn : StatementList) (elseIfs : ElseIfStatements)
    (els : StatementList) (visitThen visitElseIfs visitElse : PouCompiler → Except String PouCompiler)
    (st : PouCompiler) : Except String PouCompiler :=
  let last := st.lastStatement
  let st := if last then st.setLastStatement false else st.pushPlaceholder
  if thn.isEmpty && elseIfs.allEmpty && els.isEmpty then
    .ok (if last then st else st.popPlaceholder)
  else do
    let st ← visitParts e thn elseIfs els visitThen visitElseIfs visitElse st
    .ok (if last then st.setLastStatement true else st.resolveTop st.label)

def visitWhile (e : Expression) (body : StatementList)
    (visitBody : PouCompiler → Except String PouCompiler) (st : PouCompiler) :
    Except String PouCompiler := do
  let last := st.lastStatement
  let st := st.setLastStatement false
  if body.isEmpty then .ok st
  else
    let st := st.pushPlaceholder
    let header := st.label
    let st := st.skipLabel
    let gotoBodyEntry := st.label
    let st ← visitBody st
    let st := (st.resolveTop header).setLastStatement last
    let next ← if last then st.top else .ok st.label
    .ok (st.emplace header (.whileInstruction e gotoBodyEntry next))

mutual

def visit (modules : String → Option CalleeModule) :
    Statement → PouCompiler → Except String PouCompiler
  | .assertStatement _, _ => .error "Not implemented yet."
  | .assumeStatement _, _ => .error "Not implemented yet."
  | .assignmentStatement r e, st => st.visitAssignmentStatement r e
  | .ifStatement e thn elseIfs els, st =>
    visitIf e thn elseIfs els (visitPart modules thn) (visitElseIfs modules els.isEmpty elseIfs)
      (visitPart modules els) st
  | .invocationStatement callee pre post, st =>
    visitInvocationStatement modules callee pre post st
  | .whileStatement e body, st => visitWhile e body (visitPart modules body) st
  | .caseStatement .nil _, _ => .error "cases.at(0)"
  | .caseStatement (.cons g thn elseIfs) els, st =>
    visitIf g.expression thn elseIfs els (visitPart modules thn)
      (visitElseIfs modules els.isEmpty elseIfs) (visitPart modules els) st

/-- The statements of a part, the last one visited as the last statement. -/
def visitPart (modules : String → Option CalleeModule) :
    StatementList → PouCompiler → Except String PouCompiler
  | .nil, _ => .error "back of an empty vector"
  | .cons s .nil, st => do
    let st ← visit modules s (st.setLastStatement true)
    .ok (st.setLastStatement false)
  | .cons s (.cons s' rest), st => do
    let st ← visit modules s st
    visitPart modules (.cons s' rest) st

/-- The ELSIF parts, all of them as soon as one is not empty. -/
def visitElseIfs (modules : String → Option CalleeModule) (elseEmpty : Bool) :
    ElseIfStatements → PouCompiler → Except String PouCompiler
  | .nil, st => .ok st
  | .cons g part rest, st => do
    let elseIfLabel := st.label
    let st := st.skipLabel
    let gotoThen := st.label
    let st ← visitPart modules part st
    let gotoElse ← if rest.isEmpty && elseEmpty then st.gotoOfLastInstruction else .ok st.label
    visitElseIfs modules elseEmpty rest
      (st.emplace elseIfLabel (.ifInstruction g.expression gotoThen gotoElse))

end

/-- The statements of a unit; none of them is a last statement. -/
def visitBody (modules : String → Option CalleeModule) :
    StatementList → PouCompiler → Except String PouCompiler
  | .nil, st => .ok st
  | .cons s rest, st => do
    let st ← visit modules s st
    visitBody modules rest st

/-- The compiled module of a unit and the state left for the next unit. -/
def compile (modules : String → Option CalleeModule) (body : StatementList) (st : PouCompiler) :
    Except String (Module × PouCompiler) := do
  let entryLabel := st.label
  let st ← visitBody modules body st.skipLabel
  let exitLabel := st.label
  .ok (⟨st.labelToInstruction, entryLabel, exitLabel⟩,
    { st.skipLabel with labelToInstruction := .empty })

/-- The state in which the first unit is compiled. -/
def initial : PouCompiler := ⟨0, -1, [], false, .empty⟩

end PouCompiler

end Ahorn
