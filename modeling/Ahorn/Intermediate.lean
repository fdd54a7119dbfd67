import Mathlib.Algebra.Group.Int.Defs
import Mathlib.Logic.Function.Basic
import Mathlib.Data.Int.Notation

set_option autoImplicit false

/-!
# The intermediate representation

Types, variables, expressions and instructions of a compiled program organisation unit, and the
value of an expression under a valuation of the variables. Labels are integers; the negative ones
are the placeholders of the compiler. Integers, times and enumerated values are unbounded integers,
as they are for the symbolic engines.
-/
namespace Ahorn

inductive Value where
  | bool (b : Bool)
  | int (i : Int)
  deriving DecidableEq, Repr

namespace Value

def toBool : Value → Bool
  | bool b => b
  | int i => decide (i ≠ 0)

def toInt : Value → Int
  | bool b => if b then 1 else 0
  | int i => i

end Value

inductive DataType where
  | int | real | bool | time
  | safeBool
  | enumeratedType (name : String)
  | derivedType (name : String)
  | simpleType (name : String)
  | inconclusiveType
  deriving DecidableEq, Repr

/-- The name of a type. No inconclusive type is left when units are built. -/
def DataType.getName : DataType → String
  | int => "INT"
  | real => "REAL"
  | bool => "BOOL"
  | time => "TIME"
  | safeBool => "SAFEBOOL"
  | enumeratedType name | derivedType name | simpleType name => name
  | inconclusiveType => ""

inductive StorageType where
  | input | local | output | temporary
  deriving DecidableEq, Repr

structure Variable where
  name : String
  dataType : DataType
  storageType : StorageType
  initialization : Option Value := none
  deriving DecidableEq, Repr

/-- A variable of the interface, or a field reached through instances. -/
inductive VariableReference where
  | variableAccess (accessed : Variable)
  | fieldAccess (recordAccess : Variable) (variableReference : VariableReference)
  deriving DecidableEq, Repr

namespace VariableReference

def getName : VariableReference → String
  | variableAccess v => v.name
  | fieldAccess r v => r.name ++ "." ++ v.getName

/-- The variable at the end of the path of instances. -/
def getVariable : VariableReference → Variable
  | variableAccess v => v
  | fieldAccess _ v => v.getVariable

end VariableReference

inductive UnaryOperator where
  | negation | unaryPlus | complement
  deriving DecidableEq, Repr

inductive BinaryOperator where
  | exponentiation | multiply | divide | modulo | add | subtract
  | greaterThan | lessThan | greaterThanOrEqualTo | lessThanOrEqualTo
  | equality | inequality | booleanAnd | booleanExclusiveOr | booleanOr
  deriving DecidableEq, Repr

inductive Expression where
  | booleanConstant (value : Bool)
  | integerConstant (value : Int)
  | timeConstant (value : Int)
  | enumeratedValue (index : Int)
  | nondeterministicConstant (dataType : DataType)
  | reference (variableReference : VariableReference)
  | unary (operator : UnaryOperator) (operand : Expression)
  | binary (operator : BinaryOperator) (left right : Expression)
  | change (old new : Expression)
  | booleanToInteger (operand : Expression)
  | integerToBoolean (operand : Expression)
  deriving DecidableEq, Repr

/-- The value of every variable, under its name relative to the unit. -/
abbrev Valuation := String → Value

def UnaryOperator.eval : UnaryOperator → Value → Value
  | negation, v => .int (-v.toInt)
  | unaryPlus, v => .int v.toInt
  | complement, v => .bool (!v.toBool)

def BinaryOperator.eval : BinaryOperator → Value → Value → Value
  | exponentiation, l, r => .int (l.toInt ^ r.toInt.toNat)
  | multiply, l, r => .int (l.toInt * r.toInt)
  | divide, l, r => .int (l.toInt.tdiv r.toInt)
  | modulo, l, r => .int (l.toInt.tmod r.toInt)
  | add, l, r => .int (l.toInt + r.toInt)
  | subtract, l, r => .int (l.toInt - r.toInt)
  | greaterThan, l, r => .bool (decide (l.toInt > r.toInt))
  | lessThan, l, r => .bool (decide (l.toInt < r.toInt))
  | greaterThanOrEqualTo, l, r => .bool (decide (l.toInt ≥ r.toInt))
  | lessThanOrEqualTo, l, r => .bool (decide (l.toInt ≤ r.toInt))
  | equality, l, r => .bool (decide (l = r))
  | inequality, l, r => .bool (decide (l ≠ r))
  | booleanAnd, l, r => .bool (l.toBool && r.toBool)
  | booleanExclusiveOr, l, r => .bool (l.toBool ^^ r.toBool)
  | booleanOr, l, r => .bool (l.toBool || r.toBool)

/-- A change expression has the value of its new operand. A nondeterministic constant is only
assigned as a whole, and then the compiler emits a havoc instruction instead. -/
def Expression.eval (σ : Valuation) : Expression → Value
  | booleanConstant b => .bool b
  | integerConstant i => .int i
  | timeConstant t => .int t
  | enumeratedValue i => .int i
  | nondeterministicConstant _ => .int 0
  | reference r => σ r.getName
  | unary op e => op.eval (e.eval σ)
  | binary op l r => op.eval (l.eval σ) (r.eval σ)
  | change _ new => new.eval σ
  | booleanToInteger e => .int (e.eval σ).toInt
  | integerToBoolean e => .bool (e.eval σ).toBool

inductive AssignmentType where
  | regular | parameterIn | parameterOut
  deriving DecidableEq, Repr

inductive Instruction where
  | assignmentInstruction (type : AssignmentType) (variableReference : VariableReference)
      (expression : Expression)
  | callInstruction (variableAccess : Variable) (gotoIntraprocedural gotoInterprocedural : ℤ)
  | gotoInstruction (label : ℤ)
  | havocInstruction (variableReference : VariableReference)
  | ifInstruction (expression : Expression) (gotoThen gotoElse : ℤ)
  | whileInstruction (expression : Expression) (gotoBodyEntry gotoWhileExit : ℤ)
  deriving DecidableEq, Repr

/-- A valuation together with the values the next havoc instructions will find. -/
structure Memory where
  valuation : Valuation
  havocs : Nat → Value

namespace Memory

def assign (r : VariableReference) (e : Expression) (m : Memory) : Memory :=
  { m with valuation := Function.update m.valuation r.getName (e.eval m.valuation) }

def havoc (r : VariableReference) (m : Memory) : Memory where
  valuation := Function.update m.valuation r.getName (m.havocs 0)
  havocs := fun n => m.havocs (n + 1)

def holds (m : Memory) (e : Expression) : Bool := (e.eval m.valuation).toBool

end Memory

end Ahorn
