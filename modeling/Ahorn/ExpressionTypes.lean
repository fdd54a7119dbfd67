import Ahorn.Intermediate

set_option autoImplicit false

/-!
# The types of expressions

The type that an expression carries, the type of its value, and what it means that the operators of
an expression fit to their operands.
-/
namespace Ahorn

inductive ExpressionType where
  | arithmetic | boolean | undefined
  deriving DecidableEq, Repr

/-- The type of an access. There is none for instances, nor for types that are not resolved. -/
def DataType.getType : DataType → ExpressionType
  | int | real | time | enumeratedType _ => .arithmetic
  | bool | safeBool => .boolean
  | derivedType _ | simpleType _ | inconclusiveType => .undefined

def UnaryOperator.getType : UnaryOperator → ExpressionType
  | negation | unaryPlus => .arithmetic
  | complement => .boolean

def BinaryOperator.getType : BinaryOperator → ExpressionType
  | exponentiation | multiply | divide | modulo | add | subtract => .arithmetic
  | greaterThan | lessThan | greaterThanOrEqualTo | lessThanOrEqualTo | equality | inequality
  | booleanAnd | booleanExclusiveOr | booleanOr => .boolean

/-- Whether an operator is defined on operands of these types. -/
def BinaryOperator.accepts : BinaryOperator → ExpressionType → ExpressionType → Bool
  | .equality, s, t | .inequality, s, t => s == t && s != .undefined
  | .booleanAnd, s, t | .booleanExclusiveOr, s, t | .booleanOr, s, t => s == .boolean && t == .boolean
  | _, s, t => s == .arithmetic && t == .arithmetic

def BinaryOperator.typeOf (op : BinaryOperator) (s t : ExpressionType) : Option ExpressionType :=
  if op.accepts s t then some op.getType else none

namespace Expression

def getType : Expression → ExpressionType
  | booleanConstant _ | booleanToInteger _ => .boolean
  | integerConstant _ | timeConstant _ | enumeratedValue _ | integerToBoolean _ => .arithmetic
  | nondeterministicConstant dataType => dataType.getType
  | reference r => r.getVariable.dataType.getType
  | unary op _ => op.getType
  | binary op _ _ => op.getType
  | change _ _ => .undefined

/-- The type of the value. Other than the type that an expression carries it is changed by a cast,
and a change expression has it, too. -/
def valueType : Expression → ExpressionType
  | booleanConstant _ | integerToBoolean _ => .boolean
  | integerConstant _ | timeConstant _ | enumeratedValue _ | booleanToInteger _ => .arithmetic
  | nondeterministicConstant dataType => dataType.getType
  | reference r => r.getVariable.dataType.getType
  | unary op _ => op.getType
  | binary op _ _ => op.getType
  | change _ new => new.valueType

/-- At every node the operands have the types that the node is defined on. -/
def WellTyped : Expression → Prop
  | unary op e => e.WellTyped ∧ e.valueType = op.getType
  | binary op l r => l.WellTyped ∧ r.WellTyped ∧ op.accepts l.valueType r.valueType = true
  | change old new => old.WellTyped ∧ new.WellTyped ∧ old.valueType = new.valueType
  | booleanToInteger e => e.WellTyped ∧ e.valueType = .boolean
  | integerToBoolean e => e.WellTyped ∧ e.valueType = .arithmetic
  | e => e.valueType ≠ .undefined

/-- The operators with their operands, without what converts the operands. -/
def withoutCasts : Expression → Expression
  | unary op e => unary op e.withoutCasts
  | binary op l r => binary op l.withoutCasts r.withoutCasts
  | change old new => change old.withoutCasts new.withoutCasts
  | booleanToInteger e => e.withoutCasts
  | integerToBoolean e => e.withoutCasts
  | e => e

end Expression

end Ahorn
