import Ahorn.Encoder

set_option autoImplicit false

/-!
# The evaluator

The value of an expression under concrete valuations. It rejects what the encoder rejects, but adds
a Boolean on the left of an addition as what it is.
-/
namespace Ahorn.Evaluator

def evaluateComparison (op : Comparison) : Value → Value → Except String Value
  | .int l, .int r => .ok (.bool (op.eval l r))
  | _, _ => .error "assertion failed"

def evaluateConnective (op : Connective) : Value → Value → Except String Value
  | .bool l, .bool r => .ok (.bool (op.eval l r))
  | _, _ => .error "assertion failed"

def evaluateEquality : Value → Value → Except String Bool
  | .int l, .int r => .ok (decide (l = r))
  | .bool l, .bool r => .ok (decide (l = r))
  | _, _ => .error "assertion failed"

def evaluateBinary (op : BinaryOperator) (l r : Value) : Except String Value :=
  match op with
  | .greaterThanOrEqualTo => evaluateComparison .ge l r
  | .add => .ok (.int (l.toInt + r.toInt))
  | .equality => do
    let b ← evaluateEquality l r
    .ok (.bool b)
  | .booleanAnd => evaluateConnective .and l r
  | .booleanOr => evaluateConnective .or l r
  | .greaterThan => evaluateComparison .gt l r
  | .lessThan => evaluateComparison .lt l r
  | .subtract =>
    match l, r with
    | .int l, .int r => .ok (.int (l - r))
    | _, _ => .error "assertion failed"
  | .booleanExclusiveOr => evaluateConnective .xor l r
  | .inequality => do
    let b ← evaluateEquality l r
    .ok (.bool !b)
  | .lessThanOrEqualTo => evaluateComparison .le l r
  | .exponentiation | .multiply | .divide | .modulo =>
    .error "Unexpected binary operator encountered."

def evaluateUnary (op : UnaryOperator) (v : Value) : Except String Value :=
  match op, v with
  | .negation, .int i => .ok (.int (-i))
  | .complement, .bool b => .ok (.bool !b)
  | .unaryPlus, _ => .error "Not implemented yet."
  | _, _ => .error "assertion failed"

def evaluate (access : VariableReference → Except String Value) :
    Expression → Except String Value
  | .booleanConstant b => .ok (.bool b)
  | .integerConstant i => .ok (.int i)
  | .timeConstant t => .ok (.int t)
  | .enumeratedValue i => .ok (.int i)
  | .nondeterministicConstant _ => .error "Not implemented yet."
  | .reference r => access r
  | .unary op e => do
    let v ← evaluate access e
    evaluateUnary op v
  | .binary op l r => do
    let l ← evaluate access l
    let r ← evaluate access r
    evaluateBinary op l r
  | .change _ _ | .booleanToInteger _ | .integerToBoolean _ => .error "Not implemented yet."

theorem evaluateUnary_eq {op : UnaryOperator} {v w : Value} (h : evaluateUnary op v = .ok w) :
    w = op.eval v := by
  cases op <;> cases v <;> cases h <;> rfl

theorem evaluateBinary_eq {op : BinaryOperator} {l r v : Value}
    (h : evaluateBinary op l r = .ok v) : v = op.eval l r := by
  cases op with
  | exponentiation | multiply | divide | modulo => cases h
  | add =>
    cases h
    rfl
  | subtract =>
    cases l <;> cases r <;> cases h
    rfl
  | greaterThan | lessThan | greaterThanOrEqualTo | lessThanOrEqualTo | booleanAnd
  | booleanExclusiveOr | booleanOr =>
    cases l <;> cases r <;> cases h
    rfl
  | equality | inequality =>
    cases l <;> cases r <;> cases h <;> simp [BinaryOperator.eval]

theorem evaluate_eq {access : VariableReference → Except String Value} {σ : Valuation}
    (e : Expression) (hacc : ∀ r ∈ e.references, ∀ v, access r = .ok v → v = σ r.getName) {v : Value}
    (h : evaluate access e = .ok v) : v = e.eval σ := by
  induction e generalizing v with
  | booleanConstant _ | integerConstant _ | timeConstant _ | enumeratedValue _ =>
    cases h
    rfl
  | nondeterministicConstant _ | booleanToInteger _ | integerToBoolean _ | change _ _ => cases h
  | reference r => exact hacc r (List.mem_singleton.mpr rfl) v h
  | unary op e ih =>
    obtain ⟨u, hu, h⟩ := bind_eq_ok h
    rw [evaluateUnary_eq h, ih hacc hu]
    rfl
  | binary op l r ihl ihr =>
    obtain ⟨u, hu, h⟩ := bind_eq_ok h
    obtain ⟨w, hw, h⟩ := bind_eq_ok h
    rw [evaluateBinary_eq h, ihl (fun q hq => hacc q (List.mem_append_left _ hq)) hu,
      ihr (fun q hq => hacc q (List.mem_append_right _ hq)) hw]
    rfl

end Ahorn.Evaluator
