import Ahorn.Intermediate
import Ahorn.Results
import Ahorn.Terms

set_option autoImplicit false

/-!
# The encoder

The translation of expressions into terms. The engines share it and differ in how they name the
current version of a variable, and in the operand of a change expression they take.
-/
namespace Ahorn

def SmtSort.value : {s : SmtSort} → s.Carrier → Value
  | bool, b => .bool b
  | int, i => .int i

theorem SmtSort.value_injective {s : SmtSort} {a b : s.Carrier} (h : s.value a = s.value b) :
    a = b := by
  cases s with
  | bool => exact Value.bool.inj h
  | int => exact Value.int.inj h

/-- The sort a data type is encoded in. Times and enumerated values are integers. -/
def DataType.sort : DataType → Except String SmtSort
  | int | time | enumeratedType _ => .ok .int
  | bool | safeBool => .ok .bool
  | real => .error "Unsupported elementary type."
  | derivedType _ | inconclusiveType | simpleType _ => .error "Unsupported data type."

def makeConstant {N : Type} (name : N) (dataType : DataType) : Except String (SortedTerm N) := do
  let s ← dataType.sort
  .ok ⟨s, .constant s name⟩

namespace Encoder

variable {N : Type} (simplifier : Simplifier N)

def makeInteger (t : Term N .bool) : Term N .int := .ite t (.integerValue 1) (.integerValue 0)

def encodeComparison (op : Comparison) : SortedTerm N → SortedTerm N → Except String (SortedTerm N)
  | ⟨.int, l⟩, ⟨.int, r⟩ => .ok ⟨.bool, simplifier.simplify (.comparison op l r)⟩
  | _, _ => .error "assertion failed"

def encodeConnective (op : Connective) : SortedTerm N → SortedTerm N → Except String (SortedTerm N)
  | ⟨.bool, l⟩, ⟨.bool, r⟩ => .ok ⟨.bool, simplifier.simplify (.connective op l r)⟩
  | _, _ => .error "assertion failed"

def encodeEquality : SortedTerm N → SortedTerm N → Except String (Term N .bool)
  | ⟨.int, l⟩, ⟨.int, r⟩ => .ok (.eq l r)
  | ⟨.bool, l⟩, ⟨.bool, r⟩ => .ok (.eq l r)
  | _, _ => .error "assertion failed"

/-- A Boolean left operand is dropped: the right one stands in its place. On an integer right operand
the solver then refuses the condition that is not a Boolean. -/
def encodeAdd : SortedTerm N → SortedTerm N → Except String (SortedTerm N)
  | ⟨.int, l⟩, ⟨.int, r⟩ => .ok ⟨.int, simplifier.simplify (.arithmetic .add l r)⟩
  | ⟨.int, l⟩, ⟨.bool, r⟩ => .ok ⟨.int, simplifier.simplify (.arithmetic .add l (makeInteger r))⟩
  | ⟨.bool, _⟩, ⟨.int, _⟩ => .error "Sort mismatch"
  | ⟨.bool, _⟩, ⟨.bool, r⟩ =>
    .ok ⟨.int, simplifier.simplify (.arithmetic .add (makeInteger r) (makeInteger r))⟩

def encodeBinary (op : BinaryOperator) (l r : SortedTerm N) : Except String (SortedTerm N) :=
  match op with
  | .greaterThanOrEqualTo => encodeComparison simplifier .ge l r
  | .add => encodeAdd simplifier l r
  | .equality => do
    let t ← encodeEquality l r
    .ok ⟨.bool, simplifier.simplify t⟩
  | .booleanAnd => encodeConnective simplifier .and l r
  | .booleanOr => encodeConnective simplifier .or l r
  | .greaterThan => encodeComparison simplifier .gt l r
  | .lessThan => encodeComparison simplifier .lt l r
  | .subtract =>
    match l, r with
    | ⟨.int, l⟩, ⟨.int, r⟩ => .ok ⟨.int, simplifier.simplify (.arithmetic .sub l r)⟩
    | _, _ => .error "assertion failed"
  | .booleanExclusiveOr => encodeConnective simplifier .xor l r
  | .inequality => do
    let t ← encodeEquality l r
    .ok ⟨.bool, simplifier.simplify (.not t)⟩
  | .lessThanOrEqualTo => encodeComparison simplifier .le l r
  | .exponentiation | .multiply | .divide | .modulo =>
    .error "Unexpected binary operator encountered."

def encodeUnary (op : UnaryOperator) (t : SortedTerm N) : Except String (SortedTerm N) :=
  match op, t with
  | .negation, ⟨.int, t⟩ => .ok ⟨.int, simplifier.simplify (.neg t)⟩
  | .complement, ⟨.bool, t⟩ => .ok ⟨.bool, simplifier.simplify (.not t)⟩
  | .unaryPlus, _ => .error "Not implemented yet."
  | _, _ => .error "assertion failed"

/-- The operand of a change expression that is encoded; an engine without this choice rejects such
expressions. -/
inductive ChangeOperand where
  | rejected | old | new
  deriving DecidableEq, Repr

def encode (change : ChangeOperand) (access : VariableReference → Except String (SortedTerm N)) :
    Expression → Except String (SortedTerm N)
  | .booleanConstant b => .ok ⟨.bool, .booleanValue b⟩
  | .integerConstant i => .ok ⟨.int, .integerValue i⟩
  | .timeConstant t => .ok ⟨.int, .integerValue t⟩
  | .enumeratedValue i => .ok ⟨.int, .integerValue i⟩
  | .nondeterministicConstant _ => .error "Not implemented yet."
  | .reference r => access r
  | .unary op e => do
    let t ← encode change access e
    encodeUnary simplifier op t
  | .binary op l r => do
    let l ← encode change access l
    let r ← encode change access r
    encodeBinary simplifier op l r
  | .change old new =>
    match change with
    | .rejected => .error "Not implemented yet."
    | .old => encode change access old
    | .new => encode change access new
  | .booleanToInteger _ | .integerToBoolean _ => .error "Not implemented yet."

end Encoder

/-- What the encoder makes of an operator: the left operand of an addition is lost when it is a
Boolean. -/
def BinaryOperator.encoded (op : BinaryOperator) (l r : Value) : Value :=
  match op, l with
  | .add, .bool _ => .int (r.toInt + r.toInt)
  | _, _ => op.eval l r

def Expression.encoded (change : Encoder.ChangeOperand) (σ : Valuation) : Expression → Value
  | booleanConstant b => .bool b
  | integerConstant i => .int i
  | timeConstant t => .int t
  | enumeratedValue i => .int i
  | nondeterministicConstant _ => .int 0
  | reference r => σ r.getName
  | unary op e => op.eval (e.encoded change σ)
  | binary op l r => op.encoded (l.encoded change σ) (r.encoded change σ)
  | .change old new => if change = .old then old.encoded change σ else new.encoded change σ
  | booleanToInteger e => .int (e.encoded change σ).toInt
  | integerToBoolean e => .bool (e.encoded change σ).toBool

def Expression.sort (change : Encoder.ChangeOperand) : Expression → SmtSort
  | booleanConstant _ | integerToBoolean _ => .bool
  | integerConstant _ | timeConstant _ | enumeratedValue _ | nondeterministicConstant _
  | booleanToInteger _ => .int
  | reference r => r.getVariable.dataType.sort.toOption.getD .int
  | unary op _ => if op = .complement then .bool else .int
  | binary op _ _ =>
    match op with
    | .exponentiation | .multiply | .divide | .modulo | .add | .subtract => .int
    | _ => .bool
  | .change old new => if change = .old then old.sort change else new.sort change

def Expression.references : Expression → List VariableReference
  | reference r => [r]
  | unary _ e | booleanToInteger e | integerToBoolean e => e.references
  | binary _ l r | .change l r => l.references ++ r.references
  | _ => []

/-- Every addition with a Boolean on its left has operands of the same value. -/
def Expression.addsAlike (change : Encoder.ChangeOperand) (σ : Valuation) : Expression → Bool
  | unary _ e | booleanToInteger e | integerToBoolean e => e.addsAlike change σ
  | binary op l r =>
    (match op, l.encoded change σ with
      | .add, .bool b => (r.encoded change σ).toInt = (Value.bool b).toInt
      | _, _ => true) && l.addsAlike change σ && r.addsAlike change σ
  | .change old new => if change = .old then old.addsAlike change σ else new.addsAlike change σ
  | _ => true

theorem Expression.encoded_eq_eval {change : Encoder.ChangeOperand} {σ : Valuation}
    (hchange : change ≠ .old) (e : Expression) (h : e.addsAlike change σ = true) :
    e.encoded change σ = e.eval σ := by
  induction e with
  | booleanConstant _ | integerConstant _ | timeConstant _ | enumeratedValue _
  | nondeterministicConstant _ | reference _ => rfl
  | unary op e ih => rw [encoded, eval, ih h]
  | booleanToInteger e ih | integerToBoolean e ih => rw [encoded, eval, ih h]
  | binary op l r ihl ihr =>
    simp only [addsAlike, Bool.and_eq_true] at h
    obtain ⟨⟨hop, hl⟩, hr⟩ := h
    rw [encoded, eval, ← ihl hl, ← ihr hr]
    generalize l.encoded change σ = a at hop ⊢
    generalize r.encoded change σ = b at hop ⊢
    cases op with
    | add =>
      cases a with
      | int i => rfl
      | bool b' =>
        have hb : b.toInt = (Value.bool b').toInt := by simpa using hop
        exact congrArg Value.int (congrArg (· + b.toInt) hb)
    | _ => rfl
  | change old new ihold ihnew =>
    rw [addsAlike, if_neg hchange] at h
    rw [encoded, if_neg hchange, eval, ihnew h]

theorem Expression.encoded_congr {change : Encoder.ChangeOperand} {σ σ' : Valuation}
    (e : Expression) (h : ∀ r ∈ e.references, σ r.getName = σ' r.getName) :
    e.encoded change σ = e.encoded change σ' := by
  induction e with
  | booleanConstant _ | integerConstant _ | timeConstant _ | enumeratedValue _
  | nondeterministicConstant _ => rfl
  | reference r => exact h r (List.mem_singleton.mpr rfl)
  | unary op e ih | booleanToInteger e ih | integerToBoolean e ih => rw [encoded, encoded, ih h]
  | binary op l r ihl ihr | change l r ihl ihr =>
    rw [encoded, encoded, ihl fun q hq => h q (List.mem_append_left _ hq),
      ihr fun q hq => h q (List.mem_append_right _ hq)]

theorem Expression.addsAlike_congr {change : Encoder.ChangeOperand} {σ σ' : Valuation}
    (e : Expression) (h : ∀ r ∈ e.references, σ r.getName = σ' r.getName) :
    e.addsAlike change σ = e.addsAlike change σ' := by
  induction e with
  | booleanConstant _ | integerConstant _ | timeConstant _ | enumeratedValue _
  | nondeterministicConstant _ | reference _ => rfl
  | unary op e ih | booleanToInteger e ih | integerToBoolean e ih =>
    rw [addsAlike, addsAlike, ih h]
  | binary op l r ihl ihr =>
    have hl := fun q hq => h q (List.mem_append_left _ hq)
    have hr := fun q hq => h q (List.mem_append_right _ hq)
    simp only [addsAlike, ihl hl, ihr hr, encoded_congr l hl, encoded_congr r hr]
  | change l r ihl ihr =>
    rw [addsAlike, addsAlike, ihl fun q hq => h q (List.mem_append_left _ hq),
      ihr fun q hq => h q (List.mem_append_right _ hq)]

namespace Encoder

variable {N : Type} {simplifier : Simplifier N} {change : ChangeOperand}
  {access : VariableReference → Except String (SortedTerm N)} {M : Model N} {σ : Valuation}

def valueOf (M : Model N) (t : SortedTerm N) : Value := t.1.value (t.2.eval M)

theorem valueOf_simplify {s : SmtSort} (t : Term N s) :
    valueOf M ⟨s, simplifier.simplify t⟩ = valueOf M ⟨s, t⟩ :=
  congrArg s.value (simplifier.eval_simplify t M)

theorem valueOf_makeInteger (t : Term N .bool) :
    valueOf M ⟨.int, makeInteger t⟩ = .int (valueOf M ⟨.bool, t⟩).toInt := by
  have h : ∀ b : Bool, (bif b then (1 : ℤ) else 0) = (Value.bool b).toInt := by
    intro b
    cases b <;> rfl
  exact congrArg Value.int (h _)

theorem encodeComparison_value {op : Comparison} {l r u : SortedTerm N}
    (h : encodeComparison simplifier op l r = .ok u) :
    ∃ a b, valueOf M l = .int a ∧ valueOf M r = .int b ∧ valueOf M u = .bool (op.eval a b) := by
  obtain ⟨s, l⟩ := l
  obtain ⟨s', r⟩ := r
  cases s <;> cases s' <;> cases h
  exact ⟨_, _, rfl, rfl, valueOf_simplify _⟩

theorem encodeConnective_value {op : Connective} {l r u : SortedTerm N}
    (h : encodeConnective simplifier op l r = .ok u) :
    ∃ a b, valueOf M l = .bool a ∧ valueOf M r = .bool b ∧ valueOf M u = .bool (op.eval a b) := by
  obtain ⟨s, l⟩ := l
  obtain ⟨s', r⟩ := r
  cases s <;> cases s' <;> cases h
  exact ⟨_, _, rfl, rfl, valueOf_simplify _⟩

theorem encodeEquality_value {l r : SortedTerm N} {t : Term N .bool}
    (h : encodeEquality l r = .ok t) : t.eval M = decide (valueOf M l = valueOf M r) := by
  obtain ⟨s, l⟩ := l
  obtain ⟨s', r⟩ := r
  cases s <;> cases s' <;> cases h <;>
    exact decide_eq_decide.mpr ⟨congrArg _, SmtSort.value_injective⟩

theorem encodeUnary_value {op : UnaryOperator} {t u : SortedTerm N}
    (h : encodeUnary simplifier op t = .ok u) : valueOf M u = op.eval (valueOf M t) := by
  obtain ⟨s, t⟩ := t
  cases op <;> cases s <;> cases h
  · exact valueOf_simplify _
  · exact valueOf_simplify _

theorem encodeAdd_value {l r u : SortedTerm N} (h : encodeAdd simplifier l r = .ok u) :
    valueOf M u = BinaryOperator.add.encoded (valueOf M l) (valueOf M r) := by
  obtain ⟨s, l⟩ := l
  obtain ⟨s', r⟩ := r
  have hint := valueOf_makeInteger (M := M)
  cases s <;> cases s' <;> cases h
  · rw [valueOf_simplify]
    exact congrArg Value.int (congrArg₂ _ (Value.int.inj (hint r)) (Value.int.inj (hint r)))
  · rw [valueOf_simplify]
    exact congrArg Value.int (congrArg _ (Value.int.inj (hint r)))
  · exact valueOf_simplify _

theorem encodeBinary_value {op : BinaryOperator} {l r u : SortedTerm N}
    (h : encodeBinary simplifier op l r = .ok u) :
    valueOf M u = op.encoded (valueOf M l) (valueOf M r) := by
  cases op with
  | exponentiation | multiply | divide | modulo => cases h
  | add => exact encodeAdd_value h
  | greaterThan | lessThan | greaterThanOrEqualTo | lessThanOrEqualTo =>
    obtain ⟨a, b, ha, hb, hu⟩ := encodeComparison_value (M := M) h
    rw [ha, hb, hu]
    rfl
  | booleanAnd | booleanExclusiveOr | booleanOr =>
    obtain ⟨a, b, ha, hb, hu⟩ := encodeConnective_value (M := M) h
    rw [ha, hb, hu]
    rfl
  | equality =>
    obtain ⟨t, ht, hu⟩ := bind_eq_ok h
    cases hu
    rw [valueOf_simplify]
    exact congrArg Value.bool (encodeEquality_value ht)
  | inequality =>
    obtain ⟨t, ht, hu⟩ := bind_eq_ok h
    cases hu
    rw [valueOf_simplify]
    exact congrArg Value.bool ((congrArg Bool.not (encodeEquality_value ht)).trans
      (decide_not).symm)
  | subtract =>
    obtain ⟨s, l⟩ := l
    obtain ⟨s', r⟩ := r
    cases s <;> cases s' <;> cases h
    exact valueOf_simplify _

theorem encode_value (e : Expression)
    (hacc : ∀ r ∈ e.references, ∀ t, access r = .ok t → valueOf M t = σ r.getName)
    {t : SortedTerm N} (h : encode simplifier change access e = .ok t) :
    valueOf M t = e.encoded change σ := by
  induction e generalizing t with
  | booleanConstant _ | integerConstant _ | timeConstant _ | enumeratedValue _ =>
    cases h
    rfl
  | nondeterministicConstant _ | booleanToInteger _ | integerToBoolean _ => cases h
  | reference r => exact hacc r (List.mem_singleton.mpr rfl) t h
  | unary op e ih =>
    obtain ⟨u, hu, h⟩ := bind_eq_ok h
    rw [encodeUnary_value h, ih hacc hu]
    rfl
  | binary op l r ihl ihr =>
    obtain ⟨u, hu, h⟩ := bind_eq_ok h
    obtain ⟨v, hv, h⟩ := bind_eq_ok h
    rw [encodeBinary_value h, ihl (fun q hq => hacc q (List.mem_append_left _ hq)) hu,
      ihr (fun q hq => hacc q (List.mem_append_right _ hq)) hv]
    rfl
  | change old new ihold ihnew =>
    cases change with
    | rejected => cases h
    | old => exact ihold (fun q hq => hacc q (List.mem_append_left _ hq)) h
    | new => exact ihnew (fun q hq => hacc q (List.mem_append_right _ hq)) h

theorem encodeBinary_sort {op : BinaryOperator} {l r u : SortedTerm N}
    (h : encodeBinary simplifier op l r = .ok u) (e e' : Expression) :
    u.1 = (Expression.binary op e e').sort change := by
  obtain ⟨s, l⟩ := l
  obtain ⟨s', r⟩ := r
  cases op <;> cases s <;> cases s' <;> cases h <;> rfl

theorem encode_sort (hsort : ∀ r t, access r = .ok t → r.getVariable.dataType.sort = .ok t.1)
    (e : Expression) {t : SortedTerm N} (h : encode simplifier change access e = .ok t) :
    t.1 = e.sort change := by
  induction e generalizing t with
  | booleanConstant _ | integerConstant _ | timeConstant _ | enumeratedValue _ =>
    cases h
    rfl
  | nondeterministicConstant _ | booleanToInteger _ | integerToBoolean _ => cases h
  | reference r => rw [Expression.sort, hsort r t h]; rfl
  | unary op e ih =>
    obtain ⟨⟨s, u⟩, hu, h⟩ := bind_eq_ok h
    cases op <;> cases s <;> cases h <;> rfl
  | binary op l r ihl ihr =>
    obtain ⟨u, hu, h⟩ := bind_eq_ok h
    obtain ⟨v, hv, h⟩ := bind_eq_ok h
    exact encodeBinary_sort h l r
  | change old new ihold ihnew =>
    cases change with
    | rejected => cases h
    | old => exact ihold h
    | new => exact ihnew h

theorem occurrences_encodeUnary {op : UnaryOperator} {t u : SortedTerm N}
    (h : encodeUnary simplifier op t = .ok u) : u.2.occurrences ⊆ t.2.occurrences := by
  obtain ⟨s, t⟩ := t
  cases op <;> cases s <;> cases h <;> exact simplifier.occurrences_simplify _

theorem occurrences_encodeBinary {op : BinaryOperator} {l r u : SortedTerm N}
    (h : encodeBinary simplifier op l r = .ok u) :
    u.2.occurrences ⊆ l.2.occurrences ++ r.2.occurrences := by
  obtain ⟨s, l⟩ := l
  obtain ⟨s', r⟩ := r
  cases op <;> cases s <;> cases s' <;> cases h <;>
    refine List.Subset.trans (simplifier.occurrences_simplify _) fun k hk => ?_ <;>
    simp_all [Term.occurrences, makeInteger]

/-- The constants of the term are those of the references that were encoded. -/
theorem encode_occurrences (e : Expression) {t : SortedTerm N}
    (h : encode simplifier change access e = .ok t) :
    ∀ k ∈ t.2.occurrences, ∃ r ∈ e.references, ∃ u, access r = .ok u ∧ k ∈ u.2.occurrences := by
  induction e generalizing t with
  | booleanConstant _ | integerConstant _ | timeConstant _ | enumeratedValue _ =>
    cases h
    exact fun k hk => absurd hk List.not_mem_nil
  | nondeterministicConstant _ | booleanToInteger _ | integerToBoolean _ => cases h
  | reference r => exact fun k hk => ⟨r, List.mem_singleton.mpr rfl, t, h, hk⟩
  | unary op e ih =>
    obtain ⟨u, hu, h⟩ := bind_eq_ok h
    exact fun k hk => ih hu k (occurrences_encodeUnary h hk)
  | binary op l r ihl ihr =>
    obtain ⟨u, hu, h⟩ := bind_eq_ok h
    obtain ⟨v, hv, h⟩ := bind_eq_ok h
    intro k hk
    rcases List.mem_append.mp (occurrences_encodeBinary h hk) with hk | hk
    · obtain ⟨q, hq, h⟩ := ihl hu k hk
      exact ⟨q, List.mem_append_left _ hq, h⟩
    · obtain ⟨q, hq, h⟩ := ihr hv k hk
      exact ⟨q, List.mem_append_right _ hq, h⟩
  | change old new ihold ihnew =>
    cases change with
    | rejected => cases h
    | old =>
      intro k hk
      obtain ⟨q, hq, h⟩ := ihold h k hk
      exact ⟨q, List.mem_append_left _ hq, h⟩
    | new =>
      intro k hk
      obtain ⟨q, hq, h⟩ := ihnew h k hk
      exact ⟨q, List.mem_append_right _ hq, h⟩

end Encoder

end Ahorn
