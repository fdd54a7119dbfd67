import Ahorn.EtfaMergeCorrect

set_option autoImplicit false

/-!
# The terms of expressions

The operators the encoder supports, with the sorts of operands they take. Booleans may be added, to
each other and to integers. The term of such an expression has the value of the expression, except
for additions with a Boolean on the left.
-/
namespace Ahorn

/-- The sort of a unary expression, if the encoder takes the operator on operands of this sort. -/
def UnaryOperator.supportedSort : UnaryOperator → SmtSort → Option SmtSort
  | negation, .int => some .int
  | complement, .bool => some .bool
  | _, _ => none

/-- The sort of a binary expression, if the encoder takes the operator on operands of these
sorts. -/
def BinaryOperator.supportedSort : BinaryOperator → SmtSort → SmtSort → Option SmtSort
  | add, _, _ | subtract, .int, .int => some .int
  | greaterThan, .int, .int | lessThan, .int, .int | greaterThanOrEqualTo, .int, .int
  | lessThanOrEqualTo, .int, .int => some .bool
  | booleanAnd, .bool, .bool | booleanExclusiveOr, .bool, .bool | booleanOr, .bool, .bool =>
    some .bool
  | equality, s, s' | inequality, s, s' => if s = s' then some .bool else none
  | _, _, _ => none

namespace Expression

/-- The sort of an expression over the operators the encoder supports, if it is well-typed. -/
def supportedSort : Expression → Option SmtSort
  | booleanConstant _ => some .bool
  | integerConstant _ | timeConstant _ | enumeratedValue _ => some .int
  | reference r => r.getVariable.dataType.sort.toOption
  | unary op e => do op.supportedSort (← e.supportedSort)
  | binary op l r => do op.supportedSort (← l.supportedSort) (← r.supportedSort)
  | nondeterministicConstant _ | change _ _ | booleanToInteger _ | integerToBoolean _ => none

def subexpressions : Expression → List Expression
  | unary op e => unary op e :: e.subexpressions
  | booleanToInteger e => booleanToInteger e :: e.subexpressions
  | integerToBoolean e => integerToBoolean e :: e.subexpressions
  | binary op l r => binary op l r :: (l.subexpressions ++ r.subexpressions)
  | change l r => change l r :: (l.subexpressions ++ r.subexpressions)
  | e => [e]

/-- A Boolean is only added to a Boolean of the same value. -/
def AddsEqual (σ : Valuation) (e : Expression) : Prop :=
  ∀ l r, binary .add l r ∈ e.subexpressions → l.supportedSort = some .bool →
    r.supportedSort = some .bool ∧ l.eval σ = r.eval σ

theorem mem_subexpressions (e : Expression) : e ∈ e.subexpressions := by
  cases e <;> simp [subexpressions]

theorem supportedSort_unary {op : UnaryOperator} {e : Expression} {s : SmtSort}
    (h : (unary op e).supportedSort = some s) :
    ∃ s', e.supportedSort = some s' ∧ op.supportedSort s' = some s := by
  simpa [supportedSort, Option.bind_eq_some_iff] using h

theorem supportedSort_binary {op : BinaryOperator} {l r : Expression} {s : SmtSort}
    (h : (binary op l r).supportedSort = some s) :
    ∃ s' s'', l.supportedSort = some s' ∧ r.supportedSort = some s'' ∧
      op.supportedSort s' s'' = some s := by
  obtain ⟨s', hl, h⟩ := Option.bind_eq_some_iff.mp h
  obtain ⟨s'', hr, h⟩ := Option.bind_eq_some_iff.mp h
  exact ⟨s', s'', hl, hr, h⟩

theorem subexpressions_subset {e e' : Expression} (h : e' ∈ e.subexpressions) :
    e'.subexpressions ⊆ e.subexpressions := by
  induction e with
  | booleanConstant _ | integerConstant _ | timeConstant _ | enumeratedValue _
  | nondeterministicConstant _ | reference _ =>
    obtain rfl := List.mem_singleton.mp h
    exact List.Subset.refl _
  | unary op e ih | booleanToInteger e ih | integerToBoolean e ih =>
    rcases List.mem_cons.mp h with rfl | h
    · exact List.Subset.refl _
    · exact fun q hq => List.mem_cons_of_mem _ (ih h hq)
  | binary op l r ihl ihr | change l r ihl ihr =>
    rcases List.mem_cons.mp h with rfl | h
    · exact List.Subset.refl _
    · rcases List.mem_append.mp h with h | h
      · exact fun q hq => List.mem_cons_of_mem _ (List.mem_append_left _ (ihl h hq))
      · exact fun q hq => List.mem_cons_of_mem _ (List.mem_append_right _ (ihr h hq))

theorem operands_mem_subexpressions {op : BinaryOperator} {l r e : Expression}
    (h : binary op l r ∈ e.subexpressions) : l ∈ e.subexpressions ∧ r ∈ e.subexpressions := by
  have hsub := subexpressions_subset h
  exact ⟨hsub (List.mem_cons_of_mem _ (List.mem_append_left _ (mem_subexpressions l))),
    hsub (List.mem_cons_of_mem _ (List.mem_append_right _ (mem_subexpressions r)))⟩

theorem AddsEqual.of_mem {σ : Valuation} {e e' : Expression} (h : e.AddsEqual σ)
    (hmem : e' ∈ e.subexpressions) : e'.AddsEqual σ :=
  fun l r hadd => h l r (subexpressions_subset hmem hadd)

theorem exists_supportedSort {e e' : Expression} {s : SmtSort} (h : e.supportedSort = some s)
    (hmem : e' ∈ e.subexpressions) : ∃ s', e'.supportedSort = some s' := by
  induction e generalizing s with
  | booleanConstant _ | integerConstant _ | timeConstant _ | enumeratedValue _
  | nondeterministicConstant _ | reference _ =>
    obtain rfl := List.mem_singleton.mp hmem
    exact ⟨s, h⟩
  | unary op e ih =>
    obtain ⟨s', hs', -⟩ := supportedSort_unary h
    rcases List.mem_cons.mp hmem with rfl | hmem
    · exact ⟨s, h⟩
    · exact ih hs' hmem
  | binary op l r ihl ihr =>
    obtain ⟨s', s'', hs', hs'', -⟩ := supportedSort_binary h
    rcases List.mem_cons.mp hmem with rfl | hmem
    · exact ⟨s, h⟩
    · rcases List.mem_append.mp hmem with hmem | hmem
      · exact ihl hs' hmem
      · exact ihr hs'' hmem
  | change _ _ _ _ | booleanToInteger _ _ | integerToBoolean _ _ => cases h

theorem references_subset {e e' : Expression} (hmem : e' ∈ e.subexpressions) :
    e'.references ⊆ e.references := by
  induction e with
  | booleanConstant _ | integerConstant _ | timeConstant _ | enumeratedValue _
  | nondeterministicConstant _ | reference _ =>
    obtain rfl := List.mem_singleton.mp hmem
    exact List.Subset.refl _
  | unary _ e ih | booleanToInteger e ih | integerToBoolean e ih =>
    rcases List.mem_cons.mp hmem with rfl | hmem
    · exact List.Subset.refl _
    · exact ih hmem
  | binary _ l r ihl ihr | change l r ihl ihr =>
    rcases List.mem_cons.mp hmem with rfl | hmem
    · exact List.Subset.refl _
    · rcases List.mem_append.mp hmem with hmem | hmem
      · exact List.Subset.trans (ihl hmem) (List.subset_append_left _ _)
      · exact List.Subset.trans (ihr hmem) (List.subset_append_right _ _)

theorem sort_eq {change : Encoder.ChangeOperand} {e : Expression} {s : SmtSort}
    (h : e.supportedSort = some s) : e.sort change = s := by
  cases e with
  | booleanConstant _ | integerConstant _ | timeConstant _ | enumeratedValue _ =>
    exact Option.some.inj h
  | reference r =>
    change r.getVariable.dataType.sort.toOption = some s at h
    rw [sort, h]
    rfl
  | unary op e =>
    obtain ⟨s', -, h⟩ := supportedSort_unary h
    cases op <;> cases s' <;> cases h <;> rfl
  | binary op l r =>
    obtain ⟨s', s'', -, -, h⟩ := supportedSort_binary h
    cases op <;> cases s' <;> cases s'' <;> cases h <;> rfl
  | nondeterministicConstant _ | change _ _ | booleanToInteger _ | integerToBoolean _ => cases h

end Expression

namespace Encoder

variable {N : Type} {simplifier : Simplifier N}
  {access : VariableReference → Except String (SortedTerm N)} {M : Model N} {σ : Valuation}

theorem encodeUnary_ok {op : UnaryOperator} {t : SortedTerm N} {s : SmtSort}
    (h : op.supportedSort t.1 = some s) : ∃ u, encodeUnary simplifier op t = .ok u ∧ u.1 = s := by
  obtain ⟨s', t⟩ := t
  cases op <;> cases s' <;> cases h <;> exact ⟨_, rfl, rfl⟩

theorem encodeBinary_ok {op : BinaryOperator} {l r : SortedTerm N} {s : SmtSort}
    (h : op.supportedSort l.1 r.1 = some s) (hadd : op = .add → l.1 = .bool → r.1 = .bool) :
    ∃ u, encodeBinary simplifier op l r = .ok u ∧ u.1 = s := by
  obtain ⟨s', l⟩ := l
  obtain ⟨s'', r⟩ := r
  cases op <;> cases s' <;> cases s'' <;> cases h <;>
    first
    | exact ⟨_, rfl, rfl⟩
    | cases hadd rfl rfl

theorem encoded_eq {op : BinaryOperator} {l r : Value}
    (h : op = .add → ∀ b, l = .bool b → r = l) : op.encoded l r = op.eval l r := by
  cases op with
  | add =>
    cases l with
    | int _ => rfl
    | bool b =>
      rw [h rfl b rfl]
      rfl
  | _ => rfl

theorem exists_bool_of_sort {t : SortedTerm N} (h : t.1 = .bool) : ∃ b, valueOf M t = .bool b := by
  obtain ⟨s, t⟩ := t
  cases h
  exact ⟨t.eval M, rfl⟩

theorem sort_of_valueOf {t : SortedTerm N} {b : Bool} (h : valueOf M t = .bool b) :
    t.1 = .bool := by
  obtain ⟨s, t⟩ := t
  cases s with
  | bool => rfl
  | int => cases h

/-- The references of an expression are constants of their sort, and the model gives them the values
of the valuation. -/
def Reads (access : VariableReference → Except String (SortedTerm N)) (M : Model N) (σ : Valuation)
    (e : Expression) : Prop :=
  ∀ r ∈ e.references, ∃ t, access r = .ok t ∧ valueOf M t = σ r.getName

/-- The term of an expression has its sort, and its value under every model. -/
structure Encoded (simplifier : Simplifier N)
    (access : VariableReference → Except String (SortedTerm N)) (M : Model N) (σ : Valuation)
    (e : Expression) (s : SmtSort) (t : SortedTerm N) : Prop where
  encode : encode simplifier .rejected access e = .ok t
  sort : t.1 = s
  value : valueOf M t = e.eval σ

theorem encode_supported (hsort : ∀ r t, access r = .ok t → r.getVariable.dataType.sort = .ok t.1)
    {e : Expression} {s : SmtSort} (hs : e.supportedSort = some s) (hreads : Reads access M σ e)
    (hadd : e.AddsEqual σ) : ∃ t, Encoded simplifier access M σ e s t := by
  induction e generalizing s with
  | booleanConstant _ | integerConstant _ | timeConstant _ | enumeratedValue _ =>
    exact ⟨_, rfl, Option.some.inj hs, rfl⟩
  | nondeterministicConstant _ | change _ _ | booleanToInteger _ | integerToBoolean _ => cases hs
  | reference r =>
    obtain ⟨t, ht, hvalue⟩ := hreads r (List.mem_singleton.mpr rfl)
    refine ⟨t, ht, ?_, hvalue⟩
    have hs' : r.getVariable.dataType.sort.toOption = some s := hs
    rw [hsort r t ht] at hs'
    exact Option.some.inj hs'
  | unary op e ih =>
    obtain ⟨s', hs', hop⟩ := Expression.supportedSort_unary hs
    obtain ⟨t, ht⟩ := ih hs' hreads (hadd.of_mem (List.mem_cons_of_mem _ (Expression.mem_subexpressions e)))
    rw [← ht.sort] at hop
    obtain ⟨u, hu, hus⟩ := @encodeUnary_ok _ simplifier _ _ _ hop
    refine ⟨u, ?_, hus, ?_⟩
    · rw [encode, ht.encode]
      exact hu
    · rw [encodeUnary_value hu, ht.value]
      rfl
  | binary op l r ihl ihr =>
    obtain ⟨s', s'', hl, hr, hop⟩ := Expression.supportedSort_binary hs
    obtain ⟨hmeml, hmemr⟩ := Expression.operands_mem_subexpressions
      (Expression.mem_subexpressions (.binary op l r))
    obtain ⟨t, ht⟩ := ihl hl (fun q hq => hreads q (List.mem_append_left _ hq)) (hadd.of_mem hmeml)
    obtain ⟨t', ht'⟩ := ihr hr (fun q hq => hreads q (List.mem_append_right _ hq)) (hadd.of_mem hmemr)
    have hequal : op = .add → t.1 = .bool → t'.1 = .bool ∧ l.eval σ = r.eval σ := by
      rintro rfl hbool
      have hbool' : l.supportedSort = some .bool := by rw [hl, ← ht.sort, hbool]
      obtain ⟨hr', heq⟩ := hadd l r List.mem_cons_self hbool'
      exact ⟨ht'.sort.trans (Option.some.inj (hr.symm.trans hr')), heq⟩
    rw [← ht.sort, ← ht'.sort] at hop
    obtain ⟨u, hu, hus⟩ := @encodeBinary_ok _ simplifier _ _ _ _ hop
      fun hop hbool => (hequal hop hbool).1
    refine ⟨u, ?_, hus, ?_⟩
    · rw [encode, ht.encode, ht'.encode]
      exact hu
    · rw [encodeBinary_value hu, encoded_eq, ht.value, ht'.value]
      · rfl
      · intro hop b hb
        rw [ht.value, ht'.value]
        exact (hequal hop (sort_of_valueOf hb)).2.symm

theorem addsEqual_of_encoded
    (hsort : ∀ r t, access r = .ok t → r.getVariable.dataType.sort = .ok t.1) {e : Expression}
    {s : SmtSort} (hs : e.supportedSort = some s)
    (h : ∀ e' ∈ e.subexpressions, ∃ t, encode simplifier .rejected access e' = .ok t ∧
      valueOf M t = e'.eval σ) : e.AddsEqual σ := by
  intro l r hmem hbool
  obtain ⟨hl, hr⟩ := Expression.operands_mem_subexpressions hmem
  obtain ⟨s', hs'⟩ := Expression.exists_supportedSort hs hr
  obtain ⟨u, hu, hvalue⟩ := h _ hmem
  obtain ⟨t, ht, htv⟩ := h l hl
  obtain ⟨t', ht', htv'⟩ := h r hr
  rw [encode, ht, ht'] at hu
  have hadd : encodeAdd simplifier t t' = .ok u := hu
  have htsort : t.1 = .bool := (encode_sort hsort l ht).trans (Expression.sort_eq hbool)
  have htsort' : t'.1 = s' := (encode_sort hsort r ht').trans (Expression.sort_eq hs')
  have hbool' : t'.1 = .bool := by
    obtain ⟨_, t⟩ := t
    obtain ⟨s'', t'⟩ := t'
    cases htsort
    cases s'' with
    | bool => rfl
    | int => cases hadd
  refine ⟨by rw [hs', ← htsort', hbool'], ?_⟩
  obtain ⟨b, hb⟩ := exists_bool_of_sort (M := M) htsort
  obtain ⟨b', hb'⟩ := exists_bool_of_sort (M := M) hbool'
  have hsum : Value.int ((Value.bool b').toInt + (Value.bool b').toInt) =
      .int ((Value.bool b).toInt + (Value.bool b').toInt) := by
    calc
      _ = valueOf M u := by rw [encodeAdd_value hadd, hb, hb']; rfl
      _ = (Value.int ((l.eval σ).toInt + (r.eval σ).toInt)) := hvalue
      _ = _ := by rw [← htv, ← htv', hb, hb']
  rw [← htv, ← htv', hb, hb']
  cases b <;> cases b' <;> first | rfl | cases hsum

end Encoder

namespace Etfa.Executor

theorem access_sort {frame : Frame} {c : Context} (r : VariableReference) (t : SortedTerm String)
    (h : access frame c r = .ok t) : r.getVariable.dataType.sort = .ok t.1 := by
  obtain ⟨version, -, h⟩ := bind_eq_ok h
  obtain ⟨s, hs, h⟩ := bind_eq_ok h
  cases h
  exact hs

/-- A well-typed expression is encoded with all of its operands as what it is, exactly if every
Boolean on the left of an addition is added to a Boolean of the same value. -/
theorem encode_iff (ex : Executor) (frame : Frame) (c : Context) (M : Model String) (σ : Valuation)
    (e : Expression) (hs : e.supportedSort ≠ none)
    (hreads : Encoder.Reads (access frame c) M σ e) :
    (∀ e' ∈ e.subexpressions, ∃ t, ex.encode frame c e' = .ok t ∧
      Encoder.valueOf M t = e'.eval σ) ↔ e.AddsEqual σ := by
  obtain ⟨s, hs⟩ := Option.ne_none_iff_exists'.mp hs
  constructor
  · exact Encoder.addsEqual_of_encoded access_sort hs
  · intro hadd e' hmem
    obtain ⟨s', hs'⟩ := Expression.exists_supportedSort hs hmem
    have hreads' : Encoder.Reads (access frame c) M σ e' :=
      fun r hr => hreads r (Expression.references_subset hmem hr)
    obtain ⟨t, ht⟩ := @Encoder.encode_supported _ ex.simplifier _ _ _ access_sort _ _ hs' hreads'
      (hadd.of_mem hmem)
    exact ⟨t, ht.encode, ht.value⟩

end Etfa.Executor

namespace Etfa.NestedBranch

def sumOfInputs : Expression := .binary .add (read a) (read b)

def secondSet : Model String
  | .bool, n => decide (n = "P.b_0__0")
  | .int, _ => (0 : ℤ)

def secondSetValuation : Valuation := fun n => .bool (decide (n = "b"))

theorem access_a : Executor.access ⟨main, "P", 0⟩ skipping (.variableAccess a) =
    .ok ⟨.bool, constant "P.a_0__0"⟩ := by
  decide +kernel

theorem access_b : Executor.access ⟨main, "P", 0⟩ skipping (.variableAccess b) =
    .ok ⟨.bool, constant "P.b_0__0"⟩ := by
  decide +kernel

theorem reads_sum : Encoder.Reads (Executor.access ⟨main, "P", 0⟩ skipping) secondSet
    secondSetValuation sumOfInputs := by
  intro r hr
  change r ∈ [VariableReference.variableAccess a, .variableAccess b] at hr
  simp only [List.mem_cons, List.not_mem_nil, or_false] at hr
  rcases hr with rfl | rfl
  · exact ⟨_, access_a, rfl⟩
  · exact ⟨_, access_b, rfl⟩

end Etfa.NestedBranch

namespace Etfa.Executor

open NestedBranch in
/-- The sum of two Booleans is encoded as twice the second one. -/
theorem encode_iff_sum :
    (∀ e' ∈ sumOfInputs.subexpressions, ∃ t,
      (Engine.executor program (.identity _) (Solver.classical _) noSummaries).encode ⟨main, "P", 0⟩
        skipping e' = .ok t ∧ Encoder.valueOf secondSet t = e'.eval secondSetValuation) ↔
      sumOfInputs.AddsEqual secondSetValuation :=
  encode_iff _ _ _ _ _ _ (by decide) reads_sum

open NestedBranch in
theorem encode_loses_operand : ¬ ∀ (ex : Executor) (frame : Frame) (c : Context)
    (M : Model String) (σ : Valuation) (e : Expression), e.supportedSort ≠ none →
      Encoder.Reads (access frame c) M σ e →
      ∃ t, ex.encode frame c e = .ok t ∧ Encoder.valueOf M t = e.eval σ := by
  intro h
  obtain ⟨t, ht, hvalue⟩ := h (Engine.executor program (.identity _) (Solver.classical _) noSummaries)
    ⟨main, "P", 0⟩ skipping secondSet secondSetValuation sumOfInputs (by decide) reads_sum
  have henc : Encoder.encode (Simplifier.identity String) .rejected (access ⟨main, "P", 0⟩ skipping)
      sumOfInputs = .ok t := ht
  rw [sumOfInputs, Encoder.encode, NestedBranch.read, NestedBranch.read, Encoder.encode,
    Encoder.encode, access_a, access_b] at henc
  cases henc
  cases hvalue

end Etfa.Executor

end Ahorn
