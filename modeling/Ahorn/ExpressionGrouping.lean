import Ahorn.ExpressionTypes
import Ahorn.OperatorChains

set_option autoImplicit false

/-!
# The grouping of operators

The expression that is built from operands with binary operators between them, and the expression
that the precedences of the standard prescribe. The two place a division differently where another
multiplication or division stands in front of it.
-/
namespace Ahorn

/-- The level of the operators of one alternative. -/
def Level.of {ω : Type} [DecidableEq ω] (ops : List ω) (right : Bool := false) : Level ω where
  binds := fun op => decide (op ∈ ops)
  right := right

namespace Ast

def visitBinaryExpression :
    BinaryOperator → Expression → Expression → Except String Expression
  | .exponentiation, _, _ | .modulo, _, _ => .error "Not implemented yet."
  | op, leftOperand, rightOperand => .ok (.binary op leftOperand rightOperand)

/-- The binary alternatives of the rule for expressions, the last one first: of two alternatives
the earlier one binds tighter. -/
def expressionAlternatives : List (Level BinaryOperator) :=
  [.of [.booleanOr],
    .of [.booleanExclusiveOr],
    .of [.booleanAnd],
    .of [.equality, .inequality],
    .of [.lessThan, .greaterThan, .lessThanOrEqualTo, .greaterThanOrEqualTo],
    .of [.add, .subtract],
    .of [.multiply],
    .of [.divide, .modulo] true,
    .of [.exponentiation]]

/-- The expression built for operands with binary operators between them. -/
def visitExpression (c : Chain BinaryOperator Expression) : Except String Expression :=
  groupWith (fun op l r => do visitBinaryExpression op (← l) (← r)) (fun d => .ok d.first)
    expressionAlternatives c

end Ast

/-- The precedences of the standard, the loosest one first. All of them associate to the left. -/
def prescribedLevels : List (Level BinaryOperator) :=
  [.of [.booleanOr],
    .of [.booleanExclusiveOr],
    .of [.booleanAnd],
    .of [.equality, .inequality],
    .of [.lessThan, .greaterThan, .lessThanOrEqualTo, .greaterThanOrEqualTo],
    .of [.add, .subtract],
    .of [.multiply, .divide, .modulo],
    .of [.exponentiation]]

def prescribedExpression (c : Chain BinaryOperator Expression) : Expression :=
  groupWith .binary Chain.first prescribedLevels c

def prescribedType (c : Chain BinaryOperator ExpressionType) : Option ExpressionType :=
  groupWith (fun op s t => do op.typeOf (← s) (← t)) Chain.first prescribedLevels (c.map some)

/-- Every operator is defined on its operands, for some types of the operands of the chain. -/
def Typable (ops : List BinaryOperator) : Prop :=
  ∃ c : Chain BinaryOperator ExpressionType, c.ops = ops ∧ prescribedType c ≠ none

/-- For all operands the expression that is built has the value of the standard's grouping. -/
def GroupedAsPrescribed (ops : List BinaryOperator) : Prop :=
  ∀ c : Chain BinaryOperator Expression, c.ops = ops →
    ∃ e, Ast.visitExpression c = .ok e ∧ ∀ σ, e.eval σ = (prescribedExpression c).eval σ

/-- No division stands directly behind an operand that a multiplication or a division precedes. -/
def DivisionsLead (ops : List BinaryOperator) : Prop :=
  ops.IsChain fun op op' => op' = .divide → op ≠ .multiply ∧ op ≠ .divide

instance (ops : List BinaryOperator) : Decidable (DivisionsLead ops) :=
  inferInstanceAs (Decidable (ops.IsChain _))

def looseLevels : List (Level BinaryOperator) := prescribedLevels.take 6

def builtRun {β : Type} (node : BinaryOperator → β → β → β) (c : Chain BinaryOperator β) : β :=
  groupWith node Chain.first [.of [.multiply], .of [.divide, .modulo] true, .of [.exponentiation]] c

def prescribedRun {β : Type} (node : BinaryOperator → β → β → β) (c : Chain BinaryOperator β) : β :=
  groupWith node Chain.first [.of [.multiply, .divide, .modulo], .of [.exponentiation]] c

namespace DivisionsLead

theorem eq_multiply {op : BinaryOperator} {ops : List BinaryOperator}
    (hlead : DivisionsLead (op :: ops)) (h : ∀ o ∈ op :: ops, o = .multiply ∨ o = .divide) :
    ∀ o ∈ ops, o = .multiply := by
  induction ops generalizing op with
  | nil => simp
  | cons op' ops ih =>
    obtain ⟨hnext, hrest⟩ := List.isChain_cons_cons.mp hlead
    have hop' : op' = .multiply := by
      refine (h op' (by simp)).resolve_right fun hdivide => ?_
      obtain ⟨hmultiply, hdivide⟩ := hnext hdivide
      exact (h op List.mem_cons_self).elim hmultiply hdivide
    intro o ho
    rcases List.mem_cons.mp ho with rfl | ho
    · exact hop'
    · exact ih hrest (fun o ho => h o (List.mem_cons_of_mem _ ho)) o ho

theorem exists_of_not {ops : List BinaryOperator} (hlead : ¬ DivisionsLead ops)
    (h : ∀ o ∈ ops, o = .multiply ∨ o = .divide) :
    (∃ front back, ops = front ++ .multiply :: .divide :: back) ∨
      ∃ back, ops = .divide :: .divide :: back := by
  induction ops with
  | nil => exact absurd List.IsChain.nil hlead
  | cons op ops ih =>
    have hrest : ∀ o ∈ ops, o = .multiply ∨ o = .divide :=
      fun o ho => h o (List.mem_cons_of_mem op ho)
    have hop := h op List.mem_cons_self
    by_cases hlead' : DivisionsLead ops
    · cases ops with
      | nil => exact absurd (List.IsChain.singleton op) hlead
      | cons op' ops =>
        have hop' : op' = .divide := by
          refine (hrest op' List.mem_cons_self).resolve_left fun hmultiply => hlead ?_
          exact List.isChain_cons_cons.mpr ⟨by simp [hmultiply], hlead'⟩
        rcases hop with rfl | rfl
        · exact Or.inl ⟨[], ops, by simp [hop']⟩
        · exact Or.inr ⟨ops, by simp [hop']⟩
    · rcases ih hlead' hrest with ⟨front, back, rfl⟩ | ⟨back, rfl⟩
      · exact Or.inl ⟨op :: front, back, rfl⟩
      · rcases hop with rfl | rfl
        · exact Or.inl ⟨[], .divide :: back, rfl⟩
        · exact Or.inr ⟨.divide :: back, rfl⟩

end DivisionsLead

section Runs

variable {β : Type} {node : BinaryOperator → β → β → β}

theorem groupWith_alternatives (c : Chain BinaryOperator β) :
    groupWith node Chain.first Ast.expressionAlternatives c =
      (skeleton looseLevels c).fold node (builtRun node) := by
  rw [← groupWith_eq_fold]
  exact groupWith_append looseLevels
    [.of [.multiply], .of [.divide, .modulo] true, .of [.exponentiation]] c

theorem groupWith_prescribed (c : Chain BinaryOperator β) :
    groupWith node Chain.first prescribedLevels c =
      (skeleton looseLevels c).fold node (prescribedRun node) := by
  rw [← groupWith_eq_fold]
  exact groupWith_append looseLevels [.of [.multiply, .divide, .modulo], .of [.exponentiation]] c

theorem prescribedRun_eq {c : Chain BinaryOperator β}
    (h : ∀ op ∈ c.ops, op = .multiply ∨ op = .divide) :
    prescribedRun node c = c.foldLeft node := by
  refine groupWith_all _ fun op hop => ?_
  rcases h op hop with rfl | rfl <;> rfl

theorem builtRun_eq {c : Chain BinaryOperator β}
    (h : ∀ op ∈ c.ops, op = .multiply ∨ op = .divide) :
    builtRun node c =
      ((c.split (Level.of [.multiply]).binds).map (Chain.foldRight node)).foldLeft node := by
  have hops := Chain.splitFrom_ops (Level.of [.multiply]).binds c.first c.rest
  rw [builtRun, groupWith]
  change Chain.foldLeft node _ = _
  congr 1
  apply Chain.map_congr
  intro d hd
  refine groupWith_all _ fun op hop => ?_
  obtain ⟨hfalse, hmem⟩ := hops.2 d hd op hop
  rcases h op hmem with rfl | rfl
  · simp [Level.of] at hfalse
  · rfl

theorem builtRun_eq_prescribedRun {c : Chain BinaryOperator β}
    (h : ∀ op ∈ c.ops, op = .multiply ∨ op = .divide) (hlead : DivisionsLead c.ops) :
    builtRun node c = prescribedRun node c := by
  rw [builtRun_eq h, prescribedRun_eq h]
  obtain ⟨a, rest⟩ := c
  cases rest with
  | nil => rfl
  | cons q rest =>
    have hmul : ∀ r ∈ rest, (Level.of [BinaryOperator.multiply]).binds r.1 = true := by
      intro r hr
      simp [Level.of, hlead.eq_multiply h r.1 (List.mem_map_of_mem hr)]
    simp only [Chain.split, Chain.splitFrom, Chain.splitFrom_all q.2 hmul]
    rcases h q.1 List.mem_cons_self with hop | hop
    · simp [hop, Level.of, Chain.map, Chain.foldLeft, Chain.foldRight, Chain.foldRightFrom,
        List.foldl_map]
    · simp [hop, Level.of, Chain.map, Chain.foldLeft, Chain.foldRight, Chain.foldRightFrom,
        List.foldl_map]

end Runs

section Values

open BinaryOperator

def ones (ops : List BinaryOperator) : List (BinaryOperator × Value) := ops.map fun op => (op, .int 1)

theorem eval_one {op : BinaryOperator} (h : op = .multiply ∨ op = .divide) (i : Int) :
    op.eval (.int i) (.int 1) = .int i := by
  rcases h with rfl | rfl <;> simp [BinaryOperator.eval, Value.toInt]

theorem foldl_ones {ops : List BinaryOperator} (h : ∀ o ∈ ops, o = .multiply ∨ o = .divide)
    (i : Int) : (ones ops).foldl (fun b q => q.1.eval b q.2) (.int i) = .int i := by
  induction ops with
  | nil => rfl
  | cons op ops ih =>
    simp only [ones, List.map_cons, List.foldl_cons, eval_one (h op List.mem_cons_self)]
    exact ih fun o ho => h o (List.mem_cons_of_mem op ho)

theorem parts_ones {p : BinaryOperator → Bool} {ops : List BinaryOperator}
    (h : ∀ o ∈ ops, o = .multiply ∨ o = .divide) (i : Int) :
    (Chain.splitFrom p (.int i) (ones ops)).first.first = .int i ∧
      Chain.foldRight eval (Chain.splitFrom p (.int i) (ones ops)).first = .int i ∧
      ∀ q ∈ (Chain.splitFrom p (.int i) (ones ops)).rest,
        p q.1 = true ∧ Chain.foldRight eval q.2 = .int 1 := by
  have hops := Chain.splitFrom_ops p (.int i) (ones ops)
  have hmem : ∀ o ∈ (ones ops).map Prod.fst, o = .multiply ∨ o = .divide := by
    simpa [ones] using h
  obtain ⟨hhead, hhead', hparts⟩ := Chain.splitFrom_operands (Q := fun v => v = .int 1) p (.int i)
    (ones ops) (by simp [ones])
  have hunit : ∀ (d : Chain BinaryOperator Value) (j : Int),
      d ∈ (Chain.splitFrom p (.int i) (ones ops)).operands → d.first = .int j →
      (∀ q ∈ d.rest, q.2 = .int 1) → Chain.foldRight eval d = .int j := by
    intro d j hd hfirst hrest
    exact Level.combine_unit ⟨p, true⟩ d hfirst hrest
      (fun op hop => eval_one (hmem op (hops.2 d hd op hop).2) j)
      (fun op hop => eval_one (hmem op (hops.2 d hd op hop).2) 1)
  refine ⟨hhead, hunit _ i List.mem_cons_self hhead hhead', fun q hq => ⟨?_, ?_⟩⟩
  · exact (hops.1 q.1 (List.mem_map_of_mem hq)).1
  · exact hunit q.2 1 (List.mem_cons_of_mem _ (List.mem_map_of_mem hq)) (hparts q hq).1
      (hparts q hq).2

theorem foldl_parts_ones {parts : List (BinaryOperator × Chain BinaryOperator Value)} (i : Int)
    (h : ∀ q ∈ parts, (Level.of [multiply]).binds q.1 = true ∧
      Chain.foldRight eval q.2 = .int 1) :
    (parts.map fun q => (q.1, Chain.foldRight eval q.2)).foldl (fun b q => q.1.eval b q.2) (.int i) =
      .int i := by
  induction parts with
  | nil => rfl
  | cons q parts ih =>
    obtain ⟨hop, hvalue⟩ := h q List.mem_cons_self
    have hop' : q.1 = .multiply := by simpa [Level.of] using hop
    simp only [List.map_cons, List.foldl_cons, hvalue, hop', eval_one (Or.inl rfl)]
    exact ih fun r hr => h r (List.mem_cons_of_mem q hr)

theorem splitFrom_divide (a b : Value) (rest : List (BinaryOperator × Value)) :
    Chain.splitFrom (Level.of [multiply]).binds a ((.divide, b) :: rest) =
      ⟨⟨a, (.divide, (Chain.splitFrom (Level.of [multiply]).binds b rest).first.first) ::
        (Chain.splitFrom (Level.of [multiply]).binds b rest).first.rest⟩,
        (Chain.splitFrom (Level.of [multiply]).binds b rest).rest⟩ := rfl

theorem foldRight_divide (a : Value) (c : Chain BinaryOperator Value) :
    Chain.foldRight eval ⟨a, (.divide, c.first) :: c.rest⟩ =
      divide.eval a (Chain.foldRight eval c) := rfl

theorem run_multiply_divide (front back : List BinaryOperator)
    (hfront : ∀ o ∈ front, o = .multiply ∨ o = .divide)
    (hback : ∀ o ∈ back, o = .multiply ∨ o = .divide) :
    let c : Chain BinaryOperator Value :=
      ⟨.int 2, ones front ++ (.multiply, .int 1) :: (.divide, .int 2) :: ones back⟩
    builtRun eval c = .int 0 ∧ prescribedRun eval c = .int 1 := by
  intro c
  have hops : ∀ o ∈ c.ops, o = .multiply ∨ o = .divide := by
    intro o ho
    simp only [c, Chain.ops, ones, List.map_append, List.map_cons, List.map_map, List.mem_append,
      List.mem_cons, List.mem_map, Function.comp_apply, exists_eq_right] at ho
    rcases ho with ho | rfl | rfl | ho
    · exact hfront o ho
    · exact Or.inl rfl
    · exact Or.inr rfl
    · exact hback o ho
  constructor
  · obtain ⟨hhead, hfirst, hrest⟩ := parts_ones (p := (Level.of [multiply]).binds) hback 2
    rw [builtRun_eq hops]
    simp only [c, Chain.split]
    rw [Chain.splitFrom_append _ _ _ _ (by rfl)]
    simp only [Chain.foldLeft, Chain.map, List.map_append, List.map_cons, List.foldl_append,
      List.foldl_cons, splitFrom_divide, foldRight_divide, hfirst]
    have hzero : ∀ v : Value, multiply.eval v (divide.eval (.int 1) (.int 2)) = .int 0 := by
      simp [BinaryOperator.eval, Value.toInt]
    rw [hzero]
    exact foldl_parts_ones 0 hrest
  · rw [prescribedRun_eq hops]
    simp only [c, Chain.foldLeft, List.foldl_append, List.foldl_cons, foldl_ones hfront,
      eval_one (Or.inl rfl)]
    exact foldl_ones hback 1

theorem run_divide_divide (back : List BinaryOperator)
    (hback : ∀ o ∈ back, o = .multiply ∨ o = .divide) :
    let c : Chain BinaryOperator Value :=
      ⟨.int 2, (.divide, .int 2) :: (.divide, .int 2) :: ones back⟩
    builtRun eval c = .int 2 ∧ prescribedRun eval c = .int 0 := by
  intro c
  have hops : ∀ o ∈ c.ops, o = .multiply ∨ o = .divide := by
    intro o ho
    simp only [c, Chain.ops, ones, List.map_cons, List.map_map, List.mem_cons, List.mem_map,
      Function.comp_apply, exists_eq_right] at ho
    rcases ho with rfl | rfl | ho
    · exact Or.inr rfl
    · exact Or.inr rfl
    · exact hback o ho
  constructor
  · obtain ⟨hhead, hfirst, hrest⟩ := parts_ones (p := (Level.of [multiply]).binds) hback 2
    rw [builtRun_eq hops]
    simp only [c, Chain.split, splitFrom_divide, Chain.foldLeft, Chain.map]
    have htwo : Chain.foldRight eval (⟨.int 2, (.divide,
        (Chain.splitFrom (Level.of [multiply]).binds (.int 2) (ones back)).first.first) ::
        (Chain.splitFrom (Level.of [multiply]).binds (.int 2) (ones back)).first.rest⟩ :
        Chain BinaryOperator Value) = .int 1 := by
      rw [foldRight_divide, hfirst]
      rfl
    rw [foldRight_divide (.int 2) ⟨.int 2, _⟩, htwo]
    exact foldl_parts_ones 2 hrest
  · rw [prescribedRun_eq hops]
    simp only [c, Chain.foldLeft, List.foldl_cons]
    exact foldl_ones hback 0

theorem exists_run_ne {ops : List BinaryOperator} (h : ∀ o ∈ ops, o = .multiply ∨ o = .divide)
    (hlead : ¬ DivisionsLead ops) :
    ∃ c : Chain BinaryOperator Value, c.ops = ops ∧ ∃ i j, i ≠ j ∧
      builtRun eval c = .int i ∧ prescribedRun eval c = .int j := by
  rcases DivisionsLead.exists_of_not hlead h with ⟨front, back, rfl⟩ | ⟨back, rfl⟩
  · obtain ⟨hbuilt, hprescribed⟩ := run_multiply_divide front back
      (fun o ho => h o (List.mem_append_left _ ho))
      (fun o ho => h o (List.mem_append_right _ (by simp [ho])))
    exact ⟨_, by simp [Chain.ops, ones, Function.comp_def], 0, 1, by decide, hbuilt, hprescribed⟩
  · obtain ⟨hbuilt, hprescribed⟩ := run_divide_divide back (fun o ho => h o (by simp [ho]))
    exact ⟨_, by simp [Chain.ops, ones, Function.comp_def], 2, 0, by decide, hbuilt, hprescribed⟩

end Values

def Value.type : Value → ExpressionType
  | bool _ => .boolean
  | int _ => .arithmetic

namespace Value

theorem exists_int {v : Value} (h : v.type = .arithmetic) : ∃ i, v = .int i := by
  cases v with
  | bool b => cases h
  | int i => exact ⟨i, rfl⟩

theorem exists_bool {v : Value} (h : v.type = .boolean) : ∃ b, v = .bool b := by
  cases v with
  | bool b => exact ⟨b, rfl⟩
  | int i => cases h

theorem exists_pair {s : ExpressionType} (h : s ≠ .undefined) :
    ∃ x y : Value, x.type = s ∧ y.type = s ∧ x ≠ y := by
  cases s with
  | arithmetic => exact ⟨.int 0, .int 1, rfl, rfl, by decide⟩
  | boolean => exact ⟨.bool false, .bool true, rfl, rfl, by decide⟩
  | undefined => exact absurd rfl h

end Value

namespace BinaryOperator

theorem typeOf_eq_some {op : BinaryOperator} {s t u : ExpressionType}
    (h : op.typeOf s t = some u) : op.accepts s t = true ∧ u = op.getType := by
  unfold typeOf at h
  split_ifs at h with haccepts
  exact ⟨haccepts, (Option.some.inj h).symm⟩

theorem type_eval (op : BinaryOperator) (v w : Value) : (op.eval v w).type = op.getType := by
  cases op <;> rfl

/-- The operators that bind tighter than the sums. -/
def isFactor : BinaryOperator → Bool
  | exponentiation | multiply | divide | modulo => true
  | _ => false

theorem isFactor_eq_false {l : Level BinaryOperator} (hl : l ∈ looseLevels) {op : BinaryOperator}
    (h : l.binds op = true) : op.isFactor = false := by
  simp only [looseLevels, prescribedLevels, List.take, List.mem_cons, List.not_mem_nil,
    or_false] at hl
  rcases hl with rfl | rfl | rfl | rfl | rfl | rfl <;> revert h <;> cases op <;> decide

theorem exists_eval {op : BinaryOperator} {s t : ExpressionType} (h : op.accepts s t = true)
    (hop : op.isFactor = false) {v : Value} (hv : v.type = op.getType) :
    ∃ x y : Value, x.type = s ∧ y.type = t ∧ op.eval x y = v := by
  cases op with
  | exponentiation | multiply | divide | modulo => cases hop
  | add | subtract =>
    obtain ⟨i, rfl⟩ := Value.exists_int hv
    refine ⟨.int i, .int 0, ?_⟩
    simp_all [accepts, Value.type, BinaryOperator.eval, Value.toInt]
  | greaterThan =>
    obtain ⟨b, rfl⟩ := Value.exists_bool hv
    refine ⟨.int (if b then 1 else 0), .int 0, ?_⟩
    cases b <;> simp_all [accepts, Value.type, BinaryOperator.eval, Value.toInt]
  | lessThanOrEqualTo =>
    obtain ⟨b, rfl⟩ := Value.exists_bool hv
    refine ⟨.int (if b then 0 else 1), .int 0, ?_⟩
    cases b <;> simp_all [accepts, Value.type, BinaryOperator.eval, Value.toInt]
  | lessThan =>
    obtain ⟨b, rfl⟩ := Value.exists_bool hv
    refine ⟨.int 0, .int (if b then 1 else 0), ?_⟩
    cases b <;> simp_all [accepts, Value.type, BinaryOperator.eval, Value.toInt]
  | greaterThanOrEqualTo =>
    obtain ⟨b, rfl⟩ := Value.exists_bool hv
    refine ⟨.int 0, .int (if b then 0 else 1), ?_⟩
    cases b <;> simp_all [accepts, Value.type, BinaryOperator.eval, Value.toInt]
  | equality =>
    obtain ⟨b, rfl⟩ := Value.exists_bool hv
    simp only [accepts, Bool.and_eq_true, beq_iff_eq, bne_iff_ne] at h
    obtain ⟨rfl, hs⟩ := h
    obtain ⟨x, y, hx, hy, hne⟩ := Value.exists_pair hs
    refine ⟨x, if b then x else y, hx, ?_⟩
    cases b <;> simp [BinaryOperator.eval, hx, hy, hne]
  | inequality =>
    obtain ⟨b, rfl⟩ := Value.exists_bool hv
    simp only [accepts, Bool.and_eq_true, beq_iff_eq, bne_iff_ne] at h
    obtain ⟨rfl, hs⟩ := h
    obtain ⟨x, y, hx, hy, hne⟩ := Value.exists_pair hs
    refine ⟨x, if b then y else x, hx, ?_⟩
    cases b <;> simp [BinaryOperator.eval, hx, hy, hne]
  | booleanAnd =>
    obtain ⟨b, rfl⟩ := Value.exists_bool hv
    refine ⟨.bool b, .bool true, ?_⟩
    simp_all [accepts, Value.type, BinaryOperator.eval, Value.toBool]
  | booleanExclusiveOr | booleanOr =>
    obtain ⟨b, rfl⟩ := Value.exists_bool hv
    refine ⟨.bool b, .bool false, ?_⟩
    simp_all [accepts, Value.type, BinaryOperator.eval, Value.toBool]

/-- Different values are told apart by some operand on the other side. -/
theorem exists_eval_ne {op : BinaryOperator} {s t : ExpressionType} (h : op.accepts s t = true)
    (hop : op.isFactor = false) :
    (∀ a b : Value, a.type = s → b.type = s → a ≠ b →
      ∃ y : Value, y.type = t ∧ op.eval a y ≠ op.eval b y) ∧
    ∀ a b : Value, a.type = t → b.type = t → a ≠ b →
      ∃ x : Value, x.type = s ∧ op.eval x a ≠ op.eval x b := by
  cases op with
  | exponentiation | multiply | divide | modulo => cases hop
  | add | subtract =>
    simp only [accepts, Bool.and_eq_true, beq_iff_eq] at h
    obtain ⟨rfl, rfl⟩ := h
    refine ⟨fun a b ha hb hne => ⟨.int 0, rfl, ?_⟩, fun a b ha hb hne => ⟨.int 0, rfl, ?_⟩⟩
    all_goals
      obtain ⟨i, rfl⟩ := Value.exists_int ha
      obtain ⟨j, rfl⟩ := Value.exists_int hb
      simpa [BinaryOperator.eval, Value.toInt] using hne
  | lessThan | greaterThanOrEqualTo =>
    simp only [accepts, Bool.and_eq_true, beq_iff_eq] at h
    obtain ⟨rfl, rfl⟩ := h
    refine ⟨fun a b ha hb hne => ⟨.int (max a.toInt b.toInt), rfl, ?_⟩,
      fun a b ha hb hne => ⟨.int (min a.toInt b.toInt), rfl, ?_⟩⟩
    all_goals
      obtain ⟨i, rfl⟩ := Value.exists_int ha
      obtain ⟨j, rfl⟩ := Value.exists_int hb
      simp only [ne_eq, Value.int.injEq, BinaryOperator.eval, Value.toInt,
        Value.bool.injEq] at hne ⊢
      intro heq
      have hiff := decide_eq_decide.mp heq
      omega
  | greaterThan | lessThanOrEqualTo =>
    simp only [accepts, Bool.and_eq_true, beq_iff_eq] at h
    obtain ⟨rfl, rfl⟩ := h
    refine ⟨fun a b ha hb hne => ⟨.int (min a.toInt b.toInt), rfl, ?_⟩,
      fun a b ha hb hne => ⟨.int (max a.toInt b.toInt), rfl, ?_⟩⟩
    all_goals
      obtain ⟨i, rfl⟩ := Value.exists_int ha
      obtain ⟨j, rfl⟩ := Value.exists_int hb
      simp only [ne_eq, Value.int.injEq, BinaryOperator.eval, Value.toInt,
        Value.bool.injEq] at hne ⊢
      intro heq
      have hiff := decide_eq_decide.mp heq
      omega
  | equality | inequality =>
    simp only [accepts, Bool.and_eq_true, beq_iff_eq, bne_iff_ne] at h
    obtain ⟨rfl, hs⟩ := h
    refine ⟨fun a b ha hb hne => ⟨a, ha, ?_⟩, fun a b ha hb hne => ⟨a, ha, ?_⟩⟩
    all_goals simp [BinaryOperator.eval, hne, Ne.symm hne]
  | booleanAnd =>
    simp only [accepts, Bool.and_eq_true, beq_iff_eq] at h
    obtain ⟨rfl, rfl⟩ := h
    refine ⟨fun a b ha hb hne => ⟨.bool true, rfl, ?_⟩, fun a b ha hb hne => ⟨.bool true, rfl, ?_⟩⟩
    all_goals
      obtain ⟨i, rfl⟩ := Value.exists_bool ha
      obtain ⟨j, rfl⟩ := Value.exists_bool hb
      simpa [BinaryOperator.eval, Value.toBool] using hne
  | booleanExclusiveOr | booleanOr =>
    simp only [accepts, Bool.and_eq_true, beq_iff_eq] at h
    obtain ⟨rfl, rfl⟩ := h
    refine ⟨fun a b ha hb hne => ⟨.bool false, rfl, ?_⟩, fun a b ha hb hne => ⟨.bool false, rfl, ?_⟩⟩
    all_goals
      obtain ⟨i, rfl⟩ := Value.exists_bool ha
      obtain ⟨j, rfl⟩ := Value.exists_bool hb
      simpa [BinaryOperator.eval, Value.toBool] using hne

end BinaryOperator

section Trees

open BinaryOperator

def typeOfTree (T : OperatorTree BinaryOperator (Chain BinaryOperator ExpressionType)) :
    Option ExpressionType :=
  T.fold (fun op s t => do op.typeOf (← s) (← t))
    (fun c => prescribedRun (fun op s t => do op.typeOf (← s) (← t)) (c.map some))

/-- The operators of the nodes are those of the looser levels, the ones of the runs multiply and
divide. -/
def IsLayered {α : Type} (T : OperatorTree BinaryOperator (Chain BinaryOperator α)) : Prop :=
  T.All (fun op => op.isFactor = false) (fun c => ∀ op ∈ c.ops, op = multiply ∨ op = divide)

theorem typeOfTree_node {op : BinaryOperator}
    {l r : OperatorTree BinaryOperator (Chain BinaryOperator ExpressionType)} {t : ExpressionType}
    (h : typeOfTree (.node op l r) = some t) :
    ∃ s s', typeOfTree l = some s ∧ typeOfTree r = some s' ∧ op.accepts s s' = true ∧
      t = op.getType := by
  simp only [typeOfTree, OperatorTree.fold, Option.bind_eq_bind, Option.bind_eq_some_iff] at h
  obtain ⟨s, hs, s', hs', hop⟩ := h
  exact ⟨s, s', hs, hs', typeOf_eq_some hop⟩

theorem typeOfTree_leaf {c : Chain BinaryOperator ExpressionType} {t : ExpressionType}
    (hops : ∀ op ∈ c.ops, op = multiply ∨ op = divide) (h : typeOfTree (.leaf c) = some t)
    (hne : c.ops ≠ []) : t = .arithmetic := by
  simp only [typeOfTree, OperatorTree.fold] at h
  rw [prescribedRun_eq (by simpa using hops)] at h
  obtain ⟨a, rest⟩ := c
  induction rest using List.reverseRecOn with
  | nil => exact absurd rfl hne
  | append_singleton rest q _ =>
    simp only [Chain.foldLeft, Chain.map, List.map_append, List.map_cons, List.map_nil,
      List.foldl_append, List.foldl_cons, List.foldl_nil, Option.bind_eq_bind,
      Option.bind_eq_some_iff] at h
    obtain ⟨s, -, s', -, hop⟩ := h
    rw [(typeOf_eq_some hop).2]
    rcases hops q.1 (by simp [Chain.ops]) with hq | hq <;> rw [hq] <;> rfl

def builtValue (T : OperatorTree BinaryOperator (Chain BinaryOperator Value)) : Value :=
  T.fold BinaryOperator.eval (builtRun BinaryOperator.eval)

def prescribedValue (T : OperatorTree BinaryOperator (Chain BinaryOperator Value)) : Value :=
  T.fold BinaryOperator.eval (prescribedRun BinaryOperator.eval)

theorem exists_operands {T : OperatorTree BinaryOperator (Chain BinaryOperator ExpressionType)}
    (hT : IsLayered T) {t : ExpressionType} (ht : typeOfTree T = some t) {v : Value}
    (hv : v.type = t) :
    ∃ T' : OperatorTree BinaryOperator (Chain BinaryOperator Value),
      T'.map Chain.ops = T.map Chain.ops ∧ builtValue T' = v ∧ prescribedValue T' = v := by
  induction T generalizing t v with
  | leaf c =>
    have hunit : ∀ op ∈ c.ops, op.eval v (.int 1) = v := by
      intro op hop
      have harith := typeOfTree_leaf hT ht (List.ne_nil_of_mem hop)
      obtain ⟨i, rfl⟩ := Value.exists_int (hv.trans harith)
      exact eval_one (hT op hop) i
    have hops : (⟨v, ones c.ops⟩ : Chain BinaryOperator Value).ops = c.ops := by
      simp [Chain.ops, ones, Function.comp_def]
    have hvalue : ∀ ls : List (Level BinaryOperator),
        groupWith BinaryOperator.eval Chain.first ls ⟨v, ones c.ops⟩ = v := by
      intro ls
      refine groupWith_unit (e := .int 1) ls _ rfl (by simp [ones]) ?_ ?_
      · rwa [hops]
      · rw [hops]
        exact fun op hop => eval_one (hT op hop) 1
    refine ⟨.leaf ⟨v, ones c.ops⟩, ?_, hvalue _, hvalue _⟩
    rw [OperatorTree.map, OperatorTree.map, hops]
  | node op l r ihl ihr =>
    obtain ⟨hop, hl, hr⟩ := hT
    obtain ⟨s, s', hs, hs', haccepts, rfl⟩ := typeOfTree_node ht
    obtain ⟨x, y, hx, hy, heval⟩ := exists_eval haccepts hop hv
    obtain ⟨l', hlops, hlb, hlp⟩ := ihl hl hs hx
    obtain ⟨r', hrops, hrb, hrp⟩ := ihr hr hs' hy
    refine ⟨.node op l' r', ?_, ?_, ?_⟩
    · rw [OperatorTree.map, OperatorTree.map, hlops, hrops]
    · exact (congrArg₂ op.eval hlb hrb).trans heval
    · exact (congrArg₂ op.eval hlp hrp).trans heval

theorem exists_value_ne {T : OperatorTree BinaryOperator (Chain BinaryOperator ExpressionType)}
    (hT : IsLayered T) {t : ExpressionType} (ht : typeOfTree T = some t)
    (hlead : ¬ T.All (fun _ => True) (fun c => DivisionsLead c.ops)) :
    ∃ T' : OperatorTree BinaryOperator (Chain BinaryOperator Value),
      T'.map Chain.ops = T.map Chain.ops ∧ (builtValue T').type = t ∧
        (prescribedValue T').type = t ∧ builtValue T' ≠ prescribedValue T' := by
  induction T generalizing t with
  | leaf c =>
    obtain ⟨d, hops, i, j, hne, hbuilt, hprescribed⟩ := exists_run_ne hT hlead
    have harith := typeOfTree_leaf hT ht fun hnil => hlead (by
      rw [OperatorTree.All, hnil]
      exact List.IsChain.nil)
    refine ⟨.leaf d, by rw [OperatorTree.map, OperatorTree.map, hops], ?_, ?_, ?_⟩
    · rw [harith, show builtValue (.leaf d) = .int i from hbuilt]
      rfl
    · rw [harith, show prescribedValue (.leaf d) = .int j from hprescribed]
      rfl
    · rw [show builtValue (.leaf d) = .int i from hbuilt,
        show prescribedValue (.leaf d) = .int j from hprescribed]
      simpa using hne
  | node op l r ihl ihr =>
    obtain ⟨hop, hl, hr⟩ := hT
    obtain ⟨s, s', hs, hs', haccepts, rfl⟩ := typeOfTree_node ht
    obtain ⟨hright, hleft⟩ := exists_eval_ne haccepts hop
    by_cases hgood : l.All (fun _ => True) (fun c => DivisionsLead c.ops)
    · have hbad : ¬ r.All (fun _ => True) (fun c => DivisionsLead c.ops) :=
        fun h => hlead ⟨trivial, hgood, h⟩
      obtain ⟨r', hrops, hrb, hrp, hne⟩ := ihr hr hs' hbad
      obtain ⟨x, hx, hxne⟩ := hleft _ _ hrb hrp hne
      obtain ⟨l', hlops, hlb, hlp⟩ := exists_operands hl hs hx
      refine ⟨.node op l' r', ?_, type_eval op _ _, type_eval op _ _, ?_⟩
      · rw [OperatorTree.map, OperatorTree.map, hlops, hrops]
      · change op.eval (builtValue l') (builtValue r') ≠
          op.eval (prescribedValue l') (prescribedValue r')
        rwa [hlb, hlp]
    · obtain ⟨l', hlops, hlb, hlp, hne⟩ := ihl hl hs hgood
      obtain ⟨y, hy, hyne⟩ := hright _ _ hlb hlp hne
      obtain ⟨r', hrops, hrb, hrp⟩ := exists_operands hr hs' hy
      refine ⟨.node op l' r', ?_, type_eval op _ _, type_eval op _ _, ?_⟩
      · rw [OperatorTree.map, OperatorTree.map, hlops, hrops]
      · change op.eval (builtValue l') (builtValue r') ≠
          op.eval (prescribedValue l') (prescribedValue r')
        rwa [hrb, hrp]

end Trees

section Layers

variable {α β : Type}

/-- The operators that the builder knows. -/
def Accepted (ops : List BinaryOperator) : Prop :=
  ∀ op ∈ ops, op ≠ .exponentiation ∧ op ≠ .modulo

theorem isLayered_skeleton {c : Chain BinaryOperator α} (h : Accepted c.ops) :
    IsLayered (skeleton looseLevels c) := by
  refine skeleton_all _ looseLevels c h (fun l hl op _ hop => BinaryOperator.isFactor_eq_false hl hop)
    fun d hd op hop => ?_
  obtain ⟨⟨hexponentiation, hmodulo⟩, hloose⟩ := hd op hop
  revert hloose hexponentiation hmodulo
  cases op <;> simp [looseLevels, prescribedLevels, Level.of]

theorem divisionsLead_iff_skeleton (c : Chain BinaryOperator α) :
    DivisionsLead c.ops ↔
      (skeleton looseLevels c).All (fun _ => True) (fun d => DivisionsLead d.ops) := by
  refine isChain_skeleton looseLevels (fun l hl op op' hop hdivide => ?_) c
  subst hdivide
  rcases hop with hop | hop
  · have hfactor := BinaryOperator.isFactor_eq_false hl hop
    constructor <;> rintro rfl <;> cases hfactor
  · exact absurd (BinaryOperator.isFactor_eq_false hl hop) (by decide)

theorem fold_builtRun_eq {node : BinaryOperator → β → β → β}
    {T : OperatorTree BinaryOperator (Chain BinaryOperator β)} (hT : IsLayered T)
    (hlead : T.All (fun _ => True) (fun c => DivisionsLead c.ops)) :
    T.fold node (builtRun node) = T.fold node (prescribedRun node) := by
  induction T with
  | leaf c => exact builtRun_eq_prescribedRun hT hlead
  | node op l r ihl ihr =>
    simp only [OperatorTree.fold]
    rw [ihl hT.2.1 hlead.2.1, ihr hT.2.2 hlead.2.2]

theorem prescribedType_eq (c : Chain BinaryOperator ExpressionType) :
    prescribedType c = typeOfTree (skeleton looseLevels c) := by
  rw [prescribedType, groupWith_prescribed, ← groupWith_eq_fold, groupWith_map, groupWith_eq_fold]
  rfl

theorem visitExpression_eq {c : Chain BinaryOperator Expression} (h : Accepted c.ops) :
    Ast.visitExpression c =
      .ok (groupWith .binary Chain.first Ast.expressionAlternatives c) := by
  have hall : (skeleton Ast.expressionAlternatives c).All
      (fun op => op ≠ .exponentiation ∧ op ≠ .modulo) (fun _ => True) :=
    skeleton_all _ _ c h (fun _ _ _ hop _ => hop) (fun _ _ => trivial)
  rw [Ast.visitExpression, groupWith_eq_fold, groupWith_eq_fold]
  generalize skeleton Ast.expressionAlternatives c = T at hall
  induction T with
  | leaf d => rfl
  | node op l r ihl ihr =>
    simp only [OperatorTree.fold, ihl hall.2.1, ihr hall.2.2]
    cases op with
    | exponentiation => exact absurd rfl hall.1.1
    | modulo => exact absurd rfl hall.1.2
    | _ => rfl

theorem eval_groupWith (ls : List (Level BinaryOperator)) (c : Chain BinaryOperator Expression)
    (σ : Valuation) : (groupWith .binary Chain.first ls c).eval σ =
      groupWith BinaryOperator.eval Chain.first ls (c.map (Expression.eval σ)) := by
  rw [groupWith_hom (h := Expression.eval σ) (fun _ _ _ => rfl), groupWith_map]
  rfl

def Value.constant : Value → Expression
  | bool b => .booleanConstant b
  | int i => .integerConstant i

theorem Value.eval_constant (v : Value) (σ : Valuation) : v.constant.eval σ = v := by
  cases v <;> rfl

theorem eval_visitExpression {ops : List BinaryOperator} (haccepted : Accepted ops)
    (h : GroupedAsPrescribed ops) (c : Chain BinaryOperator Value) (hops : c.ops = ops) :
    groupWith BinaryOperator.eval Chain.first Ast.expressionAlternatives c =
      groupWith BinaryOperator.eval Chain.first prescribedLevels c := by
  have hconstants : ∀ σ, (c.map Value.constant).map (Expression.eval σ) = c := by
    intro σ
    rw [Chain.map_map]
    simp [Chain.map, Value.eval_constant]
  obtain ⟨e, he, hvalue⟩ := h (c.map Value.constant) (by rw [Chain.ops_map, hops])
  rw [visitExpression_eq (by rwa [Chain.ops_map, hops])] at he
  have hσ := hvalue fun _ => .int 0
  rwa [← Except.ok.inj he, prescribedExpression, eval_groupWith, eval_groupWith, hconstants] at hσ

theorem groupedAsPrescribed_of_lead {ops : List BinaryOperator} (haccepted : Accepted ops)
    (hlead : DivisionsLead ops) : GroupedAsPrescribed ops := by
  rintro c rfl
  refine ⟨_, visitExpression_eq haccepted, fun σ => ?_⟩
  rw [prescribedExpression, groupWith_alternatives, groupWith_prescribed,
    fold_builtRun_eq (isLayered_skeleton haccepted) ((divisionsLead_iff_skeleton c).mp hlead)]

theorem lead_of_groupedAsPrescribed {ops : List BinaryOperator} (haccepted : Accepted ops)
    (htypable : Typable ops) (h : GroupedAsPrescribed ops) : DivisionsLead ops := by
  obtain ⟨c, rfl, htype⟩ := htypable
  obtain ⟨t, ht⟩ := Option.ne_none_iff_exists'.mp htype
  rw [prescribedType_eq] at ht
  by_contra hlead
  obtain ⟨T, hT, -, -, hne⟩ := exists_value_ne (isLayered_skeleton haccepted) ht
    fun hall => hlead ((divisionsLead_iff_skeleton c).mpr hall)
  obtain ⟨c', hops, rfl⟩ := exists_skeleton looseLevels c T hT
  apply hne
  have heq := eval_visitExpression haccepted h c' hops
  rwa [groupWith_alternatives, groupWith_prescribed] at heq

/-- The expression that is built for a chain of operands has the value of the standard's grouping
exactly when no division stands behind a multiplication or a division. -/
theorem groupedAsPrescribed_iff (ops : List BinaryOperator) (haccepted : Accepted ops) :
    (DivisionsLead ops → GroupedAsPrescribed ops) ∧
      (Typable ops → GroupedAsPrescribed ops → DivisionsLead ops) :=
  ⟨groupedAsPrescribed_of_lead haccepted, lead_of_groupedAsPrescribed haccepted⟩

theorem groupedAsPrescribed_sum :
    (DivisionsLead [.divide, .multiply, .subtract, .divide, .lessThan, .booleanAnd] →
      GroupedAsPrescribed [.divide, .multiply, .subtract, .divide, .lessThan, .booleanAnd]) ∧
      (Typable [.divide, .multiply, .subtract, .divide, .lessThan, .booleanAnd] →
        GroupedAsPrescribed [.divide, .multiply, .subtract, .divide, .lessThan, .booleanAnd] →
        DivisionsLead [.divide, .multiply, .subtract, .divide, .lessThan, .booleanAnd]) :=
  groupedAsPrescribed_iff _ (by unfold Accepted; decide)

/-- Eight divided by four divided by two is four instead of one. -/
theorem quotients_not_groupedAsPrescribed :
    Typable [.divide, .divide] ∧ ¬ GroupedAsPrescribed [.divide, .divide] := by
  refine ⟨⟨⟨.arithmetic, [(.divide, .arithmetic), (.divide, .arithmetic)]⟩, rfl, by decide⟩, ?_⟩
  intro h
  obtain ⟨e, he, hvalue⟩ := h
    ⟨.integerConstant 8, [(.divide, .integerConstant 4), (.divide, .integerConstant 2)]⟩ rfl
  have hσ := hvalue fun _ => .int 0
  rw [← Except.ok.inj he] at hσ
  exact absurd hσ (by decide)

end Layers

end Ahorn
