import Ahorn.ExpressionTypes
import Mathlib.Tactic.SplitIfs
import Mathlib.Tactic.Tauto

set_option autoImplicit false

/-!
# The semantic analysis of expressions

The analyzer makes the conversions between booleans and integers explicit. It visits the operands of
binary operators and of change expressions first; what stands below a unary operator it does not
visit.
-/
namespace Ahorn

/-- The operators that compare the size of numbers. -/
def BinaryOperator.isOrdering : BinaryOperator → Bool
  | greaterThan | lessThan | greaterThanOrEqualTo | lessThanOrEqualTo => true
  | _ => false

namespace Analyzer

open Expression

/-- The type that is found at an expression behind its visit, which sets the type of a change
expression. -/
def typeOf : Expression → ExpressionType
  | change _ new => typeOf new
  | e => e.getType

def isBooleanOperand : Expression → Bool
  | booleanConstant _ | reference _ => true
  | _ => false

def isIntegerOperand : Expression → Bool
  | integerConstant _ | reference _ => true
  | _ => false

def invalidType : String := "BinaryExpression has invalid type."

def castToInteger (message : String) (e : Expression) : Except String Expression :=
  if isBooleanOperand e then .ok (booleanToInteger e) else .error message

def castToBoolean (message : String) (e : Expression) : Except String Expression :=
  if isIntegerOperand e then .ok (integerToBoolean e) else .error message

def visitDivision (op : BinaryOperator) (l r : Expression) : Except String Expression :=
  if typeOf l = .arithmetic ∧ typeOf r = .arithmetic then .ok (binary op l r)
  else if typeOf l = .boolean ∨ typeOf r = .boolean then .error invalidType
  else .ok (binary op l r)

/-- Every operand that is not of the type of the operator is cast. -/
def convertOperands (t : ExpressionType) (cast : Expression → Except String Expression)
    (op : BinaryOperator) (l r : Expression) : Except String Expression :=
  if typeOf l = t ∧ typeOf r = t then .ok (binary op l r)
  else if typeOf l = t then do return binary op l (← cast r)
  else if typeOf r = t then do return binary op (← cast l) r
  else do return binary op (← cast l) (← cast r)

def visitOrdering (op : BinaryOperator) (l r : Expression) : Except String Expression :=
  if typeOf l = .boolean ∧ typeOf r = .arithmetic then
    if isBooleanOperand l then .ok (binary op (integerToBoolean l) r) else .error invalidType
  else if typeOf l = .arithmetic ∧ typeOf r = .boolean then
    -- what is converted is the right operand, what is replaced the left one
    if isBooleanOperand r then .ok (binary op (integerToBoolean r) r) else .error invalidType
  else if typeOf l = .boolean ∧ typeOf r = .boolean then .error invalidType
  else .ok (binary op l r)

def visitEquality (op : BinaryOperator) (l r : Expression) : Except String Expression :=
  if typeOf l = .boolean ∧ typeOf r = .boolean then .ok (binary op l r)
  else if typeOf l = .arithmetic ∧ typeOf r = .arithmetic then .ok (binary op l r)
  else .error "Not implemented yet."

def visitBinary (op : BinaryOperator) (l r : Expression) : Except String Expression :=
  if typeOf l = .undefined ∨ typeOf r = .undefined then .error "assertion failed" else
  match op with
  | .divide | .modulo | .exponentiation => visitDivision op l r
  | .multiply | .add | .subtract => convertOperands .arithmetic (castToInteger invalidType) op l r
  | .greaterThan | .lessThan | .greaterThanOrEqualTo | .lessThanOrEqualTo => visitOrdering op l r
  | .equality | .inequality => visitEquality op l r
  | .booleanAnd | .booleanExclusiveOr | .booleanOr =>
    convertOperands .boolean (castToBoolean invalidType) op l r

def visit : Expression → Except String Expression
  | binary op l r => do visitBinary op (← visit l) (← visit r)
  | change old new => do
    let old ← visit old
    let new ← visit new
    if typeOf old = typeOf new then return change old new
    else throw "assertion failed"
  | e => .ok e

/-- The result is well-typed, has the value of the original, and has its operators and operands at
their places. -/
structure Preserves (e e' : Expression) : Prop where
  wellTyped : e'.WellTyped
  value : ∀ σ, e'.eval σ = e.eval σ
  operands : e'.withoutCasts = e

/-- What the analyzer gets right: numbers are compared with numbers only, what stands below a unary
operator needs no conversion, and no instance stands for a value. -/
def Handles : Expression → Prop
  | unary op e => (unary op e).WellTyped
  | binary op l r => Handles l ∧ Handles r ∧ (op.isOrdering = true → l.valueType = r.valueType)
  | change old new => Handles old ∧ Handles new
  | e => e.valueType ≠ .undefined

/-- What a visit of a binary expression with these operands returns. -/
structure VisitedBinary (op : BinaryOperator) (l r e : Expression) : Prop where
  valueType : e.valueType = op.getType
  typeOf : typeOf e = op.getType
  wellTyped : e.WellTyped ↔
    l.WellTyped ∧ r.WellTyped ∧ (op.isOrdering = true → l.valueType = r.valueType)
  value : (op.isOrdering = true → l.valueType = r.valueType) →
    ∀ σ, e.eval σ = op.eval (l.eval σ) (r.eval σ)
  operands : (op.isOrdering = true → l.valueType = r.valueType) →
    e.withoutCasts = binary op l.withoutCasts r.withoutCasts

theorem visitedBinary_self {op : BinaryOperator} {l r : Expression}
    (h : op.accepts l.valueType r.valueType = true)
    (heq : op.isOrdering = true → l.valueType = r.valueType) :
    VisitedBinary op l r (binary op l r) where
  valueType := rfl
  typeOf := rfl
  wellTyped := by
    rw [WellTyped]
    tauto
  value := fun _ _ => rfl
  operands := fun _ => rfl

/-- Values that are the same when they are read as values of a type. -/
def SameAs : ExpressionType → Value → Value → Prop
  | .arithmetic, v, w => v.toInt = w.toInt
  | .boolean, v, w => v.toBool = w.toBool
  | .undefined, _, _ => True

/-- An operand that has got the type of its operator. -/
structure Converted (t : ExpressionType) (e e' : Expression) : Prop where
  valueType : e'.valueType = t
  wellTyped : e'.WellTyped ↔ e.WellTyped
  operands : e'.withoutCasts = e.withoutCasts
  value : ∀ σ, SameAs t (e'.eval σ) (e.eval σ)

theorem converted_self {t : ExpressionType} {e : Expression} (h : e.valueType = t) :
    Converted t e e where
  valueType := h
  wellTyped := Iff.rfl
  operands := rfl
  value := fun _ => by cases t <;> trivial

theorem converted_toInteger {message : String} {e e' : Expression} (htype : e.valueType = .boolean)
    (h : castToInteger message e = .ok e') : Converted .arithmetic e e' := by
  unfold castToInteger at h
  split_ifs at h
  cases h
  exact ⟨rfl, and_iff_left htype, rfl, fun _ => rfl⟩

theorem converted_toBoolean {message : String} {e e' : Expression}
    (htype : e.valueType = .arithmetic) (h : castToBoolean message e = .ok e') :
    Converted .boolean e e' := by
  unfold castToBoolean at h
  split_ifs at h
  cases h
  exact ⟨rfl, and_iff_left htype, rfl, fun _ => rfl⟩

theorem visitedBinary_of_converted {op : BinaryOperator} {t : ExpressionType}
    {l r l' r' : Expression} (haccepts : op.accepts t t = true) (hordering : op.isOrdering = false)
    (heval : ∀ v v' w w', SameAs t v' v → SameAs t w' w → op.eval v' w' = op.eval v w)
    (hl : Converted t l l') (hr : Converted t r r') :
    VisitedBinary op l r (binary op l' r') where
  valueType := rfl
  typeOf := rfl
  wellTyped := by
    rw [WellTyped, hl.wellTyped, hr.wellTyped, hl.valueType, hr.valueType, haccepts, hordering]
    simp
  value := fun _ σ => heval _ _ _ _ (hl.value σ) (hr.value σ)
  operands := fun _ => by rw [withoutCasts, hl.operands, hr.operands]

theorem eq_boolean {t : ExpressionType} (hundefined : t ≠ .undefined) (h : t ≠ .arithmetic) :
    t = .boolean := by
  cases t <;> simp_all

theorem eq_arithmetic {t : ExpressionType} (hundefined : t ≠ .undefined) (h : t ≠ .boolean) :
    t = .arithmetic := by
  cases t <;> simp_all

theorem visitedBinary_convertOperands {op : BinaryOperator} {t : ExpressionType}
    {cast : Expression → Except String Expression} {l r e : Expression}
    (haccepts : op.accepts t t = true) (hordering : op.isOrdering = false)
    (heval : ∀ v v' w w', SameAs t v' v → SameAs t w' w → op.eval v' w' = op.eval v w)
    (hcastl : ∀ l', l.valueType ≠ t → cast l = .ok l' → Converted t l l')
    (hcastr : ∀ r', r.valueType ≠ t → cast r = .ok r' → Converted t r r')
    (hl : typeOf l = l.valueType) (hr : typeOf r = r.valueType)
    (h : convertOperands t cast op l r = .ok e) : VisitedBinary op l r e := by
  unfold convertOperands at h
  rw [hl, hr] at h
  split_ifs at h with hboth hleft hright
  · cases h
    exact visitedBinary_of_converted haccepts hordering heval (converted_self hboth.1)
      (converted_self hboth.2)
  · cases hr' : cast r with
    | error m => simp [hr', bind, Except.bind] at h
    | ok r' =>
      simp only [hr', bind, Except.bind, pure, Except.pure, Except.ok.injEq] at h
      subst h
      exact visitedBinary_of_converted haccepts hordering heval (converted_self hleft)
        (hcastr r' (fun hr => hboth ⟨hleft, hr⟩) hr')
  · cases hl' : cast l with
    | error m => simp [hl', bind, Except.bind] at h
    | ok l' =>
      simp only [hl', bind, Except.bind, pure, Except.pure, Except.ok.injEq] at h
      subst h
      exact visitedBinary_of_converted haccepts hordering heval (hcastl l' hleft hl')
        (converted_self hright)
  · cases hl' : cast l with
    | error m => simp [hl', bind, Except.bind] at h
    | ok l' =>
      cases hr' : cast r with
      | error m => simp [hl', hr', bind, Except.bind] at h
      | ok r' =>
        simp only [hl', hr', bind, Except.bind, pure, Except.pure, Except.ok.injEq] at h
        subst h
        exact visitedBinary_of_converted haccepts hordering heval (hcastl l' hleft hl')
          (hcastr r' hright hr')

theorem visitedBinary_mixed {op : BinaryOperator} {l r x : Expression}
    (hordering : op.isOrdering = true) (hne : l.valueType ≠ r.valueType) :
    VisitedBinary op l r (binary op (integerToBoolean x) r) where
  valueType := rfl
  typeOf := rfl
  wellTyped := by
    have haccepts : op.accepts .boolean r.valueType = false := by
      cases op <;> simp_all [BinaryOperator.accepts, BinaryOperator.isOrdering]
    simp [WellTyped, Expression.valueType, haccepts, hordering, hne]
  value := fun heq => absurd (heq hordering) hne
  operands := fun heq => absurd (heq hordering) hne

theorem visitedBinary_visitOrdering {op : BinaryOperator} {l r e : Expression}
    (hordering : op.isOrdering = true) (hundefinedl : l.valueType ≠ .undefined)
    (hundefinedr : r.valueType ≠ .undefined) (hl : typeOf l = l.valueType)
    (hr : typeOf r = r.valueType) (h : visitOrdering op l r = .ok e) : VisitedBinary op l r e := by
  unfold visitOrdering at h
  rw [hl, hr] at h
  split_ifs at h with hmixed hoperand hmixed' hoperand' hboolean
  · cases h
    exact visitedBinary_mixed hordering (by simp [hmixed])
  · cases h
    exact visitedBinary_mixed hordering (by simp [hmixed'])
  · cases h
    have hnumbers : l.valueType = .arithmetic ∧ r.valueType = .arithmetic := by
      revert hmixed hmixed' hboolean hundefinedl hundefinedr
      cases l.valueType <;> cases r.valueType <;> simp
    refine visitedBinary_self ?_ (fun _ => hnumbers.1.trans hnumbers.2.symm)
    rw [hnumbers.1, hnumbers.2]
    cases op <;> simp_all [BinaryOperator.accepts, BinaryOperator.isOrdering]

theorem visitedBinary_of_eq_ok {op : BinaryOperator} {l r e : Expression}
    (hl : typeOf l = l.valueType) (hr : typeOf r = r.valueType)
    (h : visitBinary op l r = .ok e) : VisitedBinary op l r e := by
  unfold visitBinary at h
  by_cases hundefined : typeOf l = .undefined ∨ typeOf r = .undefined
  · simp [hundefined] at h
  rw [if_neg hundefined] at h
  rw [hl, hr] at hundefined
  obtain ⟨hundefinedl, hundefinedr⟩ := not_or.mp hundefined
  cases op with
  | divide | modulo | exponentiation =>
    simp only [visitDivision, hl, hr] at h
    split_ifs at h with hboth hboolean
    · cases h
      exact visitedBinary_self (by simp [BinaryOperator.accepts, hboth]) (by simp [hboth])
    · obtain ⟨hbooleanl, hbooleanr⟩ := not_or.mp hboolean
      exact absurd ⟨eq_arithmetic hundefinedl hbooleanl, eq_arithmetic hundefinedr hbooleanr⟩ hboth
  | multiply | add | subtract =>
    exact visitedBinary_convertOperands rfl rfl (by simp_all [SameAs, BinaryOperator.eval])
      (fun l' ht => converted_toInteger (eq_boolean hundefinedl ht))
      (fun r' ht => converted_toInteger (eq_boolean hundefinedr ht)) hl hr h
  | greaterThan | lessThan | greaterThanOrEqualTo | lessThanOrEqualTo =>
    exact visitedBinary_visitOrdering rfl hundefinedl hundefinedr hl hr h
  | equality | inequality =>
    simp only [visitEquality, hl, hr] at h
    split_ifs at h with hboolean hnumbers
    · cases h
      exact visitedBinary_self (by simp [BinaryOperator.accepts, hboolean]) (by simp [hboolean])
    · cases h
      exact visitedBinary_self (by simp [BinaryOperator.accepts, hnumbers]) (by simp [hnumbers])
  | booleanAnd | booleanExclusiveOr | booleanOr =>
    exact visitedBinary_convertOperands rfl rfl (by simp_all [SameAs, BinaryOperator.eval])
      (fun l' ht => converted_toBoolean (eq_arithmetic hundefinedl ht))
      (fun r' ht => converted_toBoolean (eq_arithmetic hundefinedr ht)) hl hr h

theorem withoutCasts_ne_cast (e x : Expression) :
    e.withoutCasts ≠ booleanToInteger x ∧ e.withoutCasts ≠ integerToBoolean x := by
  induction e with
  | booleanToInteger e ih => exact ih
  | integerToBoolean e ih => exact ih
  | _ => constructor <;> simp [withoutCasts]

/-- What a visit returns. -/
structure Visited (e e' : Expression) : Prop where
  typeOf : typeOf e' = e'.valueType
  valueType : e'.valueType = e.valueType
  preserves : Handles e → Preserves e e'
  handles : e'.WellTyped → Handles e

theorem visited_of_eq_ok {e e' : Expression} (hcasts : e.withoutCasts = e)
    (h : visit e = .ok e') : Visited e e' := by
  induction e generalizing e' with
  | binary op l r ihl ihr =>
    obtain ⟨hcastsl, hcastsr⟩ := (binary.inj hcasts).2
    simp only [visit, bind, Except.bind] at h
    cases hl : visit l with
    | error m => simp [hl] at h
    | ok l' =>
      cases hr : visit r with
      | error m => simp [hl, hr] at h
      | ok r' =>
        simp only [hl, hr] at h
        have hl' := ihl hcastsl hl
        have hr' := ihr hcastsr hr
        have hbinary := visitedBinary_of_eq_ok hl'.typeOf hr'.typeOf h
        have htypes : (op.isOrdering = true → l'.valueType = r'.valueType) ↔
            (op.isOrdering = true → l.valueType = r.valueType) := by
          rw [hl'.valueType, hr'.valueType]
        refine ⟨hbinary.typeOf.trans hbinary.valueType.symm, hbinary.valueType, ?_, ?_⟩
        · rintro ⟨hhandlesl, hhandlesr, hequal⟩
          have hpl := hl'.preserves hhandlesl
          have hpr := hr'.preserves hhandlesr
          refine ⟨hbinary.wellTyped.mpr ⟨hpl.wellTyped, hpr.wellTyped, htypes.mpr hequal⟩, ?_, ?_⟩
          · intro σ
            rw [hbinary.value (htypes.mpr hequal), hpl.value, hpr.value]
            rfl
          · rw [hbinary.operands (htypes.mpr hequal), hpl.operands, hpr.operands]
        · intro hwell
          obtain ⟨hwelll, hwellr, hequal⟩ := hbinary.wellTyped.mp hwell
          exact ⟨hl'.handles hwelll, hr'.handles hwellr, htypes.mp hequal⟩
  | change old new ihold ihnew =>
    obtain ⟨hcastsold, hcastsnew⟩ := change.inj hcasts
    simp only [visit, bind, Except.bind] at h
    cases hold : visit old with
    | error m => simp [hold] at h
    | ok old' =>
      cases hnew : visit new with
      | error m => simp [hold, hnew] at h
      | ok new' =>
        simp only [hold, hnew] at h
        have hold' := ihold hcastsold hold
        have hnew' := ihnew hcastsnew hnew
        split_ifs at h with htypes
        · cases h
          refine ⟨hnew'.typeOf, hnew'.valueType, ?_, ?_⟩
          · rintro ⟨hhandlesold, hhandlesnew⟩
            have hpold := hold'.preserves hhandlesold
            have hpnew := hnew'.preserves hhandlesnew
            refine ⟨⟨hpold.wellTyped, hpnew.wellTyped, ?_⟩, hpnew.value, ?_⟩
            · rw [← hold'.typeOf, ← hnew'.typeOf, htypes]
            · rw [withoutCasts, hpold.operands, hpnew.operands]
          · rintro ⟨hwellold, hwellnew, -⟩
            exact ⟨hold'.handles hwellold, hnew'.handles hwellnew⟩
  | booleanToInteger e _ => exact absurd hcasts (withoutCasts_ne_cast e e).1
  | integerToBoolean e _ => exact absurd hcasts (withoutCasts_ne_cast e e).2
  | _ =>
    cases h
    exact ⟨rfl, rfl, fun hhandles => ⟨hhandles, fun _ => rfl, hcasts⟩, id⟩

/-- The analyzer preserves the meaning and the types of an accepted expression exactly when it
handles the expression. -/
theorem preserves_iff_handles (e e' : Expression) (hcasts : e.withoutCasts = e)
    (h : visit e = .ok e') : Preserves e e' ↔ Handles e :=
  ⟨fun hpreserves => (visited_of_eq_ok hcasts h).handles hpreserves.wellTyped,
    (visited_of_eq_ok hcasts h).preserves⟩

namespace Samples

def count : Expression := reference (.variableAccess ⟨"count", .int, .local, none⟩)
def running : Expression := reference (.variableAccess ⟨"running", .bool, .local, none⟩)

/-- `count + running < 3 AND running` -/
def guard : Expression :=
  binary .booleanAnd (binary .lessThan (binary .add count running) (integerConstant 3)) running

/-- `count < running` -/
def comparison : Expression := binary .lessThan count running

end Samples

open Samples

theorem preserves_guard :
    Preserves guard (binary .booleanAnd (binary .lessThan
      (binary .add count (booleanToInteger running)) (integerConstant 3)) running) ↔
      Handles guard :=
  preserves_iff_handles guard _ rfl rfl

/-- The number on the left is replaced by the boolean on the right. -/
theorem comparison_not_preserved :
    ∃ e', visit comparison = .ok e' ∧ ¬ e'.WellTyped ∧ e'.withoutCasts ≠ comparison ∧
      ∃ σ, e'.eval σ ≠ comparison.eval σ := by
  refine ⟨binary .lessThan (integerToBoolean running) running, rfl, ?_, by decide, ?_⟩
  · intro h
    exact absurd h.2.2 (by decide)
  · exact ⟨fun name => if name = "count" then .int (-1) else .bool false, by decide⟩

end Analyzer

end Ahorn
