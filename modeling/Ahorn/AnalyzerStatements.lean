import Ahorn.Analyzer
import Ahorn.Results
import Ahorn.StructuredText

set_option autoImplicit false

/-!
# The semantic analysis of statements

The analyzer goes through the statements of a unit, but not into them: it visits the guard of a
selection or a loop, and leaves the statements below as they are.
-/
namespace Ahorn

namespace Analyzer

open Expression

def invalidRightHandSide : String := "RHS has invalid type and kind."

/-- The right-hand side of an assignment after its visit, converted to the type of the target. -/
def convertAssigned (dataType : DataType) (e : Expression) : Except String Expression :=
  match dataType with
  | .int =>
    match typeOf e with
    | .boolean => castToInteger invalidRightHandSide e
    | .arithmetic => .ok e
    | .undefined => .error "Invalid expression type."
  | .real => .error "REAL not implemented yet."
  | .bool | .safeBool =>
    match typeOf e with
    | .boolean => .ok e
    | .arithmetic => castToBoolean invalidRightHandSide e
    | .undefined => .error "Invalid expression type."
  | .time =>
    match typeOf e with
    | .boolean => .error invalidRightHandSide
    | .arithmetic => .ok e
    | .undefined => .error "Invalid expression type."
  | .enumeratedType _ =>
    match e with
    | enumeratedValue _ => .ok e
    | _ => .error "assertion failed"
  | .derivedType _ | .simpleType _ | .inconclusiveType =>
    .error "Invalid type for LHS of assignment statement."

def visitAssignment (a : VariableReference × Expression) :
    Except String (VariableReference × Expression) := do
  return (a.1, ← convertAssigned a.1.getVariable.dataType (← visit a.2))

def visitStatement : Statement → Except String Statement
  | .assertStatement _ | .assumeStatement _ => .error "Not implemented yet."
  | .assignmentStatement r e => do
    let a ← visitAssignment (r, e)
    return .assignmentStatement a.1 a.2
  | .ifStatement e thenStatements elseIfStatements elseStatements => do
    return .ifStatement (← visit e) thenStatements elseIfStatements elseStatements
  | .invocationStatement v preAssignments postAssignments => do
    return .invocationStatement v (← preAssignments.mapM visitAssignment)
      (← postAssignments.mapM visitAssignment)
  | .whileStatement e statements => do return .whileStatement (← visit e) statements
  | .caseStatement cases elseStatements => .ok (.caseStatement cases elseStatements)

def visitStatements : StatementList → Except String StatementList
  | .nil => .ok .nil
  | .cons s rest => do return .cons (← visitStatement s) (← visitStatements rest)

/-- The bodies of the units of a project, one after the other. -/
def analyze (pous : List StatementList) : Except String (List StatementList) :=
  pous.mapM visitStatements

end Analyzer

/-- The right-hand side is well-typed and of the type of the target. -/
def AssignmentConsistent (a : VariableReference × Expression) : Prop :=
  a.2.WellTyped ∧ a.2.valueType = a.1.getVariable.dataType.getType

def ConditionConsistent (e : Expression) : Prop := e.WellTyped ∧ e.valueType = .boolean

mutual

/-- Every assignment and every condition in the statement is well-typed, at any depth. -/
def Statement.Consistent : Statement → Prop
  | .assertStatement e | .assumeStatement e => ConditionConsistent e
  | .assignmentStatement r e => AssignmentConsistent (r, e)
  | .ifStatement e thenStatements elseIfStatements elseStatements =>
    ConditionConsistent e ∧ thenStatements.Consistent ∧ elseIfStatements.Consistent ∧
      elseStatements.Consistent
  | .invocationStatement _ preAssignments postAssignments =>
    (∀ a ∈ preAssignments, AssignmentConsistent a) ∧ ∀ a ∈ postAssignments, AssignmentConsistent a
  | .whileStatement e statements => ConditionConsistent e ∧ statements.Consistent
  | .caseStatement cases elseStatements => cases.Consistent ∧ elseStatements.Consistent

def StatementList.Consistent : StatementList → Prop
  | .nil => True
  | .cons s rest => s.Consistent ∧ rest.Consistent

def ElseIfStatements.Consistent : ElseIfStatements → Prop
  | .nil => True
  | .cons guard statements rest =>
    ConditionConsistent guard.expression ∧ statements.Consistent ∧ rest.Consistent

end

namespace Analyzer

open Expression

def visited : Statement → List Expression
  | .assignmentStatement _ e | .ifStatement e _ _ _ | .whileStatement e _ => [e]
  | .invocationStatement _ preAssignments postAssignments =>
    (preAssignments ++ postAssignments).map Prod.snd
  | .assertStatement _ | .assumeStatement _ | .caseStatement _ _ => []

/-- The analyzer handles what it visits in the statement, a guard that it visits is a boolean, and
what it does not visit is consistent as it is written. -/
def Reaches : Statement → Prop
  | .assertStatement _ | .assumeStatement _ => True
  | .assignmentStatement _ e => Handles e
  | .ifStatement e thenStatements elseIfStatements elseStatements =>
    (Handles e ∧ e.valueType = .boolean) ∧ thenStatements.Consistent ∧
      elseIfStatements.Consistent ∧ elseStatements.Consistent
  | .invocationStatement _ preAssignments postAssignments =>
    (∀ a ∈ preAssignments, Handles a.2) ∧ ∀ a ∈ postAssignments, Handles a.2
  | .whileStatement e statements => (Handles e ∧ e.valueType = .boolean) ∧ statements.Consistent
  | .caseStatement cases elseStatements => cases.Consistent ∧ elseStatements.Consistent

def ReachesAll : StatementList → Prop
  | .nil => True
  | .cons s rest => Reaches s ∧ ReachesAll rest

def CastFree : StatementList → Prop
  | .nil => True
  | .cons s rest => (∀ e ∈ visited s, e.withoutCasts = e) ∧ CastFree rest

theorem wellTyped_iff_handles {e e' : Expression} (hcasts : e.withoutCasts = e)
    (h : visit e = .ok e') : e'.WellTyped ↔ Handles e :=
  ⟨(visited_of_eq_ok hcasts h).handles,
    fun hhandles => ((visited_of_eq_ok hcasts h).preserves hhandles).wellTyped⟩

theorem convertAssigned_eq_ok {dataType : DataType} {e e' : Expression}
    (htype : typeOf e = e.valueType) (h : convertAssigned dataType e = .ok e') :
    e'.valueType = dataType.getType ∧ (e'.WellTyped ↔ e.WellTyped) := by
  cases dataType with
  | int =>
    simp only [convertAssigned, htype] at h
    cases hvalue : e.valueType with
    | boolean =>
      simp only [hvalue] at h
      have hconverted := converted_toInteger hvalue h
      exact ⟨hconverted.valueType, hconverted.wellTyped⟩
    | arithmetic =>
      simp only [hvalue, Except.ok.injEq] at h
      subst h
      exact ⟨hvalue, Iff.rfl⟩
    | undefined => simp [hvalue] at h
  | bool | safeBool =>
    simp only [convertAssigned, htype] at h
    cases hvalue : e.valueType with
    | boolean =>
      simp only [hvalue, Except.ok.injEq] at h
      subst h
      exact ⟨hvalue, Iff.rfl⟩
    | arithmetic =>
      simp only [hvalue] at h
      have hconverted := converted_toBoolean hvalue h
      exact ⟨hconverted.valueType, hconverted.wellTyped⟩
    | undefined => simp [hvalue] at h
  | time =>
    simp only [convertAssigned, htype] at h
    cases hvalue : e.valueType with
    | boolean => simp [hvalue] at h
    | arithmetic =>
      simp only [hvalue, Except.ok.injEq] at h
      subst h
      exact ⟨hvalue, Iff.rfl⟩
    | undefined => simp [hvalue] at h
  | enumeratedType name =>
    cases e with
    | enumeratedValue i =>
      cases h
      exact ⟨rfl, Iff.rfl⟩
    | _ => simp [convertAssigned] at h
  | real | derivedType _ | simpleType _ | inconclusiveType => simp [convertAssigned] at h

theorem consistent_visitAssignment {a a' : VariableReference × Expression}
    (hcasts : a.2.withoutCasts = a.2) (h : visitAssignment a = .ok a') :
    AssignmentConsistent a' ↔ Handles a.2 := by
  obtain ⟨e, he, h⟩ := bind_eq_ok h
  obtain ⟨e', he', h⟩ := bind_eq_ok h
  cases h
  obtain ⟨hvalue, hwell⟩ := convertAssigned_eq_ok (visited_of_eq_ok hcasts he).typeOf he'
  rw [AssignmentConsistent, hwell, wellTyped_iff_handles hcasts he]
  exact and_iff_left hvalue

theorem consistent_visitAssignments {as as' : List (VariableReference × Expression)}
    (hcasts : ∀ a ∈ as, a.2.withoutCasts = a.2) (h : as.mapM visitAssignment = .ok as') :
    (∀ a ∈ as', AssignmentConsistent a) ↔ ∀ a ∈ as, Handles a.2 := by
  have hall := forall₂_of_mapM h
  clear h
  induction hall with
  | nil => simp
  | cons ha _ ih =>
    rw [List.forall_mem_cons, List.forall_mem_cons,
      consistent_visitAssignment (hcasts _ List.mem_cons_self) ha]
    exact and_congr_right' (ih fun a ha => hcasts a (List.mem_cons_of_mem _ ha))

theorem consistent_visitCondition {e e' : Expression} (hcasts : e.withoutCasts = e)
    (h : visit e = .ok e') : ConditionConsistent e' ↔ Handles e ∧ e.valueType = .boolean := by
  rw [ConditionConsistent, wellTyped_iff_handles hcasts h, (visited_of_eq_ok hcasts h).valueType]

theorem consistent_visitStatement {s s' : Statement} (hcasts : ∀ e ∈ visited s, e.withoutCasts = e)
    (h : visitStatement s = .ok s') : s'.Consistent ↔ Reaches s := by
  cases s with
  | assertStatement e => cases h
  | assumeStatement e => cases h
  | assignmentStatement r e =>
    obtain ⟨a, ha, h⟩ := bind_eq_ok h
    cases h
    exact consistent_visitAssignment (hcasts e (List.mem_singleton_self e)) ha
  | ifStatement e thenStatements elseIfStatements elseStatements =>
    obtain ⟨e', he, h⟩ := bind_eq_ok h
    cases h
    rw [Statement.Consistent, Reaches,
      consistent_visitCondition (hcasts e (List.mem_singleton_self e)) he]
  | invocationStatement v preAssignments postAssignments =>
    obtain ⟨preAssignments', hpre, h⟩ := bind_eq_ok h
    obtain ⟨postAssignments', hpost, h⟩ := bind_eq_ok h
    cases h
    rw [Statement.Consistent, Reaches,
      consistent_visitAssignments (fun a ha => hcasts _ (List.mem_map_of_mem
        (List.mem_append_left _ ha))) hpre,
      consistent_visitAssignments (fun a ha => hcasts _ (List.mem_map_of_mem
        (List.mem_append_right _ ha))) hpost]
  | whileStatement e statements =>
    obtain ⟨e', he, h⟩ := bind_eq_ok h
    cases h
    rw [Statement.Consistent, Reaches,
      consistent_visitCondition (hcasts e (List.mem_singleton_self e)) he]
  | caseStatement cases elseStatements =>
    cases h
    rw [Statement.Consistent, Reaches]

theorem consistent_visitStatements {l l' : StatementList} (hcasts : CastFree l)
    (h : visitStatements l = .ok l') : l'.Consistent ↔ ReachesAll l := by
  induction l using visitStatements.induct generalizing l' with
  | case1 =>
    cases h
    exact Iff.rfl
  | case2 s rest ih =>
    obtain ⟨s', hs, h⟩ := bind_eq_ok h
    obtain ⟨rest', hrest, h⟩ := bind_eq_ok h
    cases h
    rw [StatementList.Consistent, ReachesAll, consistent_visitStatement hcasts.1 hs,
      ih hcasts.2 hrest]

/-- In every unit of an accepted project the assignments and the conditions are consistent at any
depth, with their casts, exactly when the analyzer reaches all that needs it. -/
theorem consistent_iff_reaches (pous pous' : List StatementList)
    (hcasts : ∀ l ∈ pous, CastFree l) (h : analyze pous = .ok pous') :
    (∀ l ∈ pous', l.Consistent) ↔ ∀ l ∈ pous, ReachesAll l := by
  have hall := forall₂_of_mapM h
  clear h
  induction hall with
  | nil => simp
  | cons hl _ ih =>
    rw [List.forall_mem_cons, List.forall_mem_cons,
      consistent_visitStatements (hcasts _ List.mem_cons_self) hl]
    exact and_congr_right' (ih fun l hl => hcasts l (List.mem_cons_of_mem _ hl))

namespace Samples

def countAccess : VariableReference := .variableAccess ⟨"count", .int, .local, none⟩

/-- `WHILE count < 3 DO count := count + 1; END_WHILE; count := running;` -/
def loop : StatementList :=
  .cons (.whileStatement (binary .lessThan count (integerConstant 3))
    (.cons (.assignmentStatement countAccess (binary .add count (integerConstant 1))) .nil))
    (.cons (.assignmentStatement countAccess running) .nil)

def convertedLoop : StatementList :=
  .cons (.whileStatement (binary .lessThan count (integerConstant 3))
    (.cons (.assignmentStatement countAccess (binary .add count (integerConstant 1))) .nil))
    (.cons (.assignmentStatement countAccess (booleanToInteger running)) .nil)

/-- `IF running THEN count := running; END_IF` -/
def branch : StatementList :=
  .cons (.ifStatement running (.cons (.assignmentStatement countAccess running) .nil) .nil .nil) .nil

end Samples

open Samples

theorem consistent_loop :
    (∀ l ∈ [convertedLoop], l.Consistent) ↔ ∀ l ∈ [loop], ReachesAll l :=
  consistent_iff_reaches [loop] [convertedLoop]
    (by simp [loop, CastFree, visited, count, running, withoutCasts]) rfl

/-- The boolean assigned to an integer inside of a branch gets no cast. -/
theorem branch_not_consistent :
    analyze [branch] = .ok [branch] ∧ ¬ branch.Consistent := by
  refine ⟨rfl, fun h => ?_⟩
  exact absurd h.1.2.1.1.2 (by decide)

end Analyzer

end Ahorn
