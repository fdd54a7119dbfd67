import Ahorn.Intermediate

set_option autoImplicit false

/-!
# Structured text

The statements of a program organisation unit after parsing, and their structured meaning.
-/
namespace Ahorn

/-- A guard as the grammar writes it: the condition of an ELSIF, or the selector of a CASE with the
value list of one of its entries. -/
inductive Guard where
  | condition (expression : Expression)
  | caseSelection (selector value : Expression) (values : List Expression)
  deriving DecidableEq, Repr

/-- The disjunction, nested to the left, of the comparisons with the values of an entry. -/
def compileCaseExpression (selector value : Expression) (values : List Expression) : Expression :=
  values.foldl (fun e v => .binary .booleanOr e (.binary .equality selector v))
    (.binary .equality selector value)

def Guard.expression : Guard → Expression
  | condition e => e
  | caseSelection s v vs => compileCaseExpression s v vs

mutual

inductive Statement where
  | assertStatement (expression : Expression)
  | assignmentStatement (variableReference : VariableReference) (expression : Expression)
  | assumeStatement (expression : Expression)
  | ifStatement (expression : Expression) (thenStatements : StatementList)
      (elseIfStatements : ElseIfStatements) (elseStatements : StatementList)
  | invocationStatement (variableAccess : Variable)
      (preAssignments postAssignments : List (VariableReference × Expression))
  | whileStatement (expression : Expression) (statements : StatementList)
  | caseStatement (cases : ElseIfStatements) (elseStatements : StatementList)

inductive StatementList where
  | nil
  | cons (statement : Statement) (rest : StatementList)

inductive ElseIfStatements where
  | nil
  | cons (guard : Guard) (statements : StatementList) (rest : ElseIfStatements)

end

def StatementList.isEmpty : StatementList → Bool
  | nil => true
  | cons _ _ => false

namespace ElseIfStatements

def isEmpty : ElseIfStatements → Bool
  | nil => true
  | cons _ _ _ => false

def allEmpty : ElseIfStatements → Bool
  | nil => true
  | cons _ s rest => s.isEmpty && rest.allEmpty

end ElseIfStatements

def Guard.holds (m : Memory) : Guard → Bool
  | condition e => m.holds e
  | caseSelection s v vs =>
    decide (s.eval m.valuation ∈ (v :: vs).map (Expression.eval m.valuation))

theorem Guard.holds_expression (m : Memory) (g : Guard) : m.holds g.expression = g.holds m := by
  cases g with
  | condition e => rfl
  | caseSelection s v vs =>
    have key : ∀ (vs : List Expression) (e : Expression) (b : Bool), m.holds e = b →
        m.holds (vs.foldl (fun e v => .binary .booleanOr e (.binary .equality s v)) e) =
          (b || decide (s.eval m.valuation ∈ vs.map (Expression.eval m.valuation))) := by
      intro vs
      induction vs with
      | nil =>
        intro e b h
        simpa using h
      | cons v vs ih =>
        intro e b h
        have hstep : m.holds (.binary .booleanOr e (.binary .equality s v)) =
            (b || decide (s.eval m.valuation = v.eval m.valuation)) := by
          rw [← h]
          rfl
        rw [List.foldl_cons, ih _ _ hstep]
        simp [Bool.or_assoc]
    have h := key vs (.binary .equality s v) _ rfl
    simp only [Guard.expression, compileCaseExpression, Guard.holds, h]
    simp [Memory.holds, Expression.eval, BinaryOperator.eval, Value.toBool]

/-- The part of a selection that runs: that of the first guard that holds. -/
def ElseIfStatements.select (m : Memory) (elseStatements : StatementList) :
    ElseIfStatements → StatementList
  | nil => elseStatements
  | cons g s rest => if g.holds m then s else rest.select m elseStatements

/-- An assignment of a nondeterministic constant takes the next havoc value. -/
def Memory.write (r : VariableReference) (e : Expression) (m : Memory) : Memory :=
  match e with
  | .nondeterministicConstant _ => m.havoc r
  | e => m.assign r e

/-- Terminating executions of a list of statements. -/
inductive Exec : StatementList → Memory → Memory → Prop where
  | nil (m : Memory) : Exec .nil m m
  | assignment {r : VariableReference} {e : Expression} {rest : StatementList} {m m' : Memory} :
      Exec rest (m.write r e) m' → Exec (.cons (.assignmentStatement r e) rest) m m'
  | selection {e : Expression} {thn els rest : StatementList} {elseIfs : ElseIfStatements}
      {m m₁ m' : Memory} :
      Exec ((ElseIfStatements.cons (.condition e) thn elseIfs).select m els) m m₁ →
      Exec rest m₁ m' → Exec (.cons (.ifStatement e thn elseIfs els) rest) m m'
  | caseSelection {cases : ElseIfStatements} {els rest : StatementList} {m m₁ m' : Memory} :
      Exec (cases.select m els) m m₁ → Exec rest m₁ m' →
      Exec (.cons (.caseStatement cases els) rest) m m'
  | whileFalse {e : Expression} {body rest : StatementList} {m m' : Memory} :
      m.holds e = false → Exec rest m m' → Exec (.cons (.whileStatement e body) rest) m m'
  | whileTrue {e : Expression} {body rest : StatementList} {m m₁ m' : Memory} :
      m.holds e = true → Exec body m m₁ → Exec (.cons (.whileStatement e body) rest) m₁ m' →
      Exec (.cons (.whileStatement e body) rest) m m'

theorem Exec.deterministic {s : StatementList} {m m₁ m₂ : Memory} (h₁ : Exec s m m₁)
    (h₂ : Exec s m m₂) : m₁ = m₂ := by
  induction h₁ generalizing m₂ with
  | nil m =>
    cases h₂
    rfl
  | assignment _ ih =>
    cases h₂ with
    | assignment h => exact ih h
  | selection _ _ ihs ihr =>
    cases h₂ with
    | selection hs hr =>
      have := ihs hs
      subst this
      exact ihr hr
  | caseSelection _ _ ihs ihr =>
    cases h₂ with
    | caseSelection hs hr =>
      have := ihs hs
      subst this
      exact ihr hr
  | whileFalse hg _ ih =>
    cases h₂ with
    | whileFalse _ h => exact ih h
    | whileTrue hg' _ _ => simp [hg] at hg'
  | whileTrue hg _ _ ihb ihr =>
    cases h₂ with
    | whileFalse hg' _ => simp [hg] at hg'
    | whileTrue _ hb hr =>
      have := ihb hb
      subst this
      exact ihr hr

end Ahorn
