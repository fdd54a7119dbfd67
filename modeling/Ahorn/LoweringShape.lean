import Ahorn.LoweredCode

set_option autoImplicit false

/-!
# Which programs the compiler lowers faithfully

The compiler finds the false target of some IFs by looking at the last instruction emitted so far.
`tail` says what this instruction is, `lowers` for which programs every target is one the structured
program knows, and `trailingLoops` what the program means when the last instruction is the back edge
of a loop.
-/
namespace Ahorn

def StatementList.snoc : StatementList → Statement → StatementList
  | .nil, s => .cons s .nil
  | .cons s' rest, s => .cons s' (rest.snoc s)

/-- The last instruction of the code of a list of statements: there is none, it jumps to the
continuation, or it jumps back to the header of the innermost loop the list ends in. In this case a
jump to its target runs this loop and then the loops around it. -/
inductive Tail where
  | nothing
  | leaves
  | loop (loops : StatementList)

namespace Tail

/-- The tail of two pieces of code, one behind the other. -/
def after (first : Tail) : Tail → Tail
  | nothing => first
  | second => second

def isNothing : Tail → Bool
  | nothing => true
  | _ => false

def isLeaves : Tail → Bool
  | leaves => true
  | _ => false

def isLoop : Tail → Bool
  | loop _ => true
  | _ => false

/-- What a jump to the target of the last instruction runs. -/
def statements : Tail → StatementList
  | loop loops => loops
  | _ => .nil

def around (s : Statement) : Tail → Tail
  | loop loops => loop (loops.snoc s)
  | _ => loop (.cons s .nil)

@[simp] theorem after_nothing (t : Tail) : t.after nothing = t := rfl

@[simp] theorem nothing_after (t : Tail) : nothing.after t = t := by cases t <;> rfl

theorem after_of_not_nothing (t : Tail) {u : Tail} (h : u.isNothing = false) : t.after u = u := by
  cases u with
  | nothing => simp [isNothing] at h
  | leaves => rfl
  | loop _ => rfl

theorem after_of_nothing (t : Tail) {u : Tail} (h : u.isNothing = true) : t.after u = t := by
  cases u with
  | nothing => rfl
  | leaves => simp [isNothing] at h
  | loop _ => simp [isNothing] at h

theorem after_assoc (t u v : Tail) : (t.after u).after v = t.after (u.after v) := by
  cases v <;> rfl

end Tail

mutual

def Statement.tail : Statement → Tail
  | .assignmentStatement _ _ => .leaves
  | .invocationStatement _ _ _ => .leaves
  | .ifStatement _ thn elseIfs els => (thn.tail.after elseIfs.tail).after els.tail
  | .caseStatement cases els => cases.tail.after els.tail
  | .whileStatement e body =>
    if body.isEmpty then .nothing else body.tail.around (.whileStatement e body)
  | _ => .nothing

def StatementList.tail : StatementList → Tail
  | .nil => .nothing
  | .cons s rest => s.tail.after rest.tail

def ElseIfStatements.tail : ElseIfStatements → Tail
  | .nil => .nothing
  | .cons _ part rest => part.tail.after rest.tail

end

/-- The condition on a selection, given those on its parts. `atEnd` says that the continuation is
the label behind the code of the selection; `thenInner` and `thenFinal` are the conditions on the
THEN part in front of other code and at the end. -/
def selectionLowers (atEnd : Bool) (thn : StatementList) (elseIfs : ElseIfStatements)
    (els : StatementList) (thenInner thenFinal elseIfsLower elseLowers : Bool) : Bool :=
  if thn.isEmpty && elseIfs.allEmpty && els.isEmpty then atEnd
  else if thn.isEmpty then elseIfs.isEmpty && elseLowers && els.tail.isLeaves
  else if elseIfs.allEmpty then
    if els.isEmpty then
      thenFinal && (thn.tail.isLeaves || (elseIfs.isEmpty && thn.tail.isLoop))
    else elseIfs.isEmpty && thenInner && elseLowers
  else thenInner && elseIfsLower && elseLowers

mutual

/-- Every guard of the statement is compiled, and every jump goes where the structured program
goes on, or into a loop that the THEN or last ELSIF part ends in. -/
def Statement.lowers (atEnd : Bool) : Statement → Bool
  | .assignmentStatement _ _ => true
  | .ifStatement _ thn elseIfs els =>
    selectionLowers atEnd thn elseIfs els (thn.lowers false) (thn.lowers atEnd)
      (elseIfs.lowers atEnd els.isEmpty) (els.lowers atEnd)
  | .caseStatement (.cons _ thn elseIfs) els =>
    selectionLowers atEnd thn elseIfs els (thn.lowers false) (thn.lowers atEnd)
      (elseIfs.lowers atEnd els.isEmpty) (els.lowers atEnd)
  | .whileStatement _ body => !body.isEmpty && body.lowers false
  | _ => false

/-- Only the last statement of a list has another continuation than the label behind its code. -/
def StatementList.lowers (atEnd : Bool) : StatementList → Bool
  | .nil => true
  | .cons s rest => s.lowers (atEnd || !rest.isEmpty) && rest.lowers atEnd

def ElseIfStatements.lowers (atEnd elseEmpty : Bool) : ElseIfStatements → Bool
  | .nil => true
  | .cons _ part rest =>
    !part.isEmpty && !part.tail.isNothing &&
      part.lowers (atEnd && rest.isEmpty && elseEmpty) && rest.lowers atEnd elseEmpty

end

mutual

/-- The program in which an IF without ELSE whose last part ends in loops has these loops, the
innermost first, as its ELSE. -/
def Statement.trailingLoops : Statement → Statement
  | .ifStatement e thn elseIfs els =>
    .ifStatement e thn.trailingLoops elseIfs.trailingLoops
      (if els.isEmpty then (thn.trailingLoops.tail.after elseIfs.trailingLoops.tail).statements
        else els.trailingLoops)
  | .caseStatement cases els =>
    .caseStatement cases.trailingLoops
      (if els.isEmpty then cases.trailingLoops.tail.statements else els.trailingLoops)
  | .whileStatement e body => .whileStatement e body.trailingLoops
  | s => s

def StatementList.trailingLoops : StatementList → StatementList
  | .nil => .nil
  | .cons s rest => .cons s.trailingLoops rest.trailingLoops

def ElseIfStatements.trailingLoops : ElseIfStatements → ElseIfStatements
  | .nil => .nil
  | .cons g part rest => .cons g part.trailingLoops rest.trailingLoops

end

theorem StatementList.isEmpty_trailingLoops (s : StatementList) :
    s.trailingLoops.isEmpty = s.isEmpty := by
  cases s <;> rfl

theorem ElseIfStatements.allEmpty_trailingLoops : (s : ElseIfStatements) →
    s.trailingLoops.allEmpty = s.allEmpty
  | .nil => rfl
  | .cons g part rest => by
    simp [trailingLoops, allEmpty, StatementList.isEmpty_trailingLoops,
      allEmpty_trailingLoops rest]

theorem StatementList.trailingLoops_snoc : (s : StatementList) → (t : Statement) →
    (s.snoc t).trailingLoops = s.trailingLoops.snoc t.trailingLoops
  | .nil, _ => rfl
  | .cons s rest, t => by simp only [snoc, trailingLoops, trailingLoops_snoc rest t]

theorem StatementList.tail_snoc : (s : StatementList) → (t : Statement) →
    (s.snoc t).tail = s.tail.after t.tail
  | .nil, t => by simp [snoc, StatementList.tail]
  | .cons s rest, t => by
    simp only [snoc, StatementList.tail, tail_snoc rest t, Tail.after_assoc]

theorem StatementList.tail_of_isEmpty {s : StatementList} (h : s.isEmpty = true) :
    s.tail = .nothing := by
  cases s with
  | nil => rfl
  | cons _ _ => simp [isEmpty] at h

namespace Tail

/-- The tail once the loops themselves are read with their trailing loops. -/
def trailingLoops : Tail → Tail
  | nothing => nothing
  | leaves => leaves
  | loop loops => loop loops.trailingLoops

theorem trailingLoops_after (t u : Tail) :
    (t.after u).trailingLoops = t.trailingLoops.after u.trailingLoops := by
  cases u <;> rfl

@[simp] theorem isNothing_trailingLoops (t : Tail) :
    t.trailingLoops.isNothing = t.isNothing := by
  cases t <;> rfl

/-- Appending what a jump to the last instruction runs does not change the tail. -/
def Stable (t : Tail) : Prop := t.after t.statements.tail = t

theorem Stable.after {t u : Tail} (ht : t.Stable) (hu : u.Stable) : (t.after u).Stable := by
  cases h : u.isNothing with
  | true => rwa [after_of_nothing t h]
  | false => rwa [after_of_not_nothing t h]

end Tail

mutual

theorem Statement.stable_tail : (s : Statement) → s.tail.Stable
  | .assertStatement _ => rfl
  | .assumeStatement _ => rfl
  | .assignmentStatement _ _ => rfl
  | .invocationStatement _ _ _ => rfl
  | .ifStatement _ thn elseIfs els =>
    (thn.stable_tail.after elseIfs.stable_tail).after els.stable_tail
  | .caseStatement cases els => cases.stable_tail.after els.stable_tail
  | .whileStatement e body => by
    have hloop : ∀ τ : Tail, body.isEmpty = false →
        body.tail = τ → (Statement.whileStatement e body).tail.Stable := by
      intro τ hne hτ
      have htail : (Statement.whileStatement e body).tail =
          body.tail.around (.whileStatement e body) := by simp [Statement.tail, hne]
      have hsome : (Statement.whileStatement e body).tail.isNothing = false := by
        rw [htail, hτ]
        cases τ <;> rfl
      -- the last of the loops is the statement itself
      have hstatements : ∃ l : StatementList, (Statement.whileStatement e body).tail.statements =
          l.snoc (.whileStatement e body) := by
        rw [htail, hτ]
        cases τ with
        | loop l => exact ⟨l, rfl⟩
        | nothing => exact ⟨.nil, rfl⟩
        | leaves => exact ⟨.nil, rfl⟩
      obtain ⟨l, hl⟩ := hstatements
      rw [Tail.Stable, hl, StatementList.tail_snoc, Tail.after_of_not_nothing _ hsome,
        Tail.after_of_not_nothing _ hsome]
    cases hne : body.isEmpty with
    | true =>
      simp only [Statement.tail, hne, ↓reduceIte]
      rfl
    | false => exact hloop _ hne rfl

theorem StatementList.stable_tail : (s : StatementList) → s.tail.Stable
  | .nil => rfl
  | .cons s rest => s.stable_tail.after rest.stable_tail

theorem ElseIfStatements.stable_tail : (s : ElseIfStatements) → s.tail.Stable
  | .nil => rfl
  | .cons _ part rest => part.stable_tail.after rest.stable_tail

end

mutual

theorem Statement.tail_trailingLoops : (s : Statement) →
    s.trailingLoops.tail = s.tail.trailingLoops
  | .assertStatement _ => rfl
  | .assumeStatement _ => rfl
  | .assignmentStatement _ _ => rfl
  | .invocationStatement _ _ _ => rfl
  | .ifStatement e thn elseIfs els => by
    simp only [Statement.trailingLoops, Statement.tail, Tail.trailingLoops_after,
      ← StatementList.tail_trailingLoops, ← ElseIfStatements.tail_trailingLoops]
    split_ifs with h
    · have hs := thn.trailingLoops.stable_tail.after elseIfs.trailingLoops.stable_tail
      rw [hs, StatementList.tail_of_isEmpty
        ((StatementList.isEmpty_trailingLoops els).trans h), Tail.after_nothing]
    · rfl
  | .caseStatement cases els => by
    simp only [Statement.trailingLoops, Statement.tail, Tail.trailingLoops_after,
      ← StatementList.tail_trailingLoops, ← ElseIfStatements.tail_trailingLoops]
    split_ifs with h
    · rw [cases.trailingLoops.stable_tail, StatementList.tail_of_isEmpty
        ((StatementList.isEmpty_trailingLoops els).trans h), Tail.after_nothing]
    · rfl
  | .whileStatement e body => by
    simp only [Statement.trailingLoops, Statement.tail, StatementList.isEmpty_trailingLoops,
      StatementList.tail_trailingLoops body]
    split_ifs
    · rfl
    · cases body.tail with
      | loop l => simp [Tail.trailingLoops, Tail.around, StatementList.trailingLoops_snoc,
          Statement.trailingLoops]
      | nothing => rfl
      | leaves => rfl

theorem StatementList.tail_trailingLoops : (s : StatementList) →
    s.trailingLoops.tail = s.tail.trailingLoops
  | .nil => rfl
  | .cons s rest => by
    simp only [StatementList.trailingLoops, StatementList.tail, Tail.trailingLoops_after,
      Statement.tail_trailingLoops s, StatementList.tail_trailingLoops rest]

theorem ElseIfStatements.tail_trailingLoops : (s : ElseIfStatements) →
    s.trailingLoops.tail = s.tail.trailingLoops
  | .nil => rfl
  | .cons g part rest => by
    simp only [ElseIfStatements.trailingLoops, ElseIfStatements.tail, Tail.trailingLoops_after,
      StatementList.tail_trailingLoops part, ElseIfStatements.tail_trailingLoops rest]

end

namespace Tail

theorem isNothing_around (s : Statement) (τ : Tail) : (τ.around s).isNothing = false := by
  cases τ <;> rfl

theorem isNothing_after (t u : Tail) : (t.after u).isNothing = (t.isNothing && u.isNothing) := by
  cases u <;> simp [after, isNothing]

theorem statements_after {t u : Tail} (ht : t.statements = .nil) (hu : u.statements = .nil) :
    (t.after u).statements = .nil := by
  cases u with
  | nothing => exact ht
  | leaves => rfl
  | loop _ => exact hu

theorem isNothing_of_isLeaves {t : Tail} (h : t.isLeaves = true) : t.isNothing = false := by
  cases t <;> simp_all [isLeaves, isNothing]

theorem isNothing_of_isLoop {t : Tail} (h : t.isLoop = true) : t.isNothing = false := by
  cases t <;> simp_all [isLoop, isNothing]

end Tail

theorem ElseIfStatements.tail_of_allEmpty : (s : ElseIfStatements) → s.allEmpty = true →
    s.tail = .nothing
  | .nil, _ => rfl
  | .cons _ part rest, h => by
    simp only [allEmpty, Bool.and_eq_true] at h
    rw [ElseIfStatements.tail, StatementList.tail_of_isEmpty h.1, tail_of_allEmpty rest h.2]
    rfl

theorem selectionLowers_isNothing {b : Bool} {thn els : StatementList} {elseIfs : ElseIfStatements}
    {thenInner thenFinal elseIfsLower elseLowers : Bool}
    (h : selectionLowers b thn elseIfs els thenInner thenFinal elseIfsLower elseLowers = true)
    (hsome : b = true → (thn.isEmpty && elseIfs.allEmpty && els.isEmpty) = false)
    (hthen : thenInner = true → thn.isEmpty = false → thn.tail.isNothing = false) :
    ((thn.tail.after elseIfs.tail).after els.tail).isNothing = false := by
  simp only [Tail.isNothing_after, Bool.and_eq_false_iff]
  unfold selectionLowers at h
  split_ifs at h with h₁ h₂ h₃ h₄
  · rw [hsome h] at h₁
    cases h₁
  · simp only [Bool.and_eq_true] at h
    exact Or.inr (Tail.isNothing_of_isLeaves h.2)
  · simp only [Bool.and_eq_true, Bool.or_eq_true] at h
    rcases h.2 with h | h
    · exact Or.inl (Or.inl (Tail.isNothing_of_isLeaves h))
    · exact Or.inl (Or.inl (Tail.isNothing_of_isLoop h.2))
  · simp only [Bool.and_eq_true] at h
    exact Or.inl (Or.inl (hthen h.1.2 (by simpa using h₂)))
  · simp only [Bool.and_eq_true] at h
    exact Or.inl (Or.inl (hthen h.1.1 (by simpa using h₂)))

mutual

theorem Statement.isNothing_tail : (s : Statement) → s.lowers false = true →
    s.tail.isNothing = false
  | .assertStatement _, h => by simp [Statement.lowers] at h
  | .assumeStatement _, h => by simp [Statement.lowers] at h
  | .assignmentStatement _ _, _ => rfl
  | .invocationStatement _ _ _, _ => rfl
  | .ifStatement _ thn _ _, h => selectionLowers_isNothing h (by simp) thn.isNothing_tail
  | .caseStatement .nil _, h => by simp [Statement.lowers] at h
  | .caseStatement (.cons _ thn _) _, h => selectionLowers_isNothing h (by simp) thn.isNothing_tail
  | .whileStatement e body, h => by
    simp only [Statement.lowers, Bool.and_eq_true, Bool.not_eq_true'] at h
    simp [Statement.tail, h.1, Tail.isNothing_around]

theorem StatementList.isNothing_tail : (s : StatementList) → s.lowers false = true →
    s.isEmpty = false → s.tail.isNothing = false
  | .nil, _, h => by simp [StatementList.isEmpty] at h
  | .cons s rest, h, _ => by
    simp only [StatementList.lowers, Bool.false_or, Bool.and_eq_true] at h
    rw [StatementList.tail, Tail.isNothing_after]
    cases hr : rest.isEmpty with
    | false => rw [rest.isNothing_tail h.2 hr, Bool.and_false]
    | true =>
      rw [hr] at h
      rw [s.isNothing_tail h.1, Bool.false_and]

end

theorem ElseIfStatements.isNothing_tail {b elseEmpty : Bool} : (s : ElseIfStatements) →
    s.lowers b elseEmpty = true → s.isEmpty = false → s.tail.isNothing = false
  | .nil, _, h => by simp [isEmpty] at h
  | .cons _ part rest, h, _ => by
    simp only [ElseIfStatements.lowers, Bool.and_eq_true, Bool.not_eq_true'] at h
    rw [ElseIfStatements.tail, Tail.isNothing_after, h.1.1.2, Bool.false_and]

end Ahorn
