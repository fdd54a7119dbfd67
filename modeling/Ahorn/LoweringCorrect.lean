import Ahorn.LoweringCompile

set_option autoImplicit false

/-!
# Lowering and the meaning of the source program

Compiler and builder together. For every program whose targets the compiler finds, the graph
computes what the source program with its trailing loops computes; for programs without loops this
is the source program itself.
-/
namespace Ahorn

open Instruction PouCompiler

/-- The state of the compiler between two units. -/
structure PouCompiler.Idle (st : PouCompiler) : Prop where
  label_nonneg : 0 ≤ st.label
  next_neg : st.nextLabelPlaceholder < 0
  placeholders : st.nextLabelPlaceholders = []
  lastStatement : st.lastStatement = false
  instructions : st.labelToInstruction = .empty

theorem PouCompiler.initial_idle : PouCompiler.initial.Idle :=
  ⟨by decide, by decide, rfl, rfl, rfl⟩

theorem PouCompiler.Idle.ready {st : PouCompiler} (h : st.Idle) : st.Ready :=
  ⟨h.label_nonneg, h.next_neg, by simp [h.placeholders],
    by simp [at?, h.instructions], by simp [at?, h.instructions]⟩

theorem PouCompiler.compile_spec (modules : String → Option CalleeModule) {body : StatementList}
    {st : PouCompiler} (h : body.lowers true = true) (hi : st.Idle) :
    ∃ M st', compile modules body st = .ok (M, st') ∧ M.Plain ∧ st'.Idle ∧
      body.trailingLoops.CodeAt M.labelToInstruction.find? (M.entryLabel + 1) M.exitLabel := by
  obtain ⟨st₁, hvisit, hcomp⟩ :=
    visitBody_spec modules body h hi.ready.skipLabel hi.lastStatement
  have hle : st.label + 1 ≤ st₁.label := hcomp.label_le
  have hbelow : ∀ l ≤ st.label, st₁.at? l = none := by
    intro l hl
    rw [hcomp.frame l (by simp only [skipLabel]; omega)]
    simp [at?, skipLabel, hi.instructions]
  refine ⟨⟨st₁.labelToInstruction, st.label, st₁.label⟩,
    { st₁.skipLabel with labelToInstruction := .empty }, ?_, ⟨?_, ?_, ?_⟩, ⟨?_, ?_, ?_, ?_, rfl⟩, ?_⟩
  · simp only [compile, hvisit, bind, Except.bind]
  · change st.label < st₁.label
    omega
  · intro l i hl
    refine ⟨?_, hcomp.ready.labels l i hl⟩
    by_contra hcon
    rw [show st₁.labelToInstruction.find? l = none from hbelow l (not_lt.mp hcon)] at hl
    cases hl
  · intro l i hl
    by_cases hl' : st.label + 1 ≤ l
    · exact hcomp.noCall l i hl' hl
    · rw [show st₁.labelToInstruction.find? l = none from hbelow l (by omega)] at hl
      cases hl
  · change 0 ≤ st₁.label + 1
    have := hi.label_nonneg
    omega
  · exact hcomp.ready.next_neg
  · exact hcomp.placeholders.trans hi.placeholders
  · exact hcomp.notLast hi.lastStatement
  · have hplaced : Placed st₁.labelToInstruction.find? id st.skipLabel st₁ st₁.label true := by
      refine ⟨fun _ _ => rfl, ?_, fun _ => rfl⟩
      intro l _ _
      rw [show Instruction.rename id = id from funext rename_id, Option.map_id]
      rfl
    exact hcomp.code hplaced

def lower (modules : String → Option CalleeModule) (exitLabels : String → Option ℤ) (name : String)
    (body : StatementList) (st : PouCompiler) : Except String Cfg := do
  let (M, _) ← compile modules body st
  Builder.build exitLabels name M

variable (modules : String → Option CalleeModule) (exitLabels : String → Option ℤ) (name : String)

theorem lower_spec {body : StatementList} {st : PouCompiler} (h : body.lowers true = true)
    (hi : st.Idle) :
    ∃ cfg, lower modules exitLabels name body st = .ok cfg ∧
      ∀ m m', cfg.Terminates m m' ↔ Exec body.trailingLoops m m' := by
  obtain ⟨M, st', hcompile, hplain, _, hcode⟩ := compile_spec modules h hi
  obtain ⟨cfg, hbuild, hrep⟩ := hplain.build_represents exitLabels name
  refine ⟨cfg, ?_, hrep.terminates_iff hplain hcode⟩
  simp only [lower, hcompile, bind, Except.bind, hbuild]

mutual

def Statement.branching : Statement → Bool
  | .assignmentStatement _ _ => true
  | .ifStatement _ thn elseIfs els => thn.branching && elseIfs.branching && els.branching
  | .caseStatement cases els => !cases.isEmpty && cases.branching && els.branching
  | _ => false

def StatementList.branching : StatementList → Bool
  | .nil => true
  | .cons s rest => s.branching && rest.branching

def ElseIfStatements.branching : ElseIfStatements → Bool
  | .nil => true
  | .cons _ part rest => part.branching && rest.branching

end

mutual

theorem Statement.tail_of_branching : (s : Statement) → s.branching = true →
    s.tail.statements = .nil
  | .assignmentStatement _ _, _ => rfl
  | .ifStatement _ thn elseIfs els, h => by
    simp only [Statement.branching, Bool.and_eq_true] at h
    have h₁ := thn.tail_of_branching h.1.1
    have h₂ := elseIfs.tail_of_branching h.1.2
    have h₃ := els.tail_of_branching h.2
    exact Tail.statements_after (Tail.statements_after h₁ h₂) h₃
  | .caseStatement cases els, h => by
    simp only [Statement.branching, Bool.and_eq_true] at h
    exact Tail.statements_after (cases.tail_of_branching h.1.2) (els.tail_of_branching h.2)
  | .assertStatement _, h => by simp [Statement.branching] at h
  | .assumeStatement _, h => by simp [Statement.branching] at h
  | .invocationStatement _ _ _, h => by simp [Statement.branching] at h
  | .whileStatement _ _, h => by simp [Statement.branching] at h

theorem StatementList.tail_of_branching : (s : StatementList) → s.branching = true →
    s.tail.statements = .nil
  | .nil, _ => rfl
  | .cons s rest, h => by
    simp only [StatementList.branching, Bool.and_eq_true] at h
    exact Tail.statements_after (s.tail_of_branching h.1) (rest.tail_of_branching h.2)

theorem ElseIfStatements.tail_of_branching : (s : ElseIfStatements) → s.branching = true →
    s.tail.statements = .nil
  | .nil, _ => rfl
  | .cons _ part rest, h => by
    simp only [ElseIfStatements.branching, Bool.and_eq_true] at h
    exact Tail.statements_after (part.tail_of_branching h.1) (rest.tail_of_branching h.2)

end

mutual

theorem Statement.trailingLoops_of_branching : (s : Statement) → s.branching = true →
    s.trailingLoops = s
  | .assignmentStatement _ _, _ => rfl
  | .ifStatement _ thn elseIfs els, h => by
    simp only [Statement.branching, Bool.and_eq_true] at h
    have h₁ := thn.trailingLoops_of_branching h.1.1
    have h₂ := elseIfs.trailingLoops_of_branching h.1.2
    have h₃ := els.trailingLoops_of_branching h.2
    rw [Statement.trailingLoops, h₁, h₂, h₃, Tail.statements_after
      (thn.tail_of_branching h.1.1) (elseIfs.tail_of_branching h.1.2)]
    cases els <;> rfl
  | .caseStatement cases els, h => by
    simp only [Statement.branching, Bool.and_eq_true] at h
    rw [Statement.trailingLoops, cases.trailingLoops_of_branching h.1.2,
      els.trailingLoops_of_branching h.2, cases.tail_of_branching h.1.2]
    cases els <;> rfl
  | .assertStatement _, h => by simp [Statement.branching] at h
  | .assumeStatement _, h => by simp [Statement.branching] at h
  | .invocationStatement _ _ _, h => by simp [Statement.branching] at h
  | .whileStatement _ _, h => by simp [Statement.branching] at h

theorem StatementList.trailingLoops_of_branching : (s : StatementList) → s.branching = true →
    s.trailingLoops = s
  | .nil, _ => rfl
  | .cons s rest, h => by
    simp only [StatementList.branching, Bool.and_eq_true] at h
    rw [StatementList.trailingLoops, s.trailingLoops_of_branching h.1,
      rest.trailingLoops_of_branching h.2]

theorem ElseIfStatements.trailingLoops_of_branching : (s : ElseIfStatements) →
    s.branching = true → s.trailingLoops = s
  | .nil, _ => rfl
  | .cons _ part rest, h => by
    simp only [ElseIfStatements.branching, Bool.and_eq_true] at h
    rw [ElseIfStatements.trailingLoops, part.trailingLoops_of_branching h.1,
      rest.trailingLoops_of_branching h.2]

end

mutual

theorem Statement.exec_total : (s : Statement) → s.branching = true → {rest : StatementList} →
    (∀ m, ∃ m', Exec rest m m') → ∀ m, ∃ m', Exec (.cons s rest) m m'
  | .assignmentStatement r e, _, _, hrest, m => by
    obtain ⟨m', h⟩ := hrest (m.write r e)
    exact ⟨m', .assignment h⟩
  | .ifStatement e thn elseIfs els, h, _, hrest, m => by
    simp only [Statement.branching, Bool.and_eq_true] at h
    obtain ⟨m₁, h₁⟩ : ∃ m₁,
        Exec ((ElseIfStatements.cons (.condition e) thn elseIfs).select m els) m m₁ := by
      simp only [ElseIfStatements.select]
      split_ifs
      · exact thn.exec_total h.1.1 m
      · exact elseIfs.exec_total h.1.2 (els.exec_total h.2) m m
    obtain ⟨m', h'⟩ := hrest m₁
    exact ⟨m', .selection h₁ h'⟩
  | .caseStatement cases els, h, _, hrest, m => by
    simp only [Statement.branching, Bool.and_eq_true] at h
    obtain ⟨m₁, h₁⟩ := cases.exec_total h.1.2 (els.exec_total h.2) m m
    obtain ⟨m', h'⟩ := hrest m₁
    exact ⟨m', .caseSelection h₁ h'⟩
  | .assertStatement _, h, _, _, _ => by simp [Statement.branching] at h
  | .assumeStatement _, h, _, _, _ => by simp [Statement.branching] at h
  | .invocationStatement _ _ _, h, _, _, _ => by simp [Statement.branching] at h
  | .whileStatement _ _, h, _, _, _ => by simp [Statement.branching] at h

theorem StatementList.exec_total : (s : StatementList) → s.branching = true →
    ∀ m, ∃ m', Exec s m m'
  | .nil, _, m => ⟨m, .nil m⟩
  | .cons s rest, h, m => by
    simp only [StatementList.branching, Bool.and_eq_true] at h
    exact s.exec_total h.1 (rest.exec_total h.2) m

theorem ElseIfStatements.exec_total : (s : ElseIfStatements) → s.branching = true →
    {els : StatementList} → (∀ m, ∃ m', Exec els m m') →
    ∀ m₀ m, ∃ m', Exec (s.select m₀ els) m m'
  | .nil, _, _, hels, _, m => hels m
  | .cons g part rest, h, els, hels, m₀, m => by
    simp only [ElseIfStatements.branching, Bool.and_eq_true] at h
    simp only [ElseIfStatements.select]
    split_ifs
    · exact part.exec_total h.1 m
    · exact rest.exec_total h.2 hels m₀ m

end

/-- The graph of the unit ends, at every memory it may be started with, with the one memory the
source program ends with. -/
def PreservesBranching (st : PouCompiler) (body : StatementList) (m : Memory) : Prop :=
  ∃ cfg, lower modules exitLabels name body st = .ok cfg ∧
    ∃ m', Exec body m m' ∧ cfg.Terminates m m' ∧ ∀ m'', cfg.Terminates m m'' → m'' = m'

/-- Lowering preserves the meaning of branching code whose guards are all compiled and whose jumps
all find their targets. -/
theorem lower_branching {body : StatementList} (hbranching : body.branching = true)
    (hlowers : body.lowers true = true) {st : PouCompiler} (hi : st.Idle) (m : Memory) :
    PreservesBranching modules exitLabels name st body m := by
  obtain ⟨cfg, hcfg, hiff⟩ := lower_spec modules exitLabels name hlowers hi
  obtain ⟨m', hm'⟩ := body.exec_total hbranching m
  rw [body.trailingLoops_of_branching hbranching] at hiff
  exact ⟨cfg, hcfg, m', hm', (hiff m m').mpr hm', fun m'' h => ((hiff m m'').mp h).deterministic hm'⟩

def localVariable (name : String) (type : DataType) : Variable := ⟨name, type, .local, none⟩

def readOf (name : String) (type : DataType) : Expression :=
  .reference (.variableAccess (localVariable name type))

def assignOf (name : String) (type : DataType) (value : Expression) : Statement :=
  .assignmentStatement (.variableAccess (localVariable name type)) value

def constantMemory (v : Value) : Memory := ⟨fun _ => v, fun _ => .int 0⟩

/-- `IF a THEN x := 1; ELSIF b THEN x := 2; ELSE IF c THEN END_IF; END_IF;` -/
def threeWay : StatementList :=
  .cons (.ifStatement (readOf "a" .bool) (.cons (assignOf "x" .int (.integerConstant 1)) .nil)
    (.cons (.condition (readOf "b" .bool)) (.cons (assignOf "x" .int (.integerConstant 2)) .nil) .nil)
    (.cons (.ifStatement (readOf "c" .bool) .nil .nil .nil) .nil)) .nil

theorem lower_branching_threeWay :
    PreservesBranching (fun _ => none) (fun _ => none) "P" PouCompiler.initial threeWay
      (constantMemory (.bool false)) :=
  lower_branching _ _ _ (by decide) (by decide) PouCompiler.initial_idle _

/-- `IF a THEN x := 1; IF b THEN END_IF; ELSE x := 2; END_IF;` -/
def fallThrough : StatementList :=
  .cons (.ifStatement (readOf "a" .bool)
    (.cons (assignOf "x" .int (.integerConstant 1))
      (.cons (.ifStatement (readOf "b" .bool) .nil .nil .nil) .nil)) .nil
    (.cons (assignOf "x" .int (.integerConstant 2)) .nil)) .nil

/-- What the compiled code of `fallThrough` does: the goto behind `x := 1` leads into the ELSE. -/
def fallenThrough : StatementList :=
  .cons (.ifStatement (readOf "a" .bool)
    (.cons (assignOf "x" .int (.integerConstant 1)) (.cons (assignOf "x" .int (.integerConstant 2)) .nil))
    .nil (.cons (assignOf "x" .int (.integerConstant 2)) .nil)) .nil

theorem Module.plain_of_entries {M : Module} (h : M.entryLabel < M.exitLabel)
    (he : ∀ x ∈ M.labelToInstruction.entries,
      M.entryLabel < x.1 ∧ x.1 < M.exitLabel ∧ x.2.isCall = false) : M.Plain where
  entry_lt_exit := h
  between := by
    intro l i hi
    have hx := he _ ((OrderedMap.find?_eq_some_iff _ _ _).mp hi)
    exact ⟨hx.1, hx.2.1⟩
  noCall := by
    intro l i hi
    exact (he _ ((OrderedMap.find?_eq_some_iff _ _ _).mp hi)).2.2

theorem lower_fallThrough :
    ∃ cfg, lower modules exitLabels name fallThrough PouCompiler.initial = .ok cfg ∧
      ∀ m m', cfg.Terminates m m' ↔ Exec fallenThrough m m' := by
  obtain ⟨M, st', hcompile, hplain, hcode⟩ : ∃ M st',
      compile modules fallThrough PouCompiler.initial = .ok (M, st') ∧ M.Plain ∧
        fallenThrough.CodeAt M.labelToInstruction.find? (M.entryLabel + 1) M.exitLabel := by
    refine ⟨_, _, rfl, Module.plain_of_entries (by decide) (by decide), ?_⟩
    refine ⟨6, Or.inr ⟨2, 4, rfl, ?_, ?_⟩, rfl⟩
    · exact ⟨4, ⟨rfl, rfl⟩, 6, ⟨rfl, rfl⟩, rfl⟩
    · exact ⟨6, ⟨rfl, rfl⟩, rfl⟩
  obtain ⟨cfg, hbuild, hrep⟩ := hplain.build_represents exitLabels name
  refine ⟨cfg, ?_, hrep.terminates_iff hplain hcode⟩
  simp only [lower, hcompile, bind, Except.bind, hbuild]

theorem fallThrough_not_preserved : fallThrough.branching = true ∧
    ¬ PreservesBranching (fun _ => none) (fun _ => none) "P" PouCompiler.initial fallThrough
      (constantMemory (.bool true)) := by
  refine ⟨by decide, ?_⟩
  rintro ⟨cfg, hcfg, m', hsource, hgraph, -⟩
  obtain ⟨cfg', hcfg', hiff⟩ := lower_fallThrough (fun _ => none) (fun _ => none) "P"
  rw [hcfg] at hcfg'
  cases hcfg'
  have hone : Exec fallThrough (constantMemory (.bool true))
      ((constantMemory (.bool true)).write
        (.variableAccess (localVariable "x" .int)) (.integerConstant 1)) :=
    .selection (.assignment (.selection (.nil _) (.nil _))) (.nil _)
  have htwo : Exec fallenThrough (constantMemory (.bool true))
      (((constantMemory (.bool true)).write
        (.variableAccess (localVariable "x" .int)) (.integerConstant 1)).write
          (.variableAccess (localVariable "x" .int)) (.integerConstant 2)) :=
    .selection (.assignment (.assignment (.nil _))) (.nil _)
  have heq := (hone.deterministic hsource).trans (((hiff _ _).mp hgraph).deterministic htwo)
  have hx := congrArg (fun m => m.valuation "x") heq
  exact absurd hx (by decide)

mutual

/-- Assignments, IF statements without empty parts and WHILE statements with a body. -/
def Statement.looping : Statement → Bool
  | .assignmentStatement _ _ => true
  | .ifStatement _ thn elseIfs els =>
    !thn.isEmpty && thn.looping && elseIfs.looping && els.looping
  | .whileStatement _ body => !body.isEmpty && body.looping
  | _ => false

def StatementList.looping : StatementList → Bool
  | .nil => true
  | .cons s rest => s.looping && rest.looping

def ElseIfStatements.looping : ElseIfStatements → Bool
  | .nil => true
  | .cons _ part rest => !part.isEmpty && part.looping && rest.looping

end

theorem Tail.isLeaves_or_isLoop {t : Tail} (h : t.isNothing = false) :
    t.isLeaves = true ∨ t.isLoop = true := by
  cases t <;> simp_all [isNothing, isLeaves, isLoop]

mutual

theorem Statement.lowers_of_looping : (s : Statement) → (b : Bool) → s.looping = true →
    s.lowers b = true
  | .assignmentStatement _ _, _, _ => rfl
  | .ifStatement e thn elseIfs els, b, h => by
    simp only [Statement.looping, Bool.and_eq_true, Bool.not_eq_true'] at h
    obtain ⟨⟨⟨hne, hthn⟩, helseIfs⟩, hels⟩ := h
    have htail := Tail.isLeaves_or_isLoop
      (thn.isNothing_tail (thn.lowers_of_looping false hthn) hne)
    have hempty : elseIfs.allEmpty = elseIfs.isEmpty := elseIfs.allEmpty_of_looping helseIfs
    simp only [Statement.lowers, selectionLowers, hne, hempty, thn.lowers_of_looping _ hthn,
      elseIfs.lowers_of_looping _ _ helseIfs, els.lowers_of_looping _ hels]
    cases elseIfs.isEmpty <;> cases els.isEmpty <;> simp [htail]
  | .whileStatement _ body, b, h => by
    simp only [Statement.looping, Bool.and_eq_true, Bool.not_eq_true'] at h
    simp [Statement.lowers, h.1, body.lowers_of_looping false h.2]
  | .assertStatement _, _, h => by simp [Statement.looping] at h
  | .assumeStatement _, _, h => by simp [Statement.looping] at h
  | .invocationStatement _ _ _, _, h => by simp [Statement.looping] at h
  | .caseStatement _ _, _, h => by simp [Statement.looping] at h

theorem StatementList.lowers_of_looping : (s : StatementList) → (b : Bool) → s.looping = true →
    s.lowers b = true
  | .nil, _, _ => rfl
  | .cons s rest, b, h => by
    simp only [StatementList.looping, Bool.and_eq_true] at h
    simp [StatementList.lowers, s.lowers_of_looping _ h.1, rest.lowers_of_looping b h.2]

theorem ElseIfStatements.lowers_of_looping : (s : ElseIfStatements) → (b elseEmpty : Bool) →
    s.looping = true → s.lowers b elseEmpty = true
  | .nil, _, _, _ => rfl
  | .cons _ part rest, b, elseEmpty, h => by
    simp only [ElseIfStatements.looping, Bool.and_eq_true, Bool.not_eq_true'] at h
    simp [ElseIfStatements.lowers, h.1.1, part.lowers_of_looping _ h.1.2,
      part.isNothing_tail (part.lowers_of_looping false h.1.2) h.1.1,
      rest.lowers_of_looping b elseEmpty h.2]

theorem ElseIfStatements.allEmpty_of_looping : (s : ElseIfStatements) → s.looping = true →
    s.allEmpty = s.isEmpty
  | .nil, _ => rfl
  | .cons _ part rest, h => by
    simp only [ElseIfStatements.looping, Bool.and_eq_true, Bool.not_eq_true'] at h
    simp [ElseIfStatements.allEmpty, ElseIfStatements.isEmpty, h.1.1]

end

/-- The graph of the unit ends with a memory exactly if the source program does. -/
def PreservesLoops (st : PouCompiler) (body : StatementList) (m : Memory) : Prop :=
  ∃ cfg, lower modules exitLabels name body st = .ok cfg ∧
    ∀ m', Exec body m m' ↔ cfg.Terminates m m'

/-- Lowering preserves the meaning of a program with loops, started at a memory, exactly if entering
the loops at the end of an IF without ELSE whose guards are false would not change the outcome. -/
theorem lower_looping_iff {body : StatementList} (hlooping : body.looping = true)
    {st : PouCompiler} (hi : st.Idle) (m : Memory) :
    PreservesLoops modules exitLabels name st body m ↔
      ∀ m', Exec body m m' ↔ Exec body.trailingLoops m m' := by
  obtain ⟨cfg, hcfg, hiff⟩ :=
    lower_spec modules exitLabels name (body.lowers_of_looping true hlooping) hi
  constructor
  · rintro ⟨cfg', hcfg', h⟩ m'
    rw [hcfg] at hcfg'
    cases hcfg'
    exact (h m').trans (hiff m m')
  · intro h
    exact ⟨cfg, hcfg, fun m' => (h m').trans (hiff m m').symm⟩

/-- A loop whose header no IF jumps to needs no condition. -/
theorem lower_looping_of_trailingLoops_eq {body : StatementList} (hlooping : body.looping = true)
    (htrailing : body.trailingLoops = body) {st : PouCompiler} (hi : st.Idle) (m : Memory) :
    PreservesLoops modules exitLabels name st body m := by
  obtain ⟨cfg, hcfg, hiff⟩ :=
    lower_spec modules exitLabels name (body.lowers_of_looping true hlooping) hi
  rw [htrailing] at hiff
  exact ⟨cfg, hcfg, fun m' => (hiff m m').symm⟩

/-- `IF c THEN WHILE d DO d := FALSE; END_WHILE; END_IF;` -/
def skippedLoop : StatementList :=
  .cons (.ifStatement (readOf "c" .bool)
    (.cons (.whileStatement (readOf "d" .bool)
      (.cons (assignOf "d" .bool (.booleanConstant false)) .nil)) .nil) .nil .nil) .nil

/-- Only `d` is true. -/
def onlyD : Memory := ⟨fun x => .bool (decide (x = "d")), fun _ => .int 0⟩

/-- Where the guard holds, the loop in its branch is run either way. -/
theorem lower_looping_iff_skippedLoop : skippedLoop.trailingLoops ≠ skippedLoop ∧
    PreservesLoops (fun _ => none) (fun _ => none) "P" PouCompiler.initial skippedLoop
      (constantMemory (.bool true)) := by
  refine ⟨fun h => (by cases h), (lower_looping_iff _ _ _ (by decide)
    PouCompiler.initial_idle _).mpr fun m' => ?_⟩
  have hloop : Exec skippedLoop (constantMemory (.bool true)) ((constantMemory (.bool true)).write
      (.variableAccess (localVariable "d" .bool)) (.booleanConstant false)) :=
    .selection (.whileTrue (by decide) (.assignment (.nil _)) (.whileFalse (by decide) (.nil _)))
      (.nil _)
  have htrailing : Exec skippedLoop.trailingLoops (constantMemory (.bool true))
      ((constantMemory (.bool true)).write
        (.variableAccess (localVariable "d" .bool)) (.booleanConstant false)) :=
    .selection (.whileTrue (by decide) (.assignment (.nil _)) (.whileFalse (by decide) (.nil _)))
      (.nil _)
  constructor
  · intro h
    rwa [h.deterministic hloop]
  · intro h
    rwa [h.deterministic htrailing]

theorem skippedLoop_not_preserved : skippedLoop.looping = true ∧
    ¬ PreservesLoops (fun _ => none) (fun _ => none) "P" PouCompiler.initial skippedLoop onlyD := by
  refine ⟨by decide, ?_⟩
  rintro ⟨cfg, hcfg, h⟩
  obtain ⟨cfg', hcfg', hiff⟩ := lower_spec (fun _ => none) (fun _ => none) "P"
    (show skippedLoop.lowers true = true by decide) PouCompiler.initial_idle
  rw [hcfg] at hcfg'
  cases hcfg'
  have hskip : Exec skippedLoop onlyD onlyD := .selection (.nil _) (.nil _)
  have henter : Exec skippedLoop.trailingLoops onlyD
      (onlyD.write (.variableAccess (localVariable "d" .bool)) (.booleanConstant false)) :=
    .selection (.whileTrue (by decide) (.assignment (.nil _)) (.whileFalse (by decide) (.nil _)))
      (.nil _)
  have heq := (((hiff _ _).mp ((h _).mp hskip)).deterministic henter)
  have hd := congrArg (fun m => m.valuation "d") heq
  exact absurd hd (by decide)

end Ahorn
