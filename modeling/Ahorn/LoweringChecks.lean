import Ahorn.Invocations

set_option autoImplicit false

/-!
# Which programs the compiler accepts

The compiler reads false targets off the last instruction it has emitted, and fails if this is not
the instruction it expects. What the last instruction is depends only on the statements.
-/
namespace Ahorn

/-- What the compiler tells apart about the last instruction. -/
inductive LastKind where
  | goto | call | other
  deriving DecidableEq, Repr

def Instruction.lastKind : Instruction → LastKind
  | gotoInstruction _ => .goto
  | callInstruction _ _ _ => .call
  | _ => .other

/-- The statement is compiled to some instruction. -/
def Statement.emits : Statement → Bool
  | .ifStatement _ thn elseIfs els => !(thn.isEmpty && elseIfs.allEmpty && els.isEmpty)
  | .caseStatement (.cons _ thn elseIfs) els => !(thn.isEmpty && elseIfs.allEmpty && els.isEmpty)
  | .whileStatement _ body => !body.isEmpty
  | _ => true

def StatementList.emits : StatementList → Bool
  | .nil => false
  | .cons s rest => s.emits || rest.emits

/-- The last instruction of a part once the header before the part is filled in. -/
def StatementList.behindHeader (part : StatementList) (k : LastKind) : LastKind :=
  if part.emits then k else .other

/-- Where the THEN part is the only one, the false target is read off its last instruction. -/
def thenPartCheck (thn : StatementList) (elseIfs : ElseIfStatements) (els : StatementList)
    (check : LastKind → Option LastKind) (k : LastKind) : Option LastKind :=
  if thn.isEmpty then some k
  else (check k).bind fun k =>
    if elseIfs.allEmpty && els.isEmpty && k = .other then none else some (thn.behindHeader k)

/-- Where the ELSE part is the only one, the true target is read off its last instruction. -/
def elsePartCheck (thn : StatementList) (elseIfs : ElseIfStatements) (els : StatementList)
    (check : LastKind → Option LastKind) (k : LastKind) : Option LastKind :=
  if els.isEmpty then some k
  else if thn.isEmpty && elseIfs.allEmpty then
    (check k).bind fun k => if k = .goto then some (els.behindHeader k) else none
  else check k

def selectionCheck (thn : StatementList) (elseIfs : ElseIfStatements) (els : StatementList)
    (thenCheck elseIfsCheck elseCheck : LastKind → Option LastKind) (k : LastKind) :
    Option LastKind :=
  if thn.isEmpty && elseIfs.allEmpty && els.isEmpty then some k
  else (thenPartCheck thn elseIfs els thenCheck k).bind fun k =>
    (if elseIfs.allEmpty then some k else elseIfsCheck k).bind fun k =>
      elsePartCheck thn elseIfs els elseCheck k

mutual

/-- The last instruction behind a statement, given the last one before it, if the compiler accepts
the statement. -/
def Statement.check (signatures : String → Option Signature) :
    Statement → LastKind → Option LastKind
  | .assertStatement _, _ => none
  | .assumeStatement _, _ => none
  | .assignmentStatement _ _, _ => some .goto
  | .ifStatement _ thn elseIfs els, k =>
    selectionCheck thn elseIfs els (thn.check signatures) (elseIfs.check signatures els.isEmpty)
      (els.check signatures) k
  | .invocationStatement callee pre post, _ =>
    if invocationFits signatures callee pre post then
      (signatureOf signatures callee).map fun S => if S.outputVariables.isEmpty then .call else .goto
    else none
  | .whileStatement _ body, k =>
    if body.isEmpty then some k else (body.check signatures k).map body.behindHeader
  | .caseStatement .nil _, _ => none
  | .caseStatement (.cons _ thn elseIfs) els, k =>
    selectionCheck thn elseIfs els (thn.check signatures) (elseIfs.check signatures els.isEmpty)
      (els.check signatures) k

/-- The statements of a part, which must not be empty. -/
def StatementList.check (signatures : String → Option Signature) :
    StatementList → LastKind → Option LastKind
  | .nil, _ => none
  | .cons s .nil, k => s.check signatures k
  | .cons s (.cons s' rest), k =>
    (s.check signatures k).bind fun k => StatementList.check signatures (.cons s' rest) k

def ElseIfStatements.check (signatures : String → Option Signature) (elseEmpty : Bool) :
    ElseIfStatements → LastKind → Option LastKind
  | .nil, k => some k
  | .cons _ part rest, k =>
    (part.check signatures k).bind fun k =>
      if rest.isEmpty && elseEmpty && k ≠ .goto then none
      else rest.check signatures elseEmpty (part.behindHeader k)

end

def StatementList.checkBody (signatures : String → Option Signature) :
    StatementList → LastKind → Option LastKind
  | .nil, k => some k
  | .cons s rest, k => (s.check signatures k).bind (rest.checkBody signatures)

namespace PouCompiler

open Instruction

def lastKind (st : PouCompiler) : LastKind :=
  match st.labelToInstruction.last? with
  | some (_, i) => i.lastKind
  | none => .other

variable {entry : ℤ} {reserved : ℤ → Prop} {st st₁ st₂ : PouCompiler}

theorem lastKind_of_greatest {l : ℤ} {i : Instruction} (h : st.at? l = some i)
    (hmax : ∀ l' i', st.at? l' = some i' → l' ≤ l) : st.lastKind = i.lastKind := by
  unfold lastKind
  rw [OrderedMap.last?_of_greatest h hmax]

theorem targetOfLastInstruction_iff :
    (∃ t, st.targetOfLastInstruction = .ok t) ↔ st.lastKind ≠ .other := by
  unfold targetOfLastInstruction lastKind
  cases hlast : st.labelToInstruction.last? with
  | none => simp
  | some e =>
    obtain ⟨l, i⟩ := e
    cases i <;> simp [Instruction.lastKind]

theorem gotoOfLastInstruction_iff :
    (∃ t, st.gotoOfLastInstruction = .ok t) ↔ st.lastKind = .goto := by
  unfold gotoOfLastInstruction lastKind
  cases hlast : st.labelToInstruction.last? with
  | none => simp
  | some e =>
    obtain ⟨l, i⟩ := e
    cases i <;> simp [Instruction.lastKind]

theorem lastKind_resolveTop (n : ℤ) : (st.resolveTop n).lastKind = st.lastKind := by
  unfold resolveTop lastKind
  cases hps : st.nextLabelPlaceholders with
  | nil => rfl
  | cons p ps =>
    have hlast : (st.labelToInstruction.mapValues (Instruction.retarget p n)).last? =
        st.labelToInstruction.last?.map fun e => (e.1, e.2.retarget p n) :=
      List.getLast?_map
    dsimp only
    rw [hlast]
    cases st.labelToInstruction.last? with
    | none => rfl
    | some e =>
      obtain ⟨l, i⟩ := e
      cases i <;> rfl

theorem Sound.fresh (h : Sound entry reserved st) : st.Fresh := fun _ hl => h.at?_label hl

theorem Sound.lastKind_fill {header : ℤ} {i : Instruction} {emits : Bool}
    (h : Sound entry (fun l => reserved l ∨ l = header) st)
    (hbefore : ∀ l, reserved l → l ≤ header) (hi : i.lastKind = .other)
    (hemits : emits = true ↔ header + 1 < st.label) :
    (st.emplace header i).lastKind = if emits then st.lastKind else .other := by
  have hlt := (h.reserved header (Or.inr rfl)).2
  have habove := (h.reserved header (Or.inr rfl)).1
  have hnone : st.at? header = none := by
    by_contra hne
    obtain ⟨j, hj⟩ := Option.ne_none_iff_exists'.mp hne
    exact (h.within hj).2.2 (Or.inr rfl)
  have hself : (st.emplace header i).at? header = some i := at?_emplace_self hnone
  by_cases hpart : header + 1 < st.label
  · rw [if_pos (hemits.mpr hpart)]
    obtain ⟨j, hj⟩ := h.filled (st.label - 1) (by omega) (by omega) (by
      rintro (hr | hr)
      · have := hbefore _ hr
        omega
      · omega)
    have hmax : ∀ l i', st.at? l = some i' → l ≤ st.label - 1 := by
      intro l i' hi'
      have := (h.within hi').2.1
      omega
    rw [lastKind_of_greatest hj hmax]
    apply lastKind_of_greatest (l := st.label - 1)
    · rw [at?_emplace_ne (by omega), hj]
    · intro l i' hi'
      by_cases hl : l = header
      · omega
      · rw [at?_emplace_ne hl] at hi'
        exact hmax l i' hi'
  · rw [if_neg (fun hb => hpart (hemits.mp hb)), ← hi]
    apply lastKind_of_greatest hself
    intro l i' hi'
    by_cases hl : l = header
    · omega
    · rw [at?_emplace_ne hl] at hi'
      have := (h.within hi').2.1
      omega

/-- A step of the compiler succeeds where the check does; it hands out a label if it emits. -/
def Agrees (c : Option LastKind) (emits : Bool) (st : PouCompiler) :
    Except String PouCompiler → Prop
  | .ok st' => c = some st'.lastKind ∧ st.label ≤ st'.label ∧ (emits = true ↔ st.label < st'.label)
  | .error _ => c = none

namespace Agrees

variable {c : Option LastKind} {b b₁ b₂ : Bool} {x : Except String PouCompiler}

theorem bind {f : PouCompiler → Except String PouCompiler} {d : LastKind → Option LastKind}
    (h₁ : Agrees c b₁ st x)
    (h₂ : ∀ st₁, x = .ok st₁ → Agrees (d st₁.lastKind) b₂ st₁ (f st₁)) :
    Agrees (c.bind d) (b₁ || b₂) st (x >>= f) := by
  cases x with
  | error e =>
    have hc : c = none := h₁
    rw [hc]
    rfl
  | ok st₁ =>
    obtain ⟨hc, hle, hb₁⟩ := h₁
    have h₂ := h₂ st₁ rfl
    rw [hc, Option.bind_some]
    change Agrees _ _ _ (f st₁)
    cases hf : f st₁ with
    | error e =>
      rw [hf] at h₂
      exact h₂
    | ok st₂ =>
      rw [hf] at h₂
      obtain ⟨hd, hle', hb₂⟩ := h₂
      refine ⟨hd, le_trans hle hle', ?_⟩
      rw [Bool.or_eq_true, hb₁, hb₂]
      omega

theorem refl (st : PouCompiler) : Agrees (some st.lastKind) false st (.ok st) :=
  ⟨rfl, le_rfl, by simp⟩

theorem of_eq (h : Agrees c b₁ st x) (hb : b₁ = b₂) : Agrees c b₂ st x := hb ▸ h

theorem congr {g : PouCompiler → PouCompiler} (h : Agrees c b st x)
    (hlabel : st₁.label = st.label) (hkind : ∀ st', (g st').lastKind = st'.lastKind)
    (hg : ∀ st', (g st').label = st'.label) : Agrees c b st₁ (x >>= fun st' => .ok (g st')) := by
  cases x with
  | error e => exact h
  | ok st' =>
    obtain ⟨hc, hle, hb⟩ := h
    refine ⟨?_, ?_, ?_⟩
    · rw [hkind]
      exact hc
    · rw [hg, hlabel]
      exact hle
    · rw [hg, hlabel]
      exact hb

end Agrees

/-- The visitor of a statement succeeds where the check does. -/
def Checks (entry : ℤ) (f : PouCompiler → Except String PouCompiler)
    (c : LastKind → Option LastKind) (emits : Bool) : Prop :=
  ∀ {reserved : ℤ → Prop} {st : PouCompiler}, Sound entry reserved st →
    (st.lastStatement = true → st.nextLabelPlaceholders ≠ []) →
    Agrees (c st.lastKind) emits st (f st)

/-- The visitor of a part succeeds where the check does. -/
def ChecksPart (entry : ℤ) (f : PouCompiler → Except String PouCompiler)
    (c : LastKind → Option LastKind) (emits : Bool) : Prop :=
  ∀ {reserved : ℤ → Prop} {st : PouCompiler}, Sound entry reserved st →
    st.lastStatement = false → st.nextLabelPlaceholders ≠ [] →
    Agrees (c st.lastKind) emits st (f st)

theorem Writes.lastKind {code : List Instruction} (h : Writes st st₁ code) (hf : st.Fresh)
    {i : Instruction} (hlast : code.getLast? = some i) : st₁.lastKind = i.lastKind := by
  have hne : code ≠ [] := by
    rintro rfl
    cases hlast
  have hpos := List.length_pos_iff.mpr hne
  have hlabel := h.label
  apply lastKind_of_greatest (l := st₁.label - 1)
  · rw [h.at?, if_pos (by omega)]
    rw [List.getLast?_eq_getElem?] at hlast
    rw [← hlast]
    congr 1
    omega
  · intro l j hj
    by_contra hlt
    rw [h.fresh hf l (by omega)] at hj
    cases hj

theorem checks_visitAssignmentStatement (r : VariableReference) (e : Expression) :
    Checks entry (visitAssignmentStatement r e) (fun _ => some .goto) true := by
  intro reserved st h hps
  obtain ⟨st', hok, hwrites, -⟩ := visitAssignmentStatement_writes h.fresh hps r e
  have hlabel : st'.label = st.label + 2 := hwrites.label
  rw [hok]
  refine ⟨?_, by omega, by simp only [true_iff]; omega⟩
  rw [hwrites.lastKind h.fresh rfl]
  rfl

theorem getLast?_parameterCode {type : AssignmentType} {l k : ℤ} {ps : List Parameter}
    (hne : ps ≠ []) : (parameterCode type l k ps).getLast? = some (.gotoInstruction k) := by
  induction ps generalizing l with
  | nil => exact absurd rfl hne
  | cons p ps ih =>
    cases ps with
    | nil => rfl
    | cons q ps =>
      have h := ih (l := l + 2) (List.cons_ne_nil q ps)
      rw [parameterCode, List.getLast?_cons, List.getLast?_cons, h]
      rfl

theorem checks_visitInvocationStatement (modules : String → Option CalleeModule)
    (callee : Variable) (pre post : List Parameter) :
    Checks entry (visitInvocationStatement modules callee pre post)
      (Statement.check (signatures modules) (.invocationStatement callee pre post)) true := by
  intro reserved st h hps
  unfold Statement.check
  cases hfit : invocationFits (signatures modules) callee pre post with
  | false =>
    obtain ⟨e, he⟩ := visitInvocationStatement_error hfit h.fresh hps
    rw [he]
    rfl
  | true =>
    obtain ⟨typeName, M, htype, hM⟩ := exists_callee_of_fits hfit
    obtain ⟨st', code, hok, ⟨inputs, outputs, -, houtputs, rfl⟩, hwrites, -⟩ :=
      visitInvocationStatement_ok htype hM hfit h.fresh hps
    have hlabel := hwrites.label
    rw [length_invocationCode] at hlabel
    rw [hok, if_pos rfl]
    refine ⟨?_, by omega, by simp only [true_iff]; omega⟩
    have hsignature : signatureOf (signatures modules) callee =
        some ⟨M.inputVariables, M.outputVariables⟩ := by
      unfold signatureOf signatures
      simp only [htype, hM, Option.map_some]
    rw [hsignature, Option.map_some]
    dsimp only
    by_cases hempty : M.outputVariables.isEmpty = true
    · rw [if_pos hempty] at houtputs
      subst houtputs
      have hlast := hwrites.lastKind h.fresh (i := .callInstruction callee
        (continuation st st') M.entryLabel) (by simp [invocationCode, parameterCode])
      rw [hlast, hempty]
      rfl
    · rw [if_neg hempty] at houtputs
      have hne : outputs ≠ [] := houtputs.ne_nil (by simpa using hempty)
      have hlast := hwrites.lastKind h.fresh (i := .gotoInstruction (continuation st st')) (by
        simp [invocationCode, List.getLast?_append, List.getLast?_cons,
          getLast?_parameterCode hne])
      rw [hlast]
      simp [hempty, Instruction.lastKind]

/-- A header is reserved, its part compiled, a target determined and the header filled in. -/
theorem checks_header {f : PouCompiler → Except String PouCompiler}
    {c : LastKind → Option LastKind} {part : StatementList} (hf : PreservesPart entry f)
    (hc : ChecksPart entry f c part.emits) (good : LastKind → Bool)
    (target : PouCompiler → Except String ℤ) (header : ℤ → Instruction)
    (htarget : ∀ st₁, (∃ t, target st₁ = .ok t) ↔ good st₁.lastKind = true)
    (hheader : ∀ t, (header t).lastKind = .other)
    (h : Sound entry reserved st) (hl : st.lastStatement = false)
    (hps : st.nextLabelPlaceholders ≠ []) :
    Agrees ((c st.lastKind).bind fun k => if good k then some (part.behindHeader k) else none) true
      st (f st.skipLabel >>= fun st₁ => target st₁ >>= fun t =>
        .ok (st₁.emplace st.label (header t))) := by
  obtain ⟨h₀, hk₀⟩ := h.skipLabel
  have hagrees := hc h₀ hl hps
  have hkind : st.skipLabel.lastKind = st.lastKind := rfl
  have hlabel : st.skipLabel.label = st.label + 1 := rfl
  rw [hkind] at hagrees
  cases hok : f st.skipLabel with
  | error e =>
    rw [hok] at hagrees
    have hnone : c st.lastKind = none := hagrees
    rw [hnone]
    rfl
  | ok st₁ =>
    rw [hok] at hagrees
    obtain ⟨hsome, hle, hemits⟩ := hagrees
    obtain ⟨h₁, -⟩ := hf h₀ hl hps hok
    rw [hsome, Option.bind_some]
    change Agrees _ _ _ (target st₁ >>= _)
    cases htarget₁ : target st₁ with
    | error e =>
      have hbad : good st₁.lastKind ≠ true := by
        intro hgood
        obtain ⟨t, ht⟩ := (htarget st₁).mpr hgood
        rw [htarget₁] at ht
        cases ht
      rw [if_neg hbad]
      rfl
    | ok t =>
      rw [if_pos ((htarget st₁).mp ⟨t, htarget₁⟩)]
      have hbefore : ∀ l, reserved l → l ≤ st.label := fun l hr => (h.reserved l hr).2.le
      have hbehind : part.emits = true ↔ st.label + 1 < st₁.label := by
        rw [hemits, hlabel]
      have hfill := h₁.lastKind_fill hbefore (hheader t) hbehind
      refine ⟨?_, ?_, ?_⟩
      · rw [hfill]
        rfl
      · change st.label ≤ st₁.label
        omega
      · change true = true ↔ st.label < st₁.label
        simp only [true_iff]
        omega

theorem ite_bind {α β : Type} (p : Prop) [Decidable p] (x y : Except String α)
    (f : α → Except String β) :
    (if p then x >>= f else y >>= f) = (if p then x else y) >>= f := by
  split_ifs <;> rfl

theorem checks_visitThenPart {e : Expression} {thn els : StatementList}
    {elseIfs : ElseIfStatements} {f : PouCompiler → Except String PouCompiler}
    {c : LastKind → Option LastKind} (hf : PreservesPart entry f)
    (hc : ChecksPart entry f c thn.emits) :
    ChecksPart entry (visitThenPart e thn elseIfs els f) (thenPartCheck thn elseIfs els c)
      (!thn.isEmpty) := by
  intro reserved st h hl hps
  unfold visitThenPart thenPartCheck
  cases hempty : thn.isEmpty with
  | true =>
    simp only [if_true, Bool.not_true]
    exact .refl st
  | false =>
    simp only [Bool.false_eq_true, if_false, Bool.not_false, ite_bind]
    have hagrees := checks_header hf hc
      (fun k => !(elseIfs.allEmpty && els.isEmpty && k = .other))
      (fun st₁ => if elseIfs.allEmpty && els.isEmpty then st₁.targetOfLastInstruction
        else .ok st₁.label) (fun t => .ifInstruction e (st.label + 1) t)
      (by
        intro st₁
        cases hb : elseIfs.allEmpty && els.isEmpty with
        | true => simp [targetOfLastInstruction_iff]
        | false => simp)
      (fun _ => rfl) h hl hps
    have hcheck : ∀ k, (if (!(elseIfs.allEmpty && els.isEmpty && decide (k = LastKind.other))) = true
        then some (thn.behindHeader k) else none) =
        if elseIfs.allEmpty && els.isEmpty && decide (k = LastKind.other) then none
          else some (thn.behindHeader k) := by
      intro k
      cases elseIfs.allEmpty && els.isEmpty && decide (k = LastKind.other) <;> rfl
    simp only [hcheck] at hagrees
    exact hagrees

theorem checks_visitElsePart {e : Expression} {thn els : StatementList}
    {elseIfs : ElseIfStatements} {f : PouCompiler → Except String PouCompiler}
    {c : LastKind → Option LastKind} (hf : PreservesPart entry f)
    (hc : ChecksPart entry f c els.emits) :
    ChecksPart entry (visitElsePart e thn elseIfs els f) (elsePartCheck thn elseIfs els c)
      (!els.isEmpty && (thn.isEmpty && elseIfs.allEmpty || els.emits)) := by
  intro reserved st h hl hps
  unfold visitElsePart elsePartCheck
  cases hempty : els.isEmpty with
  | true =>
    simp only [if_true, Bool.not_true, Bool.false_and]
    exact .refl st
  | false =>
    simp only [Bool.false_eq_true, if_false, Bool.not_false, Bool.true_and]
    cases hother : thn.isEmpty && elseIfs.allEmpty with
    | true =>
      simp only [if_true, Bool.true_or]
      have hagrees := checks_header hf hc (fun k => k = .goto) gotoOfLastInstruction
        (fun t => .ifInstruction (elseExpression e elseIfs) t (st.label + 1))
        (by
          intro st₁
          rw [gotoOfLastInstruction_iff, decide_eq_true_eq])
        (fun _ => rfl) h hl hps
      simp only [decide_eq_true_eq] at hagrees
      exact hagrees
    | false =>
      simp only [Bool.false_eq_true, if_false, Bool.false_or]
      exact hc h hl hps

theorem checks_visitIf {e : Expression} {thn els : StatementList} {elseIfs : ElseIfStatements}
    {visitThen visitElseIfs visitElse : PouCompiler → Except String PouCompiler}
    {thenCheck elseIfsCheck elseCheck : LastKind → Option LastKind}
    (hthen : PreservesPart entry visitThen) (hthen' : ChecksPart entry visitThen thenCheck thn.emits)
    (helseIfs : PreservesPart entry visitElseIfs)
    (helseIfs' : ChecksPart entry visitElseIfs elseIfsCheck (!elseIfs.isEmpty))
    (helse : PreservesPart entry visitElse)
    (helse' : ChecksPart entry visitElse elseCheck els.emits) :
    Checks entry (visitIf e thn elseIfs els visitThen visitElseIfs visitElse)
      (selectionCheck thn elseIfs els thenCheck elseIfsCheck elseCheck)
      (!(thn.isEmpty && elseIfs.allEmpty && els.isEmpty)) := by
  have hparts : (thn.isEmpty && elseIfs.allEmpty && els.isEmpty) = false → ∀ {reserved st},
      Sound entry reserved st → st.lastStatement = false → st.nextLabelPlaceholders ≠ [] →
      Agrees (selectionCheck thn elseIfs els thenCheck elseIfsCheck elseCheck st.lastKind) true st
        (visitParts e thn elseIfs els visitThen visitElseIfs visitElse st) := by
    intro hne reserved st h hl hps
    unfold selectionCheck
    rw [hne, if_neg (by simp)]
    have hvisit : visitParts e thn elseIfs els visitThen visitElseIfs visitElse st =
        visitThenPart e thn elseIfs els visitThen st >>= fun st =>
        (if elseIfs.allEmpty then .ok st else visitElseIfs st) >>= fun st =>
        visitElsePart e thn elseIfs els visitElse st := by
      unfold visitParts
      cases elseIfs.allEmpty <;> rfl
    have hemits : (!thn.isEmpty || (!elseIfs.allEmpty ||
        (!els.isEmpty && (thn.isEmpty && elseIfs.allEmpty || els.emits)))) = true := by
      revert hne
      cases thn.isEmpty <;> cases elseIfs.allEmpty <;> cases els.isEmpty <;> simp
    rw [hvisit]
    refine Agrees.of_eq ((checks_visitThenPart hthen hthen' h hl hps).bind ?_) hemits
    intro st₁ hok₁
    obtain ⟨h₁, hk₁⟩ := preserves_visitThenPart hthen h hl hps hok₁
    have hl₁ := hk₁.notLast hl
    have hps₁ : st₁.nextLabelPlaceholders ≠ [] := hk₁.placeholders ▸ hps
    have hmiddle : Agrees (if elseIfs.allEmpty then some st₁.lastKind else
        elseIfsCheck st₁.lastKind) (!elseIfs.allEmpty) st₁
        (if elseIfs.allEmpty then .ok st₁ else visitElseIfs st₁) := by
      cases hall : elseIfs.allEmpty with
      | true => exact .refl st₁
      | false =>
        have hsome : elseIfs.isEmpty = false := by
          cases elseIfs with
          | nil => cases hall
          | cons _ _ _ => rfl
        have hagrees := helseIfs' h₁ hl₁ hps₁
        rw [hsome] at hagrees
        exact hagrees
    refine hmiddle.bind ?_
    intro st₂ hok₂
    have hstep : Sound entry reserved st₂ ∧ Keeps entry st₁ st₂ := by
      split at hok₂
      · cases hok₂
        exact ⟨h₁, .refl _⟩
      · exact helseIfs h₁ hl₁ hps₁ hok₂
    obtain ⟨h₂, hk₂⟩ := hstep
    exact checks_visitElsePart helse helse' h₂ (hk₂.notLast hl₁) (hk₂.placeholders ▸ hps₁)
  intro reserved st h hps
  unfold visitIf
  cases hempty : thn.isEmpty && elseIfs.allEmpty && els.isEmpty with
  | true =>
    unfold selectionCheck
    rw [hempty]
    cases hl : st.lastStatement with
    | true => exact .refl st
    | false => exact .refl st
  | false =>
    cases hl : st.lastStatement with
    | true =>
      have hagrees := hparts hempty (h.setLastStatement false) rfl (hps hl)
      exact @Agrees.congr _ st _ _ _ _ hagrees rfl (fun _ => rfl) (fun _ => rfl)
    | false =>
      have hagrees := hparts hempty h.pushPlaceholder hl (List.cons_ne_nil _ _)
      refine @Agrees.congr _ st _ _ _ (fun st' => st'.resolveTop st'.label) hagrees rfl
        (fun st' => lastKind_resolveTop _) ?_
      intro st'
      unfold resolveTop
      split <;> rfl

theorem checks_visitWhile {e : Expression} {body : StatementList}
    {f : PouCompiler → Except String PouCompiler} {c : LastKind → Option LastKind}
    (hf : PreservesPart entry f) (hc : ChecksPart entry f c body.emits) :
    Checks entry (visitWhile e body f)
      (fun k => if body.isEmpty then some k else (c k).map body.behindHeader) (!body.isEmpty) := by
  intro reserved st h hps
  unfold visitWhile
  dsimp only
  cases hempty : body.isEmpty with
  | true =>
    rw [if_pos rfl, if_pos rfl]
    exact .refl st
  | false =>
    rw [if_neg (by simp), if_neg (by simp)]
    have hp : Sound entry reserved (st.setLastStatement false).pushPlaceholder :=
      (h.setLastStatement false).pushPlaceholder
    obtain ⟨h₀, hk₀⟩ := hp.skipLabel
    have hagrees := hc h₀ rfl (List.cons_ne_nil _ _)
    have hkind : (st.setLastStatement false).pushPlaceholder.skipLabel.lastKind = st.lastKind := rfl
    have hlabel : (st.setLastStatement false).pushPlaceholder.skipLabel.label = st.label + 1 := rfl
    rw [hkind] at hagrees
    cases hok : f (st.setLastStatement false).pushPlaceholder.skipLabel with
    | error msg =>
      rw [hok] at hagrees
      have hnone : c st.lastKind = none := hagrees
      rw [hnone]
      exact rfl
    | ok st₁ =>
      rw [hok] at hagrees
      obtain ⟨hsome, hle, hemits⟩ := hagrees
      obtain ⟨h₁, hk₁⟩ := hf h₀ rfl (List.cons_ne_nil _ _) hok
      have hheader : Valid entry st₁ st.label := h₁.valid_reserved (Or.inr rfl)
      obtain ⟨h₂, hps₂, -, hlabel₂, -⟩ := h₁.resolveTop hk₁.placeholders hheader
      let st₂ := (st₁.resolveTop st.label).setLastStatement st.lastStatement
      have hnext : ∃ next, (if st.lastStatement then st₂.top else .ok st₂.label) = .ok next := by
        cases hl : st.lastStatement with
        | false => exact ⟨st₂.label, rfl⟩
        | true =>
          obtain ⟨p, ps, hst⟩ := List.exists_cons_of_ne_nil (hps hl)
          refine ⟨p, ?_⟩
          rw [if_pos rfl]
          have hst₂ : st₂.nextLabelPlaceholders = p :: ps := hps₂.trans hst
          unfold top
          rw [hst₂]
      obtain ⟨next, hnext⟩ := hnext
      have hbefore : ∀ l, reserved l → l ≤ st.label := fun l hr => (h.reserved l hr).2.le
      have hfill : (st₂.emplace st.label (.whileInstruction e (st.label + 1) next)).lastKind =
          if body.emits then st₂.lastKind else .other :=
        (h₂.setLastStatement st.lastStatement).lastKind_fill hbefore rfl (by
          rw [hemits, hlabel]
          change _ ↔ st.label + 1 < (st₁.resolveTop st.label).label
          rw [hlabel₂])
      have hresult : Agrees ((c st.lastKind).map body.behindHeader) true st
          (.ok (st₂.emplace st.label (.whileInstruction e (st.label + 1) next))) := by
        refine ⟨?_, ?_, ?_⟩
        · rw [hsome, Option.map_some, hfill]
          have hkind₂ : st₂.lastKind = st₁.lastKind := lastKind_resolveTop st.label
          rw [hkind₂]
          rfl
        · change st.label ≤ (st₁.resolveTop st.label).label
          omega
        · change true = true ↔ st.label < (st₁.resolveTop st.label).label
          simp only [true_iff]
          omega
      have hbind : (if st.lastStatement then st₂.top >>= fun next =>
            .ok (st₂.emplace st.label (.whileInstruction e (st.label + 1) next))
          else Except.ok st₂.label >>= fun next =>
            .ok (st₂.emplace st.label (.whileInstruction e (st.label + 1) next))) =
          Except.ok (st₂.emplace st.label (.whileInstruction e (st.label + 1) next)) := by
        rw [ite_bind, hnext]
        rfl
      rw [← hbind] at hresult
      exact hresult

theorem checks_visitElseIfs_cons {modules : String → Option CalleeModule} {elseEmpty : Bool}
    {g : Guard} {part : StatementList} {rest : ElseIfStatements}
    (hf : PreservesPart entry (visitPart modules part))
    (hc : ChecksPart entry (visitPart modules part) (part.check (signatures modules)) part.emits)
    (hc' : ChecksPart entry (visitElseIfs modules elseEmpty rest) (rest.check (signatures modules) elseEmpty)
      (!rest.isEmpty)) :
    ChecksPart entry (visitElseIfs modules elseEmpty (.cons g part rest))
      (ElseIfStatements.check (signatures modules) elseEmpty (.cons g part rest)) true := by
  intro reserved st h hl hps
  unfold ElseIfStatements.check
  have hvisit : visitElseIfs modules elseEmpty (.cons g part rest) st =
      (visitPart modules part st.skipLabel >>= fun st₁ =>
        (if rest.isEmpty && elseEmpty then st₁.gotoOfLastInstruction else .ok st₁.label) >>= fun t =>
          .ok (st₁.emplace st.label (.ifInstruction g.expression (st.label + 1) t))) >>=
        visitElseIfs modules elseEmpty rest := by
    rw [visitElseIfs]
    dsimp only
    cases visitPart modules part st.skipLabel with
    | error e => rfl
    | ok st₁ =>
      cases rest.isEmpty && elseEmpty with
      | false => rfl
      | true =>
        change (st₁.gotoOfLastInstruction >>= _) = (st₁.gotoOfLastInstruction >>= _) >>= _
        cases st₁.gotoOfLastInstruction <;> rfl
  rw [hvisit]
  have hheader := checks_header hf hc (fun k => !(rest.isEmpty && elseEmpty && k ≠ .goto))
    (fun st₁ => if rest.isEmpty && elseEmpty then st₁.gotoOfLastInstruction else .ok st₁.label)
    (fun t => .ifInstruction g.expression (st.label + 1) t)
    (by
      intro st₁
      cases rest.isEmpty && elseEmpty with
      | true => simp [gotoOfLastInstruction_iff]
      | false => simp)
    (fun _ => rfl) h hl hps
  have hcheck : ((part.check (signatures modules) st.lastKind).bind fun k =>
      if rest.isEmpty && elseEmpty && k ≠ .goto then none
      else rest.check (signatures modules) elseEmpty (part.behindHeader k)) =
      ((part.check (signatures modules) st.lastKind).bind fun k =>
        if (!(rest.isEmpty && elseEmpty && decide (k ≠ .goto))) = true
        then some (part.behindHeader k) else none).bind (rest.check (signatures modules) elseEmpty) := by
    cases part.check (signatures modules) st.lastKind with
    | none => rfl
    | some k =>
      rw [Option.bind_some, Option.bind_some]
      cases rest.isEmpty && elseEmpty && decide (k ≠ .goto) <;> rfl
  rw [hcheck]
  refine Agrees.of_eq (hheader.bind ?_) (Bool.true_or (!rest.isEmpty))
  intro st₂ hok
  obtain ⟨st₁, hpart₁, hok⟩ := bind_eq_ok hok
  obtain ⟨t, ht, hok⟩ := bind_eq_ok hok
  cases hok
  obtain ⟨h₀, -⟩ := h.skipLabel
  obtain ⟨h₁, hk₁⟩ := hf h₀ hl hps hpart₁
  have htarget : t ∈ st₁.nextLabelPlaceholders ∨ Valid entry st₁ t := by
    split at ht
    · exact h₁.gotoOfLastInstruction ht
    · cases ht
      exact Or.inr h₁.valid_label
  obtain ⟨h₂, hk₂⟩ := branch_sound (e := g.expression) h h₁ hk₁
    (Or.inr (hk₁.valid h₀.valid_label)) htarget
  exact hc' h₂ (hk₂.notLast hl) (hk₂.placeholders ▸ hps)

theorem checks_last {modules : String → Option CalleeModule} {s : Statement}
    (hs : Checks entry (visit modules s) (s.check (signatures modules)) s.emits) :
    ChecksPart entry (visitPart modules (.cons s .nil))
      (StatementList.check (signatures modules) (.cons s .nil)) (StatementList.emits (.cons s .nil)) := by
  intro reserved st h hl hps
  have hagrees := hs (h.setLastStatement true) (fun _ => hps)
  have hemits : StatementList.emits (.cons s .nil) = s.emits := by
    unfold StatementList.emits StatementList.emits
    exact Bool.or_false _
  rw [hemits]
  unfold StatementList.check
  exact @Agrees.congr _ st _ _ _ _ hagrees rfl (fun _ => rfl) (fun _ => rfl)

mutual

theorem checks_visit (modules : String → Option CalleeModule) :
    (s : Statement) → Checks entry (visit modules s) (s.check (signatures modules)) s.emits
  | .assertStatement _ => fun _ _ => rfl
  | .assumeStatement _ => fun _ _ => rfl
  | .assignmentStatement r e => checks_visitAssignmentStatement r e
  | .ifStatement _ thn elseIfs els =>
    checks_visitIf (preserves_visitPart modules thn) (checks_visitPart modules thn)
      (preserves_visitElseIfs modules els.isEmpty elseIfs)
      (checks_visitElseIfs modules els.isEmpty elseIfs)
      (preserves_visitPart modules els) (checks_visitPart modules els)
  | .invocationStatement callee pre post => checks_visitInvocationStatement modules callee pre post
  | .whileStatement _ body =>
    checks_visitWhile (preserves_visitPart modules body) (checks_visitPart modules body)
  | .caseStatement .nil _ => fun _ _ => rfl
  | .caseStatement (.cons _ thn elseIfs) els =>
    checks_visitIf (preserves_visitPart modules thn) (checks_visitPart modules thn)
      (preserves_visitElseIfs modules els.isEmpty elseIfs)
      (checks_visitElseIfs modules els.isEmpty elseIfs)
      (preserves_visitPart modules els) (checks_visitPart modules els)

theorem checks_visitPart (modules : String → Option CalleeModule) :
    (s : StatementList) → ChecksPart entry (visitPart modules s) (s.check (signatures modules)) s.emits
  | .nil => fun _ _ _ => rfl
  | .cons s .nil => checks_last (checks_visit modules s)
  | .cons s (.cons s' rest) => fun h hl hps => by
    unfold visitPart StatementList.check
    have hs := checks_visit modules s h (by simp [hl])
    refine hs.bind ?_
    intro st₁ hok
    obtain ⟨h₁, hk₁⟩ := preserves_visit modules s h (by simp [hl]) hok
    exact checks_visitPart modules (.cons s' rest) h₁ (hk₁.notLast hl) (hk₁.placeholders ▸ hps)

theorem checks_visitElseIfs (modules : String → Option CalleeModule) (elseEmpty : Bool) :
    (elseIfs : ElseIfStatements) → ChecksPart entry (visitElseIfs modules elseEmpty elseIfs)
      (elseIfs.check (signatures modules) elseEmpty) (!elseIfs.isEmpty)
  | .nil => fun _ _ _ => .refl _
  | .cons _ part rest =>
    checks_visitElseIfs_cons (preserves_visitPart modules part) (checks_visitPart modules part)
      (checks_visitElseIfs modules elseEmpty rest)

end

theorem checks_visitBody (modules : String → Option CalleeModule) (body : StatementList)
    {st : PouCompiler} (h : Sound entry reserved st) (hl : st.lastStatement = false) :
    Agrees (body.checkBody (signatures modules) st.lastKind) body.emits st
      (visitBody modules body st) := by
  cases body with
  | nil => exact .refl st
  | cons s rest =>
    unfold visitBody StatementList.checkBody
    refine (checks_visit modules s h (by simp [hl])).bind ?_
    intro st₁ hok
    obtain ⟨h₁, hk₁⟩ := preserves_visit modules s h (by simp [hl]) hok
    exact checks_visitBody modules rest h₁ (hk₁.notLast hl)

/-- A unit is compiled exactly if its statements pass the check. -/
theorem Between.compile_ok_iff (h : st.Between) (modules : String → Option CalleeModule)
    (body : StatementList) : (∃ result, compile modules body st = .ok result) ↔
      (body.checkBody (signatures modules) .other).isSome = true := by
  have hagrees := checks_visitBody modules body h.sound (show st.skipLabel.lastStatement = false
    from h.notLast)
  have hkind : st.skipLabel.lastKind = .other := by
    have hinstructions : st.skipLabel.labelToInstruction = .empty := h.instructions
    unfold lastKind
    rw [hinstructions]
    rfl
  rw [hkind] at hagrees
  unfold compile
  cases hbody : visitBody modules body st.skipLabel with
  | error e =>
    rw [hbody] at hagrees
    have hnone : body.checkBody (signatures modules) .other = none := hagrees
    rw [hnone]
    constructor
    · rintro ⟨result, hok⟩
      cases hok
    · intro hsome
      cases hsome
  | ok st₁ =>
    rw [hbody] at hagrees
    rw [hagrees.1]
    constructor
    · intro _
      rfl
    · intro _
      exact ⟨_, rfl⟩

end PouCompiler

end Ahorn
