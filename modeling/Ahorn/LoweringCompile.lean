import Ahorn.LoweringLayout

set_option autoImplicit false

/-!
# The compiler emits code for the statements it visits

One lemma for each kind of statement, put together by recursion over the program.
-/
namespace Ahorn

open Instruction PouCompiler

theorem StatementList.CodeAt.snoc {f : ℤ → Option Instruction} {s : Statement} {c k : ℤ} :
    (l : StatementList) → {t : ℤ} → l.CodeAt f t c → s.CodeAt f c k → (l.snoc s).CodeAt f t k
  | .nil, _, hl, hs => ⟨k, by rw [show _ = c from hl]; exact hs, rfl⟩
  | .cons _ rest, _, ⟨d, hd, hrest⟩, hs => ⟨d, hd, StatementList.CodeAt.snoc rest hrest hs⟩

theorem Tail.around_codeAt {f : ℤ → Option Instruction} {s : Statement} {t c k : ℤ} {τ : Tail}
    (h : τ.statements.CodeAt f t c) (hs : s.CodeAt f c k) :
    (τ.around s).statements.CodeAt f t k := by
  cases τ with
  | nothing => exact StatementList.CodeAt.snoc .nil h hs
  | leaves => exact StatementList.CodeAt.snoc .nil h hs
  | loop l => exact StatementList.CodeAt.snoc l h hs

namespace PouCompiler

/-- Where control goes on behind a statement: a last statement leaves to the placeholder on top of
the stack, any other one to the label behind it. -/
def continuation (st st' : PouCompiler) : ℤ :=
  if st.lastStatement then st.nextLabelPlaceholders.headD 0 else st'.label

theorem continuation_of_last {p : ℤ} {ps : List ℤ} (st st' : PouCompiler)
    (hl : st.lastStatement = true) (hp : st.nextLabelPlaceholders = p :: ps) :
    continuation st st' = p := by
  simp [continuation, hl, hp]

theorem continuation_of_not_last {st : PouCompiler} (st' : PouCompiler)
    (hl : st.lastStatement = false) : continuation st st' = st'.label := by
  simp [continuation, hl]

variable {st st₁ st₂ : PouCompiler} {k : ℤ} {b : Bool}
  {C C₁ C₂ : (ℤ → Option Instruction) → ℤ → ℤ → Prop} {τ τ₁ τ₂ : Tail}

theorem compiles_emit_goto (hr : st.Ready) {i : Instruction} (hi : i.targets = [])
    (hc : i.isCall = false) (hk : st.nextLabelPlaceholder ≤ k) :
    Compiles st ((st.emit i).emit (.gotoInstruction k)) k b
      (fun f l k => f l = some i ∧ f (l + 1) = some (.gotoInstruction k)) .leaves := by
  obtain ⟨h₁, hat₁⟩ := Extends.emit hr (i := i) (by simp [hi]) hc
  obtain ⟨h₂, hat₂⟩ := Extends.emit h₁.ready (i := .gotoInstruction k)
    (by
      intro t ht
      rw [List.mem_singleton.mp ht]
      exact hk) rfl
  have hlabel : (st.emit i).label = st.label + 1 := rfl
  have hlabel₂ : ((st.emit i).emit (.gotoInstruction k)).label = st.label + 1 + 1 := rfl
  have hi' : ((st.emit i).emit (.gotoInstruction k)).at? st.label = some i := by
    rw [h₂.frame st.label (by omega), hat₁]
  rw [hlabel] at hat₂
  refine ⟨h₁.trans h₂, ?_, by simp [Tail.isNothing], ?_⟩
  · intro f ρ hP
    refine ⟨?_, ?_⟩
    · rw [hP.agrees st.label le_rfl (by omega), hi']
      simp [rename_of_targets (ρ := ρ) (i := i) (by simp [hi])]
    · rw [hP.agrees (st.label + 1) (by omega) (by omega), hat₂]
      rfl
  · intro _
    refine ⟨k, ⟨st.label + 1, by omega, hat₂, ?_⟩, fun _ => rfl⟩
    intro l' j hj
    have := (h₁.trans h₂).ready.labels l' j hj
    omega

theorem visitAssignmentStatement_spec (hr : st.Ready)
    (hstack : st.lastStatement = true → st.nextLabelPlaceholders ≠ []) (r : VariableReference)
    (e : Expression) :
    ∃ st', st.visitAssignmentStatement r e = .ok st' ∧
      Compiles st st' (continuation st st') b (Statement.CodeAt · (.assignmentStatement r e))
        .leaves := by
  have hi : (compileAssignment r e).targets = [] := by cases e <;> rfl
  have hc : (compileAssignment r e).isCall = false := by cases e <;> rfl
  cases hl : st.lastStatement with
  | false =>
    refine ⟨(st.emit (compileAssignment r e)).emit (.gotoInstruction (st.label + 1 + 1)), ?_, ?_⟩
    · simp [visitAssignmentStatement, emit, emplace, hl]
    · rw [continuation_of_not_last _ hl]
      refine compiles_emit_goto (k := st.label + 1 + 1) hr hi hc ?_
      have h₁ := hr.label_nonneg
      have h₂ := hr.next_neg
      omega
  | true =>
    cases hp : st.nextLabelPlaceholders with
    | nil => exact absurd hp (hstack hl)
    | cons p ps =>
      refine ⟨(st.emit (compileAssignment r e)).emit (.gotoInstruction p), ?_, ?_⟩
      · simp [visitAssignmentStatement, emit, emplace, hl, top, hp, bind, Except.bind]
      · rw [continuation_of_last _ _ hl hp]
        exact compiles_emit_goto (k := p) hr hi hc (hr.stack p (by simp [hp])).1

namespace Compiles

theorem lastGoto_after (h₂ : Compiles st₁ st₂ k b C τ₂) (h₁ : Extends st st₁) {t₁ : ℤ}
    (hlast : st₁.LastGoto st.label t₁)
    (htarget : τ₂.isNothing = true → ∀ {f ρ}, Placed f ρ st st₂ k b →
      τ₁.statements.CodeAt f (ρ t₁) (ρ k)) :
    ∃ t, LastGoto st₂ st.label t ∧
      ∀ {f ρ}, Placed f ρ st st₂ k b → (τ₁.after τ₂).statements.CodeAt f (ρ t) (ρ k) := by
  cases hτ : τ₂.isNothing with
  | false =>
    obtain ⟨t, ht, htarget₂⟩ := h₂.lastGoto hτ
    refine ⟨t, ht.mono h₁.label_le, fun hP => ?_⟩
    rw [Tail.after_of_not_nothing _ hτ]
    exact htarget₂ (hP.right h₁)
  | true =>
    rw [Tail.after_of_nothing _ hτ]
    obtain ⟨l, hl, hgoto, hmax⟩ := hlast
    obtain ⟨_, hmap⟩ := h₂.nothing hτ
    refine ⟨t₁, ⟨l, hl, ?_, ?_⟩, htarget hτ⟩
    · simpa only [at?, hmap] using hgoto
    · simpa only [at?, hmap] using hmax

/-- One piece of code behind another one. If the second one is empty, the first one leaves to the
end of both. -/
theorem append (h₁ : Compiles st st₁ st₁.label true C₁ τ₁) (h₂ : Compiles st₁ st₂ k b C₂ τ₂)
    (hb : τ₂.isNothing = true → b = true) :
    Compiles st st₂ k b (fun f l k => ∃ c, C₁ f l c ∧ C₂ f c k) (τ₁.after τ₂) := by
  refine ⟨h₁.toExtends.trans h₂.toExtends, ?_, ?_, ?_⟩
  · intro f ρ hP
    have hleft := h₁.code (hP.left h₁.toExtends h₂.toExtends)
    rw [hP.resolves _ h₁.ready.label_nonneg] at hleft
    exact ⟨st₁.label, hleft, h₂.code (hP.right h₁.toExtends)⟩
  · intro hn
    cases hτ : τ₂.isNothing with
    | false =>
      rw [Tail.after_of_not_nothing _ hτ, hτ] at hn
      cases hn
    | true =>
      rw [Tail.after_of_nothing _ hτ] at hn
      obtain ⟨hl₁, hm₁⟩ := h₁.nothing hn
      obtain ⟨hl₂, hm₂⟩ := h₂.nothing hτ
      exact ⟨hl₂.trans hl₁, hm₂.trans hm₁⟩
  · intro hn
    cases hτ : τ₂.isNothing with
    | false =>
      obtain ⟨t, ht, htarget⟩ := h₂.lastGoto hτ
      refine ⟨t, ht.mono h₁.label_le, fun hP => ?_⟩
      rw [Tail.after_of_not_nothing _ hτ]
      exact htarget (hP.right h₁.toExtends)
    | true =>
      rw [Tail.after_of_nothing _ hτ] at hn
      obtain ⟨t, ht, htarget⟩ := h₁.lastGoto hn
      refine h₂.lastGoto_after h₁.toExtends ht fun _ _ _ hP => ?_
      have h := htarget (hP.left h₁.toExtends h₂.toExtends)
      rwa [hP.resolves _ h₁.ready.label_nonneg, ← (h₂.nothing hτ).1, ← hP.atEnd (hb hτ)] at h

theorem setLastStatement {c d : Bool} (h : Compiles (st.setLastStatement c) st₁ k b C τ)
    (hd : st.lastStatement = false → d = false) :
    Compiles st (st₁.setLastStatement d) k b C τ where
  ready := h.ready.setLastStatement d
  placeholders := h.placeholders
  fresh := h.fresh
  label_le := h.label_le
  frame := h.frame
  noCall := h.noCall
  notLast := hd
  code := fun hP => h.code ⟨hP.resolves, hP.agrees, hP.atEnd⟩
  nothing := h.nothing
  lastGoto := by
    intro hn
    obtain ⟨t, ht, htarget⟩ := h.lastGoto hn
    exact ⟨t, ht, fun hP => htarget ⟨hP.resolves, hP.agrees, hP.atEnd⟩⟩

/-- Code that leaves to a fresh placeholder, once the placeholder is resolved to the label behind
the code. -/
theorem resolveTop (hr : st.Ready)
    (h : Compiles st.pushPlaceholder st₁ (st.nextLabelPlaceholder - 1) true C τ)
    (hτ : τ.isNothing = false) :
    Compiles st (st₁.resolveTop st₁.label) st₁.label b C τ := by
  have hp : st₁.nextLabelPlaceholders =
      (st.nextLabelPlaceholder - 1) :: st.nextLabelPlaceholders := h.placeholders
  have hneg : st.nextLabelPlaceholder - 1 < 0 := by
    have := hr.next_neg
    omega
  have hn := h.ready.label_nonneg
  have hplaced : ∀ {f ρ}, Placed f ρ st (st₁.resolveTop st₁.label) st₁.label b →
      Placed f (ρ ∘ redirect (st.nextLabelPlaceholder - 1) st₁.label) st.pushPlaceholder st₁
          (st.nextLabelPlaceholder - 1) true ∧
        (ρ ∘ redirect (st.nextLabelPlaceholder - 1) st₁.label) (st.nextLabelPlaceholder - 1) =
          ρ st₁.label := by
    intro f ρ hP
    have hP' := hP.resolveTop hp hneg hn fun _ : true = true => rfl
    exact ⟨⟨hP'.resolves, hP'.agrees, hP'.atEnd⟩, by simp [redirect_self]⟩
  refine ⟨h.toExtends.resolveTop hr hn, ?_, by simp [hτ], ?_⟩
  · intro f ρ hP
    obtain ⟨hP', hk⟩ := hplaced hP
    have hcode := h.code hP'
    rwa [hk] at hcode
  · intro _
    obtain ⟨t, ht, htarget⟩ := h.lastGoto hτ
    refine ⟨_, LastGoto.resolveTop ht hp st₁.label, fun hP => ?_⟩
    obtain ⟨hP', hk⟩ := hplaced hP
    have hcode := htarget hP'
    rwa [hk] at hcode

theorem imp (h : Compiles st st₁ k b C τ) (himp : ∀ f l k, C f l k → C₁ f l k) :
    Compiles st st₁ k b C₁ τ :=
  ⟨h.toExtends, fun hP => himp _ _ _ (h.code hP), h.nothing, h.lastGoto⟩

end Compiles

/-- What the visitor of a part does, whenever the placeholder of the part is on top. -/
def PartCompiles (visitor : PouCompiler → Except String PouCompiler) (b : Bool)
    (C : (ℤ → Option Instruction) → ℤ → ℤ → Prop) (τ : Tail) : Prop :=
  ∀ (st : PouCompiler) (p : ℤ) (ps : List ℤ), st.Ready → st.lastStatement = false →
    st.nextLabelPlaceholders = p :: ps → ∃ st', visitor st = .ok st' ∧ Compiles st st' p b C τ

theorem Extends.setLastStatement {b' c : Bool} (h : Extends (st.setLastStatement c) st₁)
    (hl : st.lastStatement = false → b' = false) : Extends st (st₁.setLastStatement b') where
  ready := h.ready.setLastStatement b'
  placeholders := h.placeholders
  fresh := h.fresh
  label_le := h.label_le
  frame := h.frame
  noCall := h.noCall
  notLast := hl

theorem visitWhile_spec (hr : st.Ready)
    (hstack : st.lastStatement = true → st.nextLabelPlaceholders ≠ []) {e : Expression}
    {body body' : StatementList} {visitBody : PouCompiler → Except String PouCompiler}
    (hne : body.isEmpty = false) (hτ : τ.isNothing = false)
    (hbody : PartCompiles visitBody false (StatementList.CodeAt · body') τ) :
    ∃ st', visitWhile e body visitBody st = .ok st' ∧
      Compiles st st' (continuation st st') b (Statement.CodeAt · (.whileStatement e body'))
        (τ.around (.whileStatement e body')) := by
  set s₀ := (st.setLastStatement false).pushPlaceholder with hs₀
  have hr₀ : s₀.Ready := (hr.setLastStatement false).pushPlaceholder
  obtain ⟨s₂, hvisit, hcomp⟩ := hbody s₀.skipLabel (st.nextLabelPlaceholder - 1)
    st.nextLabelPlaceholders hr₀.skipLabel rfl rfl
  have hext₂ : Extends s₀ s₂ := (Extends.skipLabel hr₀).trans hcomp.toExtends
  have hp₂ : s₂.nextLabelPlaceholders =
      (st.nextLabelPlaceholder - 1) :: st.nextLabelPlaceholders := hcomp.placeholders
  have hneg : st.nextLabelPlaceholder - 1 < 0 := by
    have := hr.next_neg
    omega
  obtain ⟨hlt, hnone⟩ := Extends.at?_header hcomp.toExtends hr₀
  set s₃ := (s₂.resolveTop st.label).setLastStatement st.lastStatement with hs₃
  have hext₃ : Extends st s₃ := by
    have h := Extends.resolveTop hext₂ (hr.setLastStatement false) hr.label_nonneg
    exact Extends.setLastStatement h id
  have hlabel₃ : s₃.label = s₂.label := by simp [hs₃, setLastStatement, resolveTop, hp₂]
  have hstack₃ : s₃.nextLabelPlaceholders = st.nextLabelPlaceholders := hext₃.placeholders
  have hnone₃ : s₃.at? st.label = none := by
    have h := Extends.at?_resolveTop hp₂ st.label st.label
    rw [show s₃.at? st.label = (s₂.resolveTop st.label).at? st.label from rfl, h]
    simp [show s₂.at? st.label = none from hnone]
  -- the target of the exit is still the placeholder of the enclosing part, if there is one
  obtain ⟨k, htop, hend, hcont, hkge⟩ : ∃ k, (st.lastStatement = true → s₃.top = .ok k) ∧
      (st.lastStatement = false → s₃.label = k) ∧
      (∀ i, continuation st (s₃.emplace st.label i) = k) ∧ s₃.nextLabelPlaceholder ≤ k := by
    cases hl : st.lastStatement with
    | false =>
      refine ⟨s₃.label, by simp, fun _ => rfl, fun i => continuation_of_not_last _ hl, ?_⟩
      have h₁ := hext₃.ready.label_nonneg
      have h₂ := hext₃.ready.next_neg
      omega
    | true =>
      cases hp : st.nextLabelPlaceholders with
      | nil => exact absurd hp (hstack hl)
      | cons p ps =>
        rw [hp] at hstack₃
        exact ⟨p, by simp [top, hstack₃], by simp, fun i => continuation_of_last _ _ hl hp,
          (hext₃.ready.stack p (by simp [hstack₃])).1⟩
  set header := Instruction.whileInstruction e (st.label + 1) k with hheader
  have hlt₃ : st.label < s₃.label := by
    rw [hlabel₃]
    exact hlt
  have hplaced : ∀ {f ρ}, Placed f ρ st (s₃.emplace st.label header) k b →
      f st.label = some (.whileInstruction e (st.label + 1) (ρ k)) ∧
        Placed f (ρ ∘ redirect (st.nextLabelPlaceholder - 1) st.label) s₀.skipLabel s₂
          (st.nextLabelPlaceholder - 1) false := by
    intro f ρ hP
    obtain ⟨hf, hbehind⟩ := hP.header hlt₃ hnone₃
    have hbehind' : Placed f ρ s₀.skipLabel (s₂.resolveTop st.label) k b :=
      ⟨hbehind.resolves, hbehind.agrees, hbehind.atEnd⟩
    exact ⟨hf, hbehind'.resolveTop hp₂ hneg hr.label_nonneg (by simp)⟩
  have hheaderCode : ∀ {f ρ}, Placed f ρ st (s₃.emplace st.label header) k b →
      (Statement.whileStatement e body').CodeAt f st.label (ρ k) := by
    intro f ρ hP
    obtain ⟨hf, hbehind⟩ := hplaced hP
    have hcode := hcomp.code hbehind
    simp only [Function.comp, redirect_self, hP.resolves _ hr.label_nonneg] at hcode
    exact ⟨_, hf, hcode⟩
  refine ⟨s₃.emplace st.label header, ?_, ?_⟩
  · simp only [visitWhile, hne]
    simp only [Bool.false_eq_true, ↓reduceIte, ← hs₀]
    rw [hvisit]
    simp only [bind, Except.bind]
    rw [show s₀.label = st.label from rfl, show s₀.skipLabel.label = st.label + 1 from rfl, ← hs₃]
    cases hl : st.lastStatement with
    | true =>
      rw [htop hl]
      rfl
    | false =>
      rw [hend hl]
      rfl
  · rw [hcont]
    refine ⟨hext₃.header hlt₃ hnone₃ ?_ rfl, hheaderCode, ?_, ?_⟩
    · intro t ht
      rw [List.mem_singleton.mp ht]
      exact hkge
    · intro hn
      rw [Tail.isNothing_around] at hn
      cases hn
    · intro _
      obtain ⟨t, ht, htarget⟩ := hcomp.lastGoto hτ
      refine ⟨redirect (st.nextLabelPlaceholder - 1) st.label t, ?_, ?_⟩
      · have h := LastGoto.resolveTop ht hp₂ st.label
        have h' : s₃.LastGoto (st.label + 1) _ := h
        exact (h'.emplace (by omega)).mono (by omega)
      · intro f ρ hP
        have h := htarget (hplaced hP).2
        simp only [Function.comp, redirect_self, hP.resolves _ hr.label_nonneg] at h
        exact Tail.around_codeAt h (hheaderCode hP)

section Selection

variable {p : ℤ} {ps : List ℤ} {e : Expression} {thn els thn' els' : StatementList}
  {elseIfs elseIfs' : ElseIfStatements}

theorem branch_spec (hr : st.Ready) (h : Compiles st.skipLabel st₁ p b C τ) {e : Expression}
    {t x : ℤ} (ht : st₁.nextLabelPlaceholder ≤ t) (hx : st₁.nextLabelPlaceholder ≤ x) :
    Extends st (st₁.emplace st.label (.ifInstruction e t x)) ∧
      (∀ u, st₁.LastGoto (st.label + 1) u →
        (st₁.emplace st.label (.ifInstruction e t x)).LastGoto st.label u) ∧
      ∀ {f ρ k b'}, Placed f ρ st (st₁.emplace st.label (.ifInstruction e t x)) k b' →
        f st.label = some (.ifInstruction e (ρ t) (ρ x)) ∧ Placed f ρ st.skipLabel st₁ k b' := by
  obtain ⟨hlt, hnone⟩ := Extends.at?_header h.toExtends hr
  have hext := (Extends.skipLabel hr).trans h.toExtends
  refine ⟨hext.header hlt hnone ?_ rfl, ?_, fun hP => hP.header hlt hnone⟩
  · intro u hu
    rcases List.mem_cons.mp hu with rfl | hu
    · exact ht
    · rw [List.mem_singleton.mp hu]
      exact hx
  · intro u hu
    exact (hu.emplace (by omega)).mono (by omega)

theorem label_ge (hr : st.Ready) : st.nextLabelPlaceholder ≤ st.label := by
  have h₁ := hr.label_nonneg
  have h₂ := hr.next_neg
  omega

theorem visitThenPart_spec (e : Expression) (elseIfs : ElseIfStatements) (els : StatementList)
    {visitThen : PouCompiler → Except String PouCompiler} (hr : st.Ready)
    (hl : st.lastStatement = false) (hp : st.nextLabelPlaceholders = p :: ps)
    (hne : thn.isEmpty = false) (hτ : τ.isNothing = false) (hthen : PartCompiles visitThen b C τ) :
    ∃ st₁ t, visitThenPart e thn elseIfs els visitThen st = .ok st₁ ∧ Extends st st₁ ∧
      st₁.LastGoto st.label t ∧
      ∀ {f ρ}, Placed f ρ st st₁ p b →
        f st.label = some (.ifInstruction e (st.label + 1)
          (if elseIfs.allEmpty && els.isEmpty then ρ t else st₁.label)) ∧
        C f (st.label + 1) (ρ p) ∧ τ.statements.CodeAt f (ρ t) (ρ p) := by
  obtain ⟨st₁, hvisit, hcomp⟩ := hthen st.skipLabel p ps hr.skipLabel hl hp
  obtain ⟨t, ht, htarget⟩ := hcomp.lastGoto hτ
  set x := if elseIfs.allEmpty && els.isEmpty then t else st₁.label with hx
  have hxge : st₁.nextLabelPlaceholder ≤ x := by
    rw [hx]
    split_ifs
    · exact ht.target_le hcomp.ready
    · exact label_ge hcomp.ready
  have hlabelge : st₁.nextLabelPlaceholder ≤ st.label + 1 := by
    have h₁ := hr.label_nonneg
    have h₂ := hcomp.ready.next_neg
    omega
  obtain ⟨hext, hlast, hheader⟩ := branch_spec (e := e) hr hcomp hlabelge hxge
  refine ⟨_, t, ?_, hext, hlast t ht, ?_⟩
  · simp only [visitThenPart, hne, Bool.false_eq_true, ↓reduceIte, hvisit, bind, Except.bind]
    by_cases hend : (elseIfs.allEmpty && els.isEmpty) = true
    · simp only [hend, ↓reduceIte, ht.targetOfLastInstruction, hx]
      rfl
    · simp only [hend, hx]
      rfl
  · intro f ρ hP
    obtain ⟨hf, hbehind⟩ := hheader hP
    refine ⟨?_, hcomp.code hbehind, htarget hbehind⟩
    have hlabel : ρ (st.label + 1) = st.label + 1 := hP.resolves _ hr.skipLabel.label_nonneg
    rw [hf, hlabel, hx]
    split_ifs with hend
    · rfl
    · rw [hP.resolves _ hcomp.ready.label_nonneg]
      rfl

/-- What the visitor of the ELSIF parts does: the last false target is the label behind the parts,
or, without an ELSE, the target of the last goto. -/
def ElseIfsCompile (visitor : PouCompiler → Except String PouCompiler) (b elseEmpty : Bool)
    (elseIfs : ElseIfStatements) : Prop :=
  ∀ (st : PouCompiler) (p : ℤ) (ps : List ℤ), st.Ready → st.lastStatement = false →
    st.nextLabelPlaceholders = p :: ps → ∃ st₁ t, visitor st = .ok st₁ ∧ Extends st st₁ ∧
      st₁.LastGoto st.label t ∧
      ∀ {f ρ}, Placed f ρ st st₁ p (b && elseEmpty) →
        elseIfs.tail.statements.CodeAt f (ρ t) (ρ p) ∧
        ∀ (c : Bool) (elseCode : ℤ → ℤ → Prop),
          elseCode (if elseEmpty then ρ t else st₁.label) (ρ p) →
          elseIfs.CodeAt f c elseCode st.label (ρ p)

variable {modules : String → Option CalleeModule} {elseEmpty : Bool} {g : Guard}
  {part part' : StatementList} {rest rest' : ElseIfStatements}

theorem visitElseIfs_last
    (hpart : PartCompiles (visitPart modules part) (b && elseEmpty) (StatementList.CodeAt · part')
      part'.tail) (hτ : part'.tail.isNothing = false) :
    ElseIfsCompile (visitElseIfs modules elseEmpty (.cons g part .nil)) b elseEmpty
      (.cons g part' .nil) := by
  intro st p ps hr hl hp
  obtain ⟨st₁, hvisit, hcomp⟩ := hpart st.skipLabel p ps hr.skipLabel hl hp
  obtain ⟨t, ht, htarget⟩ := hcomp.lastGoto hτ
  set x := if elseEmpty then t else st₁.label with hx
  have hxge : st₁.nextLabelPlaceholder ≤ x := by
    rw [hx]
    split_ifs
    · exact ht.target_le hcomp.ready
    · exact label_ge hcomp.ready
  have hlabelge : st₁.nextLabelPlaceholder ≤ st.label + 1 := by
    have h₁ := hr.label_nonneg
    have h₂ := hcomp.ready.next_neg
    omega
  obtain ⟨hext, hlast, hheader⟩ := branch_spec (e := g.expression) hr hcomp hlabelge hxge
  refine ⟨_, t, ?_, hext, hlast t ht, ?_⟩
  · simp only [visitElseIfs, hvisit, bind, Except.bind, ElseIfStatements.isEmpty, Bool.true_and]
    cases elseEmpty with
    | true =>
      simp only [↓reduceIte, ht.gotoOfLastInstruction, hx]
      rfl
    | false =>
      simp only [Bool.false_eq_true, ↓reduceIte, hx]
      rfl
  · intro f ρ hP
    obtain ⟨hf, hbehind⟩ := hheader hP
    refine ⟨htarget hbehind, fun c elseCode helse => Or.inr ⟨_, _, hf, ?_, ?_⟩⟩
    · have h := hcomp.code hbehind
      rwa [← hP.resolves _ hr.skipLabel.label_nonneg] at h
    · rw [hx]
      cases elseEmpty with
      | true => exact helse
      | false =>
        simp only [Bool.false_eq_true, ↓reduceIte] at helse ⊢
        rw [hP.resolves st₁.label hcomp.ready.label_nonneg]
        exact helse

theorem visitElseIfs_cons
    (hpart : PartCompiles (visitPart modules part) false (StatementList.CodeAt · part') part'.tail)
    (hne : rest.isEmpty = false)
    (hrest : ElseIfsCompile (visitElseIfs modules elseEmpty rest) b elseEmpty rest')
    (hτ' : rest'.tail.isNothing = false) :
    ElseIfsCompile (visitElseIfs modules elseEmpty (.cons g part rest)) b elseEmpty
      (.cons g part' rest') := by
  intro st p ps hr hl hp
  obtain ⟨st₁, hvisit, hcomp⟩ := hpart st.skipLabel p ps hr.skipLabel hl hp
  have hlabelge : st₁.nextLabelPlaceholder ≤ st.label + 1 := by
    have h₁ := hr.label_nonneg
    have h₂ := hcomp.ready.next_neg
    omega
  obtain ⟨hext, -, hheader⟩ :=
    branch_spec (e := g.expression) hr hcomp hlabelge (label_ge hcomp.ready)
  set st₂ := st₁.emplace st.label (.ifInstruction g.expression (st.label + 1) st₁.label) with hst₂
  obtain ⟨st₃, t, hvisit', hext', ht, hcode⟩ :=
    hrest st₂ p ps hext.ready (hext.notLast hl) (hext.placeholders.trans hp)
  refine ⟨st₃, t, ?_, hext.trans hext', ht.mono hext.label_le, ?_⟩
  · simp only [visitElseIfs, hvisit, bind, Except.bind, hne, Bool.false_and, Bool.false_eq_true,
      ↓reduceIte]
    exact hvisit'
  · intro f ρ hP
    obtain ⟨hf, hbehind⟩ := hheader (hP.inner hext')
    obtain ⟨htarget, helse⟩ := hcode (hP.right hext)
    refine ⟨?_, fun c elseCode hEC => Or.inr ⟨_, _, hf, ?_, ?_⟩⟩
    · simpa only [ElseIfStatements.tail, Tail.after_of_not_nothing _ hτ'] using htarget
    · have h := hcomp.code hbehind
      rwa [← hP.resolves _ hr.skipLabel.label_nonneg] at h
    · rw [hP.resolves st₁.label hcomp.ready.label_nonneg]
      exact helse c elseCode hEC

end Selection

section SelectionParts

variable {p : ℤ} {ps : List ℤ} {e : Expression} {thn els : StatementList}
  {elseIfs : ElseIfStatements}
  {visitThen visitElseIfs visitElse : PouCompiler → Except String PouCompiler}

/-- The ELSE part of the program with trailing loops. -/
def elseWithLoops (thn : StatementList) (elseIfs : ElseIfStatements) (els : StatementList) :
    StatementList :=
  if els.isEmpty then (thn.trailingLoops.tail.after elseIfs.trailingLoops.tail).statements
  else els.trailingLoops

/-- The code of a selection of the program with trailing loops. -/
def SelectionCode (e : Expression) (thn : StatementList) (elseIfs : ElseIfStatements)
    (els : StatementList) (f : ℤ → Option Instruction) : ℤ → ℤ → Prop :=
  BranchAt f e (thn.trailingLoops.isEmpty && elseIfs.trailingLoops.allEmpty &&
      (elseWithLoops thn elseIfs els).isEmpty)
    (thn.trailingLoops.CodeAt f)
    (elseIfs.trailingLoops.CodeAt f (elseWithLoops thn elseIfs els).isEmpty
      ((elseWithLoops thn elseIfs els).CodeAt f))

def selectionTail (thn : StatementList) (elseIfs : ElseIfStatements) (els : StatementList) : Tail :=
  (thn.trailingLoops.tail.after elseIfs.trailingLoops.tail).after
    (elseWithLoops thn elseIfs els).tail

theorem ElseIfStatements.codeAt_of_allEmpty {f : ℤ → Option Instruction} {c : Bool}
    {elseCode : ℤ → ℤ → Prop} {l : ℤ} (hc : c = true) (helse : elseCode l l) :
    (s : ElseIfStatements) → s.allEmpty = true → s.CodeAt f c elseCode l l
  | .nil, _ => helse
  | .cons g part rest, h => by
    simp only [ElseIfStatements.allEmpty, Bool.and_eq_true] at h
    exact Or.inl ⟨by simp [h.1, h.2, hc], rfl⟩

theorem thenTail_isNothing (hlow : thn.lowers false = true) (hne : thn.isEmpty = false) :
    thn.trailingLoops.tail.isNothing = false := by
  rw [StatementList.tail_trailingLoops, Tail.isNothing_trailingLoops]
  exact thn.isNothing_tail hlow hne

theorem visitParts_else (hr : st.Ready) (hl : st.lastStatement = false)
    (hp : st.nextLabelPlaceholders = p :: ps) (hthn : thn.isEmpty = true)
    (hels : els.isEmpty = false) (hleaves : els.tail.isLeaves = true)
    (helse : PartCompiles visitElse b (StatementList.CodeAt · els.trailingLoops)
      els.trailingLoops.tail) :
    ∃ st', visitParts e thn .nil els visitThen visitElseIfs visitElse st = .ok st' ∧
      Compiles st st' p b (SelectionCode e thn .nil els) (selectionTail thn .nil els) := by
  obtain ⟨st₁, hvisit, hcomp⟩ := helse st.skipLabel p ps hr.skipLabel hl hp
  have htail : els.trailingLoops.tail = .leaves := by
    rw [StatementList.tail_trailingLoops]
    cases h : els.tail <;> simp_all [Tail.isLeaves, Tail.trailingLoops]
  obtain ⟨t, ht, htarget⟩ := hcomp.lastGoto (by rw [htail]; rfl)
  have hlabelge : st₁.nextLabelPlaceholder ≤ st.label + 1 := by
    have h₁ := hr.label_nonneg
    have h₂ := hcomp.ready.next_neg
    omega
  obtain ⟨hext, hlast, hheader⟩ := branch_spec (e := e) hr hcomp (ht.target_le hcomp.ready) hlabelge
  have hthn' : thn = .nil := by cases thn <;> simp_all [StatementList.isEmpty]
  have hloops : elseWithLoops thn .nil els = els.trailingLoops := by simp [elseWithLoops, hels]
  have hsel : selectionTail thn .nil els = .leaves := by
    rw [selectionTail, hloops, htail]
    rfl
  refine ⟨_, ?_, hext, ?_, by simp [hsel, Tail.isNothing], ?_⟩
  · simp only [visitParts, visitThenPart, visitElsePart, hthn, hels, hvisit, bind, Except.bind,
      ElseIfStatements.allEmpty, ↓reduceIte, Bool.false_eq_true, Bool.and_self,
      ht.gotoOfLastInstruction, elseExpression]
    rfl
  · intro f ρ hP
    obtain ⟨hf, hbehind⟩ := hheader hP
    refine Or.inr ⟨_, _, hf, ?_, ?_⟩
    · have h := htarget hbehind
      rw [htail] at h
      rw [hthn']
      exact h
    · have h := hcomp.code hbehind
      rw [← hP.resolves _ hr.skipLabel.label_nonneg] at h
      rw [hloops]
      exact h
  · intro _
    refine ⟨t, hlast t ht, fun hP => ?_⟩
    have h := htarget (hheader hP).2
    rw [htail] at h
    rw [hsel]
    exact h

theorem visitParts_then (hr : st.Ready) (hl : st.lastStatement = false)
    (hp : st.nextLabelPlaceholders = p :: ps) (hthn : thn.isEmpty = false)
    (hempty : elseIfs.allEmpty = true) (hels : els.isEmpty = true)
    (htail : thn.tail.isLeaves = true ∨ (elseIfs.isEmpty = true ∧ thn.tail.isLoop = true))
    (hthen : PartCompiles visitThen b (StatementList.CodeAt · thn.trailingLoops)
      thn.trailingLoops.tail) :
    ∃ st', visitParts e thn elseIfs els visitThen visitElseIfs visitElse st = .ok st' ∧
      Compiles st st' p b (SelectionCode e thn elseIfs els) (selectionTail thn elseIfs els) := by
  have hτ : thn.trailingLoops.tail.isNothing = false := by
    rw [StatementList.tail_trailingLoops, Tail.isNothing_trailingLoops]
    rcases htail with h | h
    · exact Tail.isNothing_of_isLeaves h
    · exact Tail.isNothing_of_isLoop h.2
  obtain ⟨st₁, t, hvisit, hext, hlast, hcode⟩ :=
    visitThenPart_spec e elseIfs els hr hl hp hthn hτ hthen
  have hempty' : elseIfs.trailingLoops.allEmpty = true := by
    rw [ElseIfStatements.allEmpty_trailingLoops]
    exact hempty
  have hloops : elseWithLoops thn elseIfs els = thn.trailingLoops.tail.statements := by
    rw [elseWithLoops, if_pos hels, ElseIfStatements.tail_of_allEmpty _ hempty', Tail.after_nothing]
  have hsel : selectionTail thn elseIfs els = thn.trailingLoops.tail := by
    rw [selectionTail, hloops, ElseIfStatements.tail_of_allEmpty _ hempty', Tail.after_nothing]
    exact thn.trailingLoops.stable_tail
  refine ⟨st₁, ?_, hext, ?_, by simp [hsel, hτ], ?_⟩
  · simp only [visitParts, hvisit, bind, Except.bind, hempty, visitElsePart, hels, ↓reduceIte]
  · intro f ρ hP
    obtain ⟨hf, hthnCode, htarget⟩ := hcode hP
    refine Or.inr ⟨_, _, hf, hthnCode, ?_⟩
    rw [hloops]
    simp only [hempty, hels, Bool.and_self, ↓reduceIte]
    rcases htail with h | ⟨h, _⟩
    · have hnil : thn.trailingLoops.tail.statements = .nil := by
        rw [StatementList.tail_trailingLoops]
        cases h' : thn.tail <;> simp_all [Tail.isLeaves, Tail.trailingLoops, Tail.statements]
      rw [hnil] at htarget ⊢
      rw [show ρ t = ρ p from htarget]
      exact ElseIfStatements.codeAt_of_allEmpty rfl rfl _ hempty'
    · cases elseIfs with
      | nil => exact htarget
      | cons _ _ _ => simp [ElseIfStatements.isEmpty] at h
  · intro _
    rw [hsel]
    exact ⟨t, hlast, fun hP => (hcode hP).2.2⟩

theorem visitParts_then_else (hr : st.Ready) (hl : st.lastStatement = false)
    (hp : st.nextLabelPlaceholders = p :: ps) (hthn : thn.isEmpty = false)
    (hels : els.isEmpty = false) (hτ : thn.trailingLoops.tail.isNothing = false)
    (hthen : PartCompiles visitThen false (StatementList.CodeAt · thn.trailingLoops)
      thn.trailingLoops.tail)
    (helse : PartCompiles visitElse b (StatementList.CodeAt · els.trailingLoops)
      els.trailingLoops.tail) :
    ∃ st', visitParts e thn .nil els visitThen visitElseIfs visitElse st = .ok st' ∧
      Compiles st st' p b (SelectionCode e thn .nil els) (selectionTail thn .nil els) := by
  obtain ⟨st₁, t, hvisit, hext, hlast, hcode⟩ :=
    visitThenPart_spec e .nil els hr hl hp hthn hτ hthen
  obtain ⟨st₂, hvisit₂, hcomp⟩ :=
    helse st₁ p ps hext.ready (hext.notLast hl) (hext.placeholders.trans hp)
  have hloops : elseWithLoops thn .nil els = els.trailingLoops := by simp [elseWithLoops, hels]
  have hsel : selectionTail thn .nil els =
      thn.trailingLoops.tail.after els.trailingLoops.tail := by
    rw [selectionTail, hloops]
    rfl
  refine ⟨st₂, ?_, hext.trans hcomp.toExtends, ?_, ?_, ?_⟩
  · simp only [visitParts, hvisit, bind, Except.bind, ElseIfStatements.allEmpty, visitElsePart,
      hels, hthn, Bool.false_and, Bool.false_eq_true, ↓reduceIte, hvisit₂]
  · intro f ρ hP
    obtain ⟨hf, hthnCode, -⟩ := hcode (hP.inner hcomp.toExtends)
    refine Or.inr ⟨_, _, hf, hthnCode, ?_⟩
    rw [hloops]
    simp only [hels, Bool.and_false, Bool.false_eq_true, ↓reduceIte]
    exact hcomp.code (hP.right hext)
  · intro h
    rw [hsel, Tail.isNothing_after, hτ, Bool.false_and] at h
    cases h
  · intro _
    rw [hsel]
    exact hcomp.lastGoto_after hext hlast fun _ _ _ hP => (hcode (hP.inner hcomp.toExtends)).2.2

/-- A selection with THEN and ELSIF parts, and possibly an ELSE. -/
theorem visitParts_elseIfs (hr : st.Ready) (hl : st.lastStatement = false)
    (hp : st.nextLabelPlaceholders = p :: ps) (hthn : thn.isEmpty = false)
    (hempty : elseIfs.allEmpty = false) (hτ : thn.trailingLoops.tail.isNothing = false)
    (hτ' : elseIfs.trailingLoops.tail.isNothing = false)
    (hthen : PartCompiles visitThen false (StatementList.CodeAt · thn.trailingLoops)
      thn.trailingLoops.tail)
    (helseIfs : ElseIfsCompile visitElseIfs b els.isEmpty elseIfs.trailingLoops)
    (helse : els.isEmpty = false → PartCompiles visitElse b
      (StatementList.CodeAt · els.trailingLoops) els.trailingLoops.tail) :
    ∃ st', visitParts e thn elseIfs els visitThen visitElseIfs visitElse st = .ok st' ∧
      Compiles st st' p b (SelectionCode e thn elseIfs els) (selectionTail thn elseIfs els) := by
  obtain ⟨st₁, t₁, hvisit₁, hext₁, -, hcode₁⟩ :=
    visitThenPart_spec e elseIfs els hr hl hp hthn hτ hthen
  obtain ⟨st₂, t₂, hvisit₂, hext₂, hlast₂, hcode₂⟩ :=
    helseIfs st₁ p ps hext₁.ready (hext₁.notLast hl) (hext₁.placeholders.trans hp)
  have hext := hext₁.trans hext₂
  have hlast := hlast₂.mono hext₁.label_le
  cases hels : els.isEmpty with
  | true =>
    have hloops : elseWithLoops thn elseIfs els = elseIfs.trailingLoops.tail.statements := by
      rw [elseWithLoops, if_pos hels, Tail.after_of_not_nothing _ hτ']
    have hsel : selectionTail thn elseIfs els = elseIfs.trailingLoops.tail := by
      rw [selectionTail, hloops, Tail.after_of_not_nothing _ hτ']
      exact elseIfs.trailingLoops.stable_tail
    have hplaced : ∀ {f ρ}, Placed f ρ st st₂ p b → Placed f ρ st₁ st₂ p (b && els.isEmpty) := by
      intro f ρ hP
      rw [hels, Bool.and_true]
      exact hP.right hext₁
    refine ⟨st₂, ?_, hext, ?_, by simp [hsel, hτ'], ?_⟩
    · simp only [visitParts, hvisit₁, bind, Except.bind, hempty, Bool.false_eq_true, ↓reduceIte,
        hvisit₂, visitElsePart, hels]
    · intro f ρ hP
      obtain ⟨hf, hthnCode, -⟩ := hcode₁ (hP.inner hext₂)
      obtain ⟨htarget, helseCode⟩ := hcode₂ (hplaced hP)
      refine Or.inr ⟨_, _, hf, hthnCode, ?_⟩
      simp only [hempty, Bool.false_and, Bool.false_eq_true, ↓reduceIte]
      refine helseCode _ _ ?_
      rw [hloops]
      simpa only [hels, ↓reduceIte] using htarget
    · intro _
      rw [hsel]
      exact ⟨t₂, hlast, fun hP => (hcode₂ (hplaced hP)).1⟩
  | false =>
    obtain ⟨st₃, hvisit₃, hcomp⟩ :=
      helse hels st₂ p ps hext.ready (hext.notLast hl) (hext.placeholders.trans hp)
    have hloops : elseWithLoops thn elseIfs els = els.trailingLoops := by
      simp [elseWithLoops, hels]
    have hsel : selectionTail thn elseIfs els =
        elseIfs.trailingLoops.tail.after els.trailingLoops.tail := by
      rw [selectionTail, hloops, Tail.after_of_not_nothing _ hτ']
    have hplaced : ∀ {f ρ}, Placed f ρ st st₃ p b → Placed f ρ st₁ st₂ p (b && els.isEmpty) := by
      intro f ρ hP
      rw [hels, Bool.and_false]
      exact (hP.inner hcomp.toExtends).right hext₁
    refine ⟨st₃, ?_, hext.trans hcomp.toExtends, ?_, ?_, ?_⟩
    · simp only [visitParts, hvisit₁, bind, Except.bind, hempty, Bool.false_eq_true, ↓reduceIte,
        hvisit₂, visitElsePart, hels, hthn, Bool.and_false, hvisit₃]
    · intro f ρ hP
      obtain ⟨hf, hthnCode, -⟩ := hcode₁ ((hP.inner hcomp.toExtends).inner hext₂)
      obtain ⟨-, helseCode⟩ := hcode₂ (hplaced hP)
      refine Or.inr ⟨_, _, hf, hthnCode, ?_⟩
      simp only [hempty, Bool.false_and, Bool.false_eq_true, ↓reduceIte]
      refine helseCode _ _ ?_
      rw [hloops]
      simpa only [hels, Bool.false_eq_true, ↓reduceIte] using hcomp.code (hP.right hext)
    · intro h
      rw [hsel, Tail.isNothing_after, hτ', Bool.false_and] at h
      cases h
    · intro _
      rw [hsel]
      exact hcomp.lastGoto_after hext hlast fun _ _ _ hP => (hcode₂ (hplaced hP)).1

/-- The parts of a selection that is not dropped. -/
theorem visitParts_spec (hr : st.Ready) (hl : st.lastStatement = false)
    (hp : st.nextLabelPlaceholders = p :: ps)
    (hlow : selectionLowers b thn elseIfs els (thn.lowers false) (thn.lowers b)
      (elseIfs.lowers b els.isEmpty) (els.lowers b) = true)
    (hsome : (thn.isEmpty && elseIfs.allEmpty && els.isEmpty) = false)
    (hthen : ∀ b', thn.lowers b' = true → thn.isEmpty = false →
      PartCompiles visitThen b' (StatementList.CodeAt · thn.trailingLoops) thn.trailingLoops.tail)
    (helseIfs : elseIfs.lowers b els.isEmpty = true → elseIfs.isEmpty = false →
      ElseIfsCompile visitElseIfs b els.isEmpty elseIfs.trailingLoops)
    (helse : els.lowers b = true → els.isEmpty = false →
      PartCompiles visitElse b (StatementList.CodeAt · els.trailingLoops)
        els.trailingLoops.tail) :
    ∃ st', visitParts e thn elseIfs els visitThen visitElseIfs visitElse st = .ok st' ∧
      Compiles st st' p b (SelectionCode e thn elseIfs els) (selectionTail thn elseIfs els) := by
  unfold selectionLowers at hlow
  rw [hsome] at hlow
  simp only [Bool.false_eq_true, ↓reduceIte] at hlow
  cases hthn : thn.isEmpty with
  | true =>
    simp only [hthn, ↓reduceIte, Bool.and_eq_true] at hlow
    obtain ⟨⟨hnil, helow⟩, hleaves⟩ := hlow
    cases elseIfs with
    | cons _ _ _ => simp [ElseIfStatements.isEmpty] at hnil
    | nil =>
      have hels : els.isEmpty = false := by
        simpa [hthn, ElseIfStatements.allEmpty] using hsome
      exact visitParts_else hr hl hp hthn hels hleaves (helse helow hels)
  | false =>
    simp only [hthn, Bool.false_eq_true, ↓reduceIte] at hlow
    cases hempty : elseIfs.allEmpty with
    | true =>
      simp only [hempty, ↓reduceIte] at hlow
      cases hels : els.isEmpty with
      | true =>
        simp only [hels, ↓reduceIte, Bool.and_eq_true, Bool.or_eq_true] at hlow
        exact visitParts_then hr hl hp hthn hempty hels hlow.2 (hthen b hlow.1 hthn)
      | false =>
        simp only [hels, Bool.false_eq_true, ↓reduceIte, Bool.and_eq_true] at hlow
        obtain ⟨⟨hnil, htlow⟩, helow⟩ := hlow
        cases elseIfs with
        | cons _ _ _ => simp [ElseIfStatements.isEmpty] at hnil
        | nil =>
          exact visitParts_then_else hr hl hp hthn hels (thenTail_isNothing htlow hthn)
            (hthen false htlow hthn) (helse helow hels)
    | false =>
      simp only [hempty, Bool.false_eq_true, ↓reduceIte, Bool.and_eq_true] at hlow
      obtain ⟨⟨htlow, hilow⟩, helow⟩ := hlow
      have hne : elseIfs.isEmpty = false := by
        cases elseIfs with
        | nil => simp [ElseIfStatements.allEmpty] at hempty
        | cons _ _ _ => rfl
      have hτ' : elseIfs.trailingLoops.tail.isNothing = false := by
        rw [ElseIfStatements.tail_trailingLoops, Tail.isNothing_trailingLoops]
        exact elseIfs.isNothing_tail hilow hne
      exact visitParts_elseIfs hr hl hp hthn hempty (thenTail_isNothing htlow hthn) hτ'
        (hthen false htlow hthn) (helseIfs hilow hne) (helse helow)

theorem selection_dropped (h : (thn.isEmpty && elseIfs.allEmpty && els.isEmpty) = true) :
    (∀ f l, SelectionCode e thn elseIfs els f l l) ∧
      (selectionTail thn elseIfs els).isNothing = true := by
  simp only [Bool.and_eq_true] at h
  obtain ⟨⟨hthn, hempty⟩, hels⟩ := h
  have hthn' : thn.trailingLoops.isEmpty = true := (thn.isEmpty_trailingLoops).trans hthn
  have hempty' : elseIfs.trailingLoops.allEmpty = true :=
    (elseIfs.allEmpty_trailingLoops).trans hempty
  have hloops : elseWithLoops thn elseIfs els = .nil := by
    rw [elseWithLoops, if_pos hels, ElseIfStatements.tail_of_allEmpty _ hempty',
      StatementList.tail_of_isEmpty hthn']
    rfl
  refine ⟨fun f l => Or.inl ⟨?_, rfl⟩, ?_⟩
  · rw [hthn', hempty', hloops]
    rfl
  · rw [selectionTail, hloops, ElseIfStatements.tail_of_allEmpty _ hempty',
      StatementList.tail_of_isEmpty hthn']
    rfl

theorem compiles_dropped {st' : PouCompiler} (hr : st.Ready) (hr' : st'.Ready)
    (hlabel : st'.label = st.label) (hmap : st'.labelToInstruction = st.labelToInstruction)
    (hstack : st'.nextLabelPlaceholders = st.nextLabelPlaceholders)
    (hnext : st'.nextLabelPlaceholder ≤ st.nextLabelPlaceholder)
    (hlast : st.lastStatement = false → st'.lastStatement = false) (hb : b = true)
    (hcode : ∀ f l, C f l l) (hτ : τ.isNothing = true) :
    Compiles st st' k b C τ where
  ready := hr'
  placeholders := hstack
  fresh := hnext
  label_le := le_of_eq hlabel.symm
  frame := fun l _ => by simp only [at?, hmap]
  noCall := by
    intro l i hl hi
    rw [at?, hmap, ← at?, hr.at?_label hl] at hi
    cases hi
  notLast := hlast
  code := by
    intro f ρ hP
    rw [hP.atEnd hb, hlabel]
    exact hcode f st.label
  nothing := fun _ => ⟨hlabel, hmap⟩
  lastGoto := fun h => by
    rw [hτ] at h
    cases h

/-- The visitor of IF: a dropped selection emits nothing, any other one its parts. -/
theorem visitIf_spec (hr : st.Ready) (hb : st.lastStatement = false → b = true)
    (hstack : st.lastStatement = true → st.nextLabelPlaceholders ≠ [])
    (hlow : selectionLowers b thn elseIfs els (thn.lowers false) (thn.lowers b)
      (elseIfs.lowers b els.isEmpty) (els.lowers b) = true)
    (hthen : ∀ b', thn.lowers b' = true → thn.isEmpty = false →
      PartCompiles visitThen b' (StatementList.CodeAt · thn.trailingLoops) thn.trailingLoops.tail)
    (helseIfs : elseIfs.lowers b els.isEmpty = true → elseIfs.isEmpty = false →
      ElseIfsCompile visitElseIfs b els.isEmpty elseIfs.trailingLoops)
    (helse : els.lowers b = true → els.isEmpty = false →
      PartCompiles visitElse b (StatementList.CodeAt · els.trailingLoops)
        els.trailingLoops.tail) :
    ∃ st', visitIf e thn elseIfs els visitThen visitElseIfs visitElse st = .ok st' ∧
      Compiles st st' (continuation st st') b (SelectionCode e thn elseIfs els)
        (selectionTail thn elseIfs els) := by
  cases hsome : (thn.isEmpty && elseIfs.allEmpty && els.isEmpty) with
  | true =>
    obtain ⟨hcode, hsel⟩ := selection_dropped (e := e) hsome
    have hbt : b = true := by simpa [selectionLowers, hsome] using hlow
    cases hl : st.lastStatement with
    | true =>
      refine ⟨st.setLastStatement false, by simp [visitIf, hl, hsome], ?_⟩
      refine compiles_dropped hr (hr.setLastStatement false) rfl rfl rfl le_rfl (fun _ => rfl) hbt
        hcode hsel
    | false =>
      refine ⟨st.pushPlaceholder.popPlaceholder, by simp [visitIf, hl, hsome], ?_⟩
      refine compiles_dropped hr ?_ rfl rfl rfl ?_ (fun _ => hl) hbt hcode hsel
      · have h := hr.pushPlaceholder
        exact ⟨h.label_nonneg, h.next_neg,
          fun q hq => h.stack q (List.mem_cons_of_mem _ hq), h.labels, h.targets⟩
      · simp only [popPlaceholder, pushPlaceholder]
        omega
  | false =>
    cases hl : st.lastStatement with
    | true =>
      cases hp : st.nextLabelPlaceholders with
      | nil => exact absurd hp (hstack hl)
      | cons p ps =>
        obtain ⟨st₂, hvisit, hcomp⟩ := visitParts_spec (e := e) (hr.setLastStatement false) rfl hp
          hlow hsome hthen helseIfs helse
        refine ⟨st₂.setLastStatement true, ?_, ?_⟩
        · simp only [visitIf, hl, hsome, Bool.false_eq_true, ↓reduceIte, hvisit, bind, Except.bind]
        · rw [continuation_of_last _ _ hl hp]
          exact hcomp.setLastStatement (by simp [hl])
    | false =>
      have hbt := hb hl
      subst hbt
      obtain ⟨st₂, hvisit, hcomp⟩ := visitParts_spec (e := e) (p := st.nextLabelPlaceholder - 1)
        hr.pushPlaceholder hl rfl hlow hsome hthen helseIfs helse
      have hτ : (selectionTail thn elseIfs els).isNothing = false := by
        have h := Statement.tail_trailingLoops (.ifStatement e thn elseIfs els)
        rw [show selectionTail thn elseIfs els = _ from h, Tail.isNothing_trailingLoops]
        exact selectionLowers_isNothing hlow (fun _ => hsome) thn.isNothing_tail
      refine ⟨st₂.resolveTop st₂.label, ?_, ?_⟩
      · simp only [visitIf, hl, hsome, Bool.false_eq_true, ↓reduceIte, hvisit, bind, Except.bind]
      · have hlabel : (st₂.resolveTop st₂.label).label = st₂.label := by
          have h : st₂.nextLabelPlaceholders = _ := hcomp.placeholders
          simp only [PouCompiler.resolveTop, h, pushPlaceholder]
        rw [continuation_of_not_last _ hl, hlabel]
        exact hcomp.resolveTop hr hτ

end SelectionParts

variable (modules : String → Option CalleeModule)

mutual

theorem visit_spec : (s : Statement) → {b : Bool} → {st : PouCompiler} → s.lowers b = true →
    st.Ready → (st.lastStatement = false → b = true) →
    (st.lastStatement = true → st.nextLabelPlaceholders ≠ []) →
    ∃ st', visit modules s st = .ok st' ∧
      Compiles st st' (continuation st st') b (Statement.CodeAt · s.trailingLoops)
        s.trailingLoops.tail
  | .assertStatement _, _, _, h, _, _, _ => by simp [Statement.lowers] at h
  | .assumeStatement _, _, _, h, _, _, _ => by simp [Statement.lowers] at h
  | .invocationStatement _ _ _, _, _, h, _, _, _ => by simp [Statement.lowers] at h
  | .assignmentStatement r e, _, _, _, hr, _, hstack =>
    visitAssignmentStatement_spec hr hstack r e
  | .ifStatement e thn elseIfs els, b, st, h, hr, hb, hstack =>
    visitIf_spec hr hb hstack h (fun b' => visitPart_spec thn)
      (visitElseIfs_spec elseIfs) (visitPart_spec els)
  | .caseStatement .nil _, _, _, h, _, _, _ => by simp [Statement.lowers] at h
  | .caseStatement (.cons g thn elseIfs) els, b, st, h, hr, hb, hstack =>
    visitIf_spec hr hb hstack h (fun b' => visitPart_spec thn)
      (visitElseIfs_spec elseIfs) (visitPart_spec els)
  | .whileStatement e body, b, st, h, hr, _, hstack => by
    simp only [Statement.lowers, Bool.and_eq_true, Bool.not_eq_true'] at h
    have hτ := thenTail_isNothing h.2 h.1
    have hspec := visitWhile_spec (b := b) (e := e) hr hstack h.1 hτ (visitPart_spec body h.2 h.1)
    have htail : (Statement.whileStatement e body).trailingLoops.tail =
        body.trailingLoops.tail.around (.whileStatement e body.trailingLoops) := by
      simp [Statement.trailingLoops, Statement.tail, StatementList.isEmpty_trailingLoops, h.1]
    rw [htail]
    exact hspec

theorem visitPart_spec : (s : StatementList) → {b : Bool} → s.lowers b = true →
    s.isEmpty = false →
    PartCompiles (visitPart modules s) b (StatementList.CodeAt · s.trailingLoops)
      s.trailingLoops.tail
  | .nil, _, _, h => by simp [StatementList.isEmpty] at h
  | .cons s .nil, b, h, _ => by
    intro st p ps hr hl hp
    simp only [StatementList.lowers, StatementList.isEmpty, Bool.not_true, Bool.or_false,
      Bool.and_true] at h
    obtain ⟨st₁, hvisit, hcomp⟩ := visit_spec s h (hr.setLastStatement true)
      (by simp [PouCompiler.setLastStatement]) (by simp [PouCompiler.setLastStatement, hp])
    rw [continuation_of_last (st.setLastStatement true) st₁ rfl hp] at hcomp
    refine ⟨st₁.setLastStatement false, ?_, ?_⟩
    · simp only [visitPart, hvisit, bind, Except.bind]
    · exact (hcomp.setLastStatement (fun _ => rfl)).imp fun f l k hc => ⟨k, hc, rfl⟩
  | .cons s (.cons s' rest), b, h, _ => by
    intro st p ps hr hl hp
    have h' : s.lowers true = true ∧ (StatementList.cons s' rest).lowers b = true := by
      rw [StatementList.lowers, Bool.and_eq_true] at h
      simpa [StatementList.isEmpty] using h
    obtain ⟨st₁, hvisit, hcomp⟩ := visit_spec s h'.1 hr (fun _ => rfl) (by simp [hl])
    rw [continuation_of_not_last st₁ hl] at hcomp
    obtain ⟨st₂, hvisit', hcomp'⟩ := visitPart_spec (.cons s' rest) h'.2 rfl st₁ p ps hcomp.ready
      (hcomp.notLast hl) (hcomp.placeholders.trans hp)
    refine ⟨st₂, ?_, hcomp.append hcomp' ?_⟩
    · simp only [visitPart, hvisit, bind, Except.bind, hvisit']
    · intro hn
      by_contra hb
      rw [Bool.not_eq_true] at hb
      have hlow := h'.2
      rw [hb] at hlow
      rw [thenTail_isNothing hlow rfl] at hn
      cases hn

theorem visitElseIfs_spec : (s : ElseIfStatements) → {b elseEmpty : Bool} →
    s.lowers b elseEmpty = true → s.isEmpty = false →
    ElseIfsCompile (visitElseIfs modules elseEmpty s) b elseEmpty s.trailingLoops
  | .nil, _, _, _, h => by simp [ElseIfStatements.isEmpty] at h
  | .cons g part .nil, b, elseEmpty, h, _ => by
    simp only [ElseIfStatements.lowers, ElseIfStatements.isEmpty, Bool.and_true,
      Bool.and_eq_true, Bool.not_eq_true'] at h
    refine visitElseIfs_last (visitPart_spec part h.2 h.1.1) ?_
    rw [StatementList.tail_trailingLoops, Tail.isNothing_trailingLoops]
    exact h.1.2
  | .cons g part (.cons g' part' rest), b, elseEmpty, h, _ => by
    rw [ElseIfStatements.lowers] at h
    simp only [ElseIfStatements.isEmpty, Bool.and_false, Bool.false_and, Bool.and_eq_true,
      Bool.not_eq_true'] at h
    refine visitElseIfs_cons (visitPart_spec part h.1.2 h.1.1.1) rfl
      (visitElseIfs_spec (.cons g' part' rest) h.2 rfl) ?_
    rw [ElseIfStatements.tail_trailingLoops, Tail.isNothing_trailingLoops]
    exact ElseIfStatements.isNothing_tail _ h.2 rfl

end

theorem visitBody_spec : (s : StatementList) → {st : PouCompiler} → s.lowers true = true →
    st.Ready → st.lastStatement = false →
    ∃ st', visitBody modules s st = .ok st' ∧
      Compiles st st' st'.label true (StatementList.CodeAt · s.trailingLoops) s.trailingLoops.tail
  | .nil, st, _, hr, hl =>
    ⟨st, rfl, compiles_dropped hr hr rfl rfl rfl le_rfl id rfl (fun _ _ => rfl) rfl⟩
  | .cons s rest, st, h, hr, hl => by
    simp only [StatementList.lowers, Bool.true_or, Bool.and_eq_true] at h
    obtain ⟨st₁, hvisit, hcomp⟩ :=
      visit_spec modules s h.1 hr (fun _ => rfl) (by simp [hl])
    rw [continuation_of_not_last st₁ hl] at hcomp
    obtain ⟨st₂, hvisit', hcomp'⟩ := visitBody_spec rest h.2 hcomp.ready (hcomp.notLast hl)
    refine ⟨st₂, ?_, hcomp.append hcomp' (fun _ => rfl)⟩
    simp only [visitBody, hvisit, bind, Except.bind, hvisit']

end PouCompiler

end Ahorn
