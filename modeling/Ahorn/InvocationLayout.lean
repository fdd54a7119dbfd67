import Ahorn.LoweringChecks

set_option autoImplicit false

/-!
# Where the code of invocations is placed

The statements of a unit are placed one behind the other. The code of an invocation is left to the
label behind it, or as the last statement of a part to where the statement around it goes on.
-/
namespace Ahorn

open Instruction PouCompiler

/-- The labels of a selection, given those of its parts. -/
def thenSize (thn : StatementList) (size : ℕ) : ℕ := if thn.isEmpty then 0 else 1 + size

def elseIfsSize (elseIfs : ElseIfStatements) (size : ℕ) : ℕ := if elseIfs.allEmpty then 0 else size

/-- The label of the header in front of an ELSE that is the only part. -/
def elseHeader (thn : StatementList) (elseIfs : ElseIfStatements) (els : StatementList) : ℕ :=
  if thn.isEmpty && elseIfs.allEmpty && !els.isEmpty then 1 else 0

mutual

/-- The number of labels that the code of a statement takes. -/
def Statement.size (signatures : String → Option Signature) : Statement → ℕ
  | .assignmentStatement _ _ => 2
  | .ifStatement _ thn elseIfs els =>
    thenSize thn (thn.size signatures) + elseIfsSize elseIfs (elseIfs.size signatures) +
      (elseHeader thn elseIfs els + els.size signatures)
  | .invocationStatement callee _ _ =>
    match signatureOf signatures callee with
    | some S => 2 * variableCount S.inputVariables + 1 + 2 * variableCount S.outputVariables
    | none => 0
  | .whileStatement _ body => if body.isEmpty then 0 else 1 + body.size signatures
  | .caseStatement (.cons _ thn elseIfs) els =>
    thenSize thn (thn.size signatures) + elseIfsSize elseIfs (elseIfs.size signatures) +
      (elseHeader thn elseIfs els + els.size signatures)
  | _ => 0

def StatementList.size (signatures : String → Option Signature) : StatementList → ℕ
  | .nil => 0
  | .cons s rest => s.size signatures + rest.size signatures

def ElseIfStatements.size (signatures : String → Option Signature) : ElseIfStatements → ℕ
  | .nil => 0
  | .cons _ part rest => 1 + part.size signatures + rest.size signatures

end

/-- The instructions stand one behind the other from the label on. -/
def PlacedAt (f : ℤ → Option Instruction) (l : ℤ) (code : List Instruction) : Prop :=
  ∀ (j : ℕ) (h : j < code.length), f (l + j) = some code[j]

/-- The completed call of a unit stands at the label and is left to `k`. -/
def InvocationAt (modules : String → Option CalleeModule) (f : ℤ → Option Instruction)
    (callee : Variable) (pre post : List Parameter) (l k : ℤ) : Prop :=
  ∃ typeName M code, callee.dataType = .derivedType typeName ∧ modules typeName = some M ∧
    InvocationCode M callee pre post l k code ∧ PlacedAt f l code

mutual

/-- How the compiler leaves the invocations in a statement at `l` that it leaves to `k`: to the
label behind a statement, unless the statement stands last in its part. -/
def Statement.Left (modules : String → Option CalleeModule) (f : ℤ → Option Instruction) :
    Statement → ℤ → ℤ → Prop
  | .assignmentStatement _ _, _, _ => True
  | .invocationStatement callee pre post, l, k => InvocationAt modules f callee pre post l k
  | .ifStatement _ thn elseIfs els, l, k =>
    (thn.Left modules f (l + 1) k ∧
      elseIfs.Left modules f (l + thenSize thn (thn.size (signatures modules))) k) ∧
    els.Left modules f (l + ↑(thenSize thn (thn.size (signatures modules)) +
      elseIfsSize elseIfs (elseIfs.size (signatures modules))) + elseHeader thn elseIfs els) k
  | .whileStatement _ body, l, _ => body.Left modules f (l + 1) l
  | .caseStatement (.cons _ thn elseIfs) els, l, k =>
    (thn.Left modules f (l + 1) k ∧
      elseIfs.Left modules f (l + thenSize thn (thn.size (signatures modules))) k) ∧
    els.Left modules f (l + ↑(thenSize thn (thn.size (signatures modules)) +
      elseIfsSize elseIfs (elseIfs.size (signatures modules))) + elseHeader thn elseIfs els) k
  | _, _, _ => False

def StatementList.Left (modules : String → Option CalleeModule) (f : ℤ → Option Instruction) :
    StatementList → ℤ → ℤ → Prop
  | .nil, _, _ => True
  | .cons s .nil, l, k => s.Left modules f l k
  | .cons s (.cons s' rest), l, k =>
    s.Left modules f l (l + s.size (signatures modules)) ∧
      StatementList.Left modules f (.cons s' rest) (l + s.size (signatures modules)) k

def ElseIfStatements.Left (modules : String → Option CalleeModule)
    (f : ℤ → Option Instruction) : ElseIfStatements → ℤ → ℤ → Prop
  | .nil, _, _ => True
  | .cons _ part rest, l, k =>
    part.Left modules f (l + 1) k ∧
      rest.Left modules f (l + ↑(1 + part.size (signatures modules))) k

end

theorem StatementList.left_of_isEmpty {modules : String → Option CalleeModule} {s : StatementList}
    (h : s.isEmpty = true) (f : ℤ → Option Instruction) (l k : ℤ) : s.Left modules f l k := by
  cases s with
  | nil => exact trivial
  | cons _ _ => cases h

theorem ElseIfStatements.left_of_allEmpty {modules : String → Option CalleeModule} :
    (s : ElseIfStatements) → s.allEmpty = true → ∀ (f : ℤ → Option Instruction) (l k : ℤ),
      s.Left modules f l k
  | .nil, _, _, _, _ => trivial
  | .cons _ part rest, h, f, l, k => by
    unfold ElseIfStatements.allEmpty at h
    rw [Bool.and_eq_true] at h
    exact ⟨StatementList.left_of_isEmpty h.1 f _ k, left_of_allEmpty rest h.2 f _ k⟩

theorem StatementList.size_of_isEmpty {signatures : String → Option Signature} {s : StatementList}
    (h : s.isEmpty = true) : s.size signatures = 0 := by
  cases s with
  | nil => rfl
  | cons _ _ => cases h

namespace PouCompiler

/-- Placeholders are negative and handed out downwards. -/
structure Stacked (st : PouCompiler) : Prop where
  next_neg : st.nextLabelPlaceholder < 0
  stack : ∀ p ∈ st.nextLabelPlaceholders, st.nextLabelPlaceholder ≤ p ∧ p < 0

/-- Code of the given size has been emitted; once the placeholders are resolved by `ρ`, it is left
to `ρ k`. -/
structure Lays (st st' : PouCompiler) (size : ℕ) (code : (ℤ → Option Instruction) → ℤ → ℤ → Prop)
    (k : ℤ) : Prop where
  label : st'.label = st.label + size
  fresh : st'.nextLabelPlaceholder ≤ st.nextLabelPlaceholder
  frame : ∀ l < st.label, st'.at? l = st.at? l
  code : ∀ {f ρ}, (∀ t, 0 ≤ t → ρ t = t) →
    (∀ l, st.label ≤ l → l < st'.label → f l = (st'.at? l).map (Instruction.rename ρ)) →
    code f st.label (ρ k)

variable {entry : ℤ} {reserved : ℤ → Prop} {st st₁ st₂ : PouCompiler} {n m : ℕ}
  {C D : (ℤ → Option Instruction) → ℤ → ℤ → Prop} {k : ℤ}

theorem Stacked.of_fresh (h : st.Stacked) (hfresh : st₁.nextLabelPlaceholder ≤ st.nextLabelPlaceholder)
    (hps : st₁.nextLabelPlaceholders = st.nextLabelPlaceholders) : st₁.Stacked where
  next_neg := lt_of_le_of_lt hfresh h.next_neg
  stack := by
    intro p hp
    rw [hps] at hp
    exact ⟨le_trans hfresh (h.stack p hp).1, (h.stack p hp).2⟩

theorem Stacked.pushPlaceholder (h : st.Stacked) : st.pushPlaceholder.Stacked where
  next_neg := by
    have := h.next_neg
    simp only [PouCompiler.pushPlaceholder]
    omega
  stack := by
    have := h.next_neg
    intro p hp
    simp only [PouCompiler.pushPlaceholder] at hp ⊢
    rcases List.mem_cons.mp hp with rfl | hp
    · omega
    · have := h.stack p hp
      omega

namespace Lays

theorem refl (st : PouCompiler) (k : ℤ) : Lays st st 0 (fun _ _ _ => True) k :=
  ⟨by simp, le_rfl, fun _ _ => rfl, fun _ _ => trivial⟩

theorem append (h₁ : Lays st st₁ n C k) (h₂ : Lays st₁ st₂ m D k) :
    Lays st st₂ (n + m) (fun f l k => C f l k ∧ D f (l + n) k) k where
  label := by
    rw [h₂.label, h₁.label]
    omega
  fresh := le_trans h₂.fresh h₁.fresh
  frame := by
    intro l hl
    have hl₁ := h₁.label
    rw [h₂.frame l (by omega), h₁.frame l hl]
  code := by
    intro f ρ hρ hf
    have hl₁ := h₁.label
    have hl₂ := h₂.label
    constructor
    · apply h₁.code hρ
      intro l hl hlt
      rw [hf l hl (by omega), h₂.frame l hlt]
    · rw [← hl₁]
      apply h₂.code hρ
      intro l hl hlt
      exact hf l (by omega) hlt

theorem andThen (h₁ : Lays st st₁ n C st₁.label) (h₂ : Lays st₁ st₂ m D k) (hpos : 0 ≤ st.label) :
    Lays st st₂ (n + m) (fun f l k => C f l (l + n) ∧ D f (l + n) k) k where
  label := by
    rw [h₂.label, h₁.label]
    omega
  fresh := le_trans h₂.fresh h₁.fresh
  frame := by
    intro l hl
    have hl₁ := h₁.label
    rw [h₂.frame l (by omega), h₁.frame l hl]
  code := by
    intro f ρ hρ hf
    have hl₁ := h₁.label
    have hl₂ := h₂.label
    constructor
    · have hcode := h₁.code (f := f) hρ (by
        intro l hl hlt
        rw [hf l hl (by omega), h₂.frame l hlt])
      rw [hρ _ (by omega), hl₁] at hcode
      exact hcode
    · rw [← hl₁]
      apply h₂.code hρ
      intro l hl hlt
      exact hf l (by omega) hlt

theorem header (h : Lays st.skipLabel st₁ n C k) (i : Instruction) :
    Lays st (st₁.emplace st.label i) (1 + n) (fun f l k => C f (l + 1) k) k where
  label := by
    have hl : st₁.label = st.label + 1 + n := h.label
    change st₁.label = _
    omega
  fresh := h.fresh
  frame := by
    intro l hl
    rw [at?_emplace_ne (ne_of_lt hl)]
    exact h.frame l (by simp only [PouCompiler.skipLabel]; omega)
  code := by
    intro f ρ hρ hf
    refine h.code (f := f) hρ ?_
    intro l hl hlt
    have hl : st.label + 1 ≤ l := hl
    rw [hf l (by omega) hlt, at?_emplace_ne (by omega)]

theorem congr {s s₁ : PouCompiler} (h : Lays st st₁ n C k) (hlabel : s.label = st.label)
    (hnext : st.nextLabelPlaceholder ≤ s.nextLabelPlaceholder)
    (hmap : s.labelToInstruction = st.labelToInstruction) (hlabel₁ : s₁.label = st₁.label)
    (hnext₁ : s₁.nextLabelPlaceholder = st₁.nextLabelPlaceholder)
    (hmap₁ : s₁.labelToInstruction = st₁.labelToInstruction) : Lays s s₁ n C k where
  label := by rw [hlabel₁, h.label, hlabel]
  fresh := by
    rw [hnext₁]
    exact le_trans h.fresh hnext
  frame := by
    intro l hl
    unfold at?
    rw [hmap₁, hmap]
    exact h.frame l (hlabel ▸ hl)
  code := by
    intro f ρ hρ hf
    rw [hlabel]
    apply h.code hρ
    intro l hl hlt
    rw [hf l (hlabel ▸ hl) (hlabel₁ ▸ hlt)]
    unfold at?
    rw [hmap₁]

theorem imp (h : Lays st st₁ n C k) (hCD : ∀ f l k, C f l k → D f l k) : Lays st st₁ n D k :=
  ⟨h.label, h.fresh, h.frame, fun hρ hf => hCD _ _ _ (h.code hρ hf)⟩

/-- Code left to a placeholder, once the placeholder is resolved. Earlier code does not have it. -/
theorem resolveTop {p target : ℤ} {ps : List ℤ} (h : Lays st st₁ n C p)
    (hps : st₁.nextLabelPlaceholders = p :: ps) (hp : p < 0)
    (hfree : ∀ l i, st.at? l = some i → ∀ t ∈ i.targets, t ≠ p) :
    Lays st (st₁.resolveTop target) n C target := by
  have hat := fun l => Extends.at?_resolveTop hps target l
  have hlabel : (st₁.resolveTop target).label = st₁.label := by
    unfold PouCompiler.resolveTop
    rw [hps]
  refine ⟨hlabel.trans h.label, ?_, ?_, ?_⟩
  · unfold PouCompiler.resolveTop
    rw [hps]
    exact h.fresh
  · intro l hl
    rw [hat, h.frame l hl]
    cases hi : st.at? l with
    | none => rfl
    | some i =>
      rw [Option.map_some, rename_of_targets fun t ht => redirect_of_ne target (hfree l i hi t ht)]
  · intro f ρ hρ hf
    have hρ' : ∀ t, 0 ≤ t → (ρ ∘ redirect p target) t = t := by
      intro t ht
      simp only [Function.comp, redirect_of_ne target (by omega : t ≠ p)]
      exact hρ t ht
    have hcode := h.code (f := f) hρ' (by
      intro l hl hlt
      rw [hf l hl (hlabel ▸ hlt), hat, Option.map_map]
      congr 1
      exact funext fun i => rename_rename _ _ i)
    simp only [Function.comp, redirect_self] at hcode
    exact hcode

theorem of_writes {code : List Instruction} (h : Writes st st₁ code)
    (hcode : ∀ {f ρ}, (∀ t, 0 ≤ t → ρ t = t) →
      PlacedAt f st.label (code.map (Instruction.rename ρ)) → C f st.label (ρ k)) :
    Lays st st₁ code.length C k where
  label := h.label
  fresh := h.placeholder.le
  frame := by
    intro l hl
    rw [h.at?, if_neg (by omega)]
  code := by
    intro f ρ hρ hf
    refine hcode hρ ?_
    intro j hj
    have hlabel := h.label
    rw [List.length_map] at hj
    rw [hf _ (by omega) (by omega), h.at?, if_pos (by omega), add_sub_cancel_left,
      Int.toNat_natCast, List.getElem?_eq_getElem hj, List.getElem_map]
    rfl

end Lays

/-- What the visitor of a statement emits. -/
def LaysStatement (entry : ℤ) (f : PouCompiler → Except String PouCompiler) (size : ℕ)
    (C : (ℤ → Option Instruction) → ℤ → ℤ → Prop) : Prop :=
  ∀ {reserved : ℤ → Prop} {st st' : PouCompiler}, Sound entry reserved st → st.Stacked →
    (st.lastStatement = true → st.nextLabelPlaceholders ≠ []) → f st = .ok st' →
    Lays st st' size C (continuation st st')

/-- What the visitor of a part emits; the part is left to the placeholder on top. -/
def LaysPart (entry : ℤ) (f : PouCompiler → Except String PouCompiler) (size : ℕ)
    (C : (ℤ → Option Instruction) → ℤ → ℤ → Prop) : Prop :=
  ∀ {reserved : ℤ → Prop} {st st' : PouCompiler} {p : ℤ} {ps : List ℤ}, Sound entry reserved st →
    st.Stacked → st.lastStatement = false → st.nextLabelPlaceholders = p :: ps → f st = .ok st' →
    Lays st st' size C p

theorem lays_visitAssignmentStatement (r : VariableReference) (e : Expression) :
    LaysStatement entry (visitAssignmentStatement r e) 2 (fun _ _ _ => True) := by
  intro reserved st st' h hs hps hok
  obtain ⟨st₁, hok₁, hwrites, -⟩ := visitAssignmentStatement_writes h.fresh hps r e
  rw [hok] at hok₁
  cases hok₁
  exact Lays.of_writes hwrites fun _ _ => trivial

theorem Sound.label_nonneg (h : Sound entry reserved st) : 0 ≤ st.label := by
  have := h.entry_nonneg
  have := h.entry_lt
  omega

theorem outputs_length {M : CalleeModule} {callee : Variable} {post outputs : List Parameter}
    (h : if M.outputVariables.isEmpty then outputs = []
      else Completes (outputName callee) callee M.outputVariables post outputs) :
    outputs.length = variableCount M.outputVariables := by
  by_cases hempty : M.outputVariables.isEmpty = true
  · rw [if_pos hempty] at h
    rw [h, List.isEmpty_iff.mp hempty]
    rfl
  · rw [if_neg hempty] at h
    exact h.length

theorem lays_visitInvocationStatement (modules : String → Option CalleeModule) (callee : Variable)
    (pre post : List Parameter) :
    LaysStatement entry (visitInvocationStatement modules callee pre post)
      (Statement.size (signatures modules) (.invocationStatement callee pre post))
      (fun f l k => InvocationAt modules f callee pre post l k) := by
  intro reserved st st' h hs hps hok
  cases hfit : invocationFits (signatures modules) callee pre post with
  | false =>
    obtain ⟨e, he⟩ := visitInvocationStatement_error hfit h.fresh hps
    rw [he] at hok
    cases hok
  | true =>
    obtain ⟨typeName, M, htype, hM⟩ := exists_callee_of_fits hfit
    obtain ⟨st₁, code, hok₁, hcode, hwrites, -⟩ :=
      visitInvocationStatement_ok htype hM hfit h.fresh hps
    rw [hok] at hok₁
    cases hok₁
    obtain ⟨inputs, outputs, hinputs, houtputs, rfl⟩ := hcode
    have hsize : Statement.size (signatures modules) (.invocationStatement callee pre post) =
        (invocationCode callee M.entryLabel inputs outputs st.label
          (continuation st st')).length := by
      unfold Statement.size signatureOf signatures
      simp only [htype, hM, Option.map_some]
      rw [length_invocationCode, hinputs.length, outputs_length houtputs]
    rw [hsize]
    apply Lays.of_writes hwrites
    intro f ρ hρ hplaced
    rw [rename_invocationCode hρ _ _ _ _ h.label_nonneg] at hplaced
    exact ⟨typeName, M, _, htype, hM, ⟨inputs, outputs, hinputs, houtputs, rfl⟩, hplaced⟩

section Selection

variable {e : Expression} {thn els : StatementList} {elseIfs : ElseIfStatements}
  {visitThen visitElseIfs visitElse : PouCompiler → Except String PouCompiler} {a b c : ℕ}
  {thenCode elseIfsCode elseCode : (ℤ → Option Instruction) → ℤ → ℤ → Prop}

theorem lays_visitThenPart (hthen : LaysPart entry visitThen a thenCode)
    (hempty : thn.isEmpty = true → ∀ f l k, thenCode f l k) :
    LaysPart entry (visitThenPart e thn elseIfs els visitThen) (thenSize thn a)
      (fun f l k => thenCode f (l + 1) k) := by
  intro reserved st st' p ps h hs hl hps hok
  unfold visitThenPart at hok
  unfold thenSize
  split at hok
  · rename_i hthn
    cases hok
    rw [if_pos hthn]
    exact (Lays.refl st p).imp fun f l k _ => hempty hthn f (l + 1) k
  · rename_i hthn
    obtain ⟨st₁, hpart, hok⟩ := bind_eq_ok hok
    dsimp only at hok
    obtain ⟨x, -, hok⟩ := ite_bind_eq_ok hok
    cases hok
    rw [if_neg hthn]
    have hlays := hthen h.skipLabel.1 ⟨hs.next_neg, hs.stack⟩ hl hps hpart
    exact hlays.header (.ifInstruction e (st.label + 1) x)

theorem lays_visitElsePart (helse : LaysPart entry visitElse c elseCode)
    (hempty : els.isEmpty = true → c = 0 ∧ ∀ f l k, elseCode f l k) :
    LaysPart entry (visitElsePart e thn elseIfs els visitElse) (elseHeader thn elseIfs els + c)
      (fun f l k => elseCode f (l + elseHeader thn elseIfs els) k) := by
  intro reserved st st' p ps h hs hl hps hok
  unfold visitElsePart at hok
  unfold elseHeader
  split at hok
  · rename_i hels
    cases hok
    obtain ⟨hc, hcode⟩ := hempty hels
    rw [hels, hc]
    simp only [Bool.not_true, Bool.and_false, Bool.false_eq_true, if_false]
    exact (Lays.refl st p).imp fun f l k _ => hcode f _ k
  rename_i hels
  split at hok
  · rename_i hother
    obtain ⟨st₁, hpart, hok⟩ := bind_eq_ok hok
    obtain ⟨t, -, hok⟩ := bind_eq_ok hok
    cases hok
    have hlays := helse h.skipLabel.1 ⟨hs.next_neg, hs.stack⟩ hl hps hpart
    rw [hother, if_pos (by simpa using hels)]
    exact hlays.header (.ifInstruction (elseExpression e elseIfs) t (st.label + 1))
  · rename_i hother
    rw [if_neg (by
      rw [Bool.and_eq_true]
      exact fun hboth => hother hboth.1)]
    have hlays := helse h hs hl hps hok
    rw [Nat.zero_add]
    exact hlays.imp fun f l k hcode => by simpa using hcode

theorem lays_visitIf (hpthen : PreservesPart entry visitThen)
    (hpelseIfs : PreservesPart entry visitElseIfs) (hpelse : PreservesPart entry visitElse)
    (hthen : LaysPart entry visitThen a thenCode)
    (hthenEmpty : thn.isEmpty = true → ∀ f l k, thenCode f l k)
    (helseIfs : LaysPart entry visitElseIfs b elseIfsCode)
    (helseIfsEmpty : elseIfs.allEmpty = true → ∀ f l k, elseIfsCode f l k)
    (helse : LaysPart entry visitElse c elseCode)
    (helseEmpty : els.isEmpty = true → c = 0 ∧ ∀ f l k, elseCode f l k) :
    LaysStatement entry (visitIf e thn elseIfs els visitThen visitElseIfs visitElse)
      (thenSize thn a + elseIfsSize elseIfs b + (elseHeader thn elseIfs els + c))
      (fun f l k => (thenCode f (l + 1) k ∧ elseIfsCode f (l + thenSize thn a) k) ∧
        elseCode f (l + ↑(thenSize thn a + elseIfsSize elseIfs b) + elseHeader thn elseIfs els)
          k) := by
  let N := thenSize thn a + elseIfsSize elseIfs b + (elseHeader thn elseIfs els + c)
  let code := fun (f : ℤ → Option Instruction) (l k : ℤ) =>
    (thenCode f (l + 1) k ∧ elseIfsCode f (l + thenSize thn a) k) ∧
      elseCode f (l + ↑(thenSize thn a + elseIfsSize elseIfs b) + elseHeader thn elseIfs els) k
  have hparts : ∀ {reserved : ℤ → Prop} {st st' : PouCompiler} {p : ℤ} {ps : List ℤ},
      Sound entry reserved st → st.Stacked → st.lastStatement = false →
      st.nextLabelPlaceholders = p :: ps →
      visitParts e thn elseIfs els visitThen visitElseIfs visitElse st = .ok st' →
      Lays st st' N code p ∧ st'.nextLabelPlaceholders = st.nextLabelPlaceholders := by
    intro reserved st st' p ps h hs hl hps hok
    obtain ⟨st₁, h1, hok⟩ := bind_eq_ok hok
    have hne : st.nextLabelPlaceholders ≠ [] := hps ▸ List.cons_ne_nil p ps
    obtain ⟨h₁, hk₁⟩ := preserves_visitThenPart hpthen h hl hne h1
    have hlays₁ := lays_visitThenPart hthen hthenEmpty h hs hl hps h1
    have hs₁ := hs.of_fresh hlays₁.fresh hk₁.placeholders
    have hps₁ : st₁.nextLabelPlaceholders = p :: ps := hk₁.placeholders.trans hps
    have hl₁ := hk₁.notLast hl
    dsimp only at hok
    obtain ⟨st₂, h2, hok⟩ := ite_bind_eq_ok hok
    have hstep : Sound entry reserved st₂ ∧ Keeps entry st₁ st₂ ∧
        Lays st₁ st₂ (elseIfsSize elseIfs b) elseIfsCode p := by
      unfold elseIfsSize
      split at h2
      · rename_i hall
        cases h2
        rw [if_pos hall]
        exact ⟨h₁, .refl _, (Lays.refl st₁ p).imp fun f l k _ => helseIfsEmpty hall f l k⟩
      · rename_i hall
        rw [if_neg hall]
        obtain ⟨h₂, hk₂⟩ := hpelseIfs h₁ hl₁ (hps₁ ▸ List.cons_ne_nil p ps) h2
        exact ⟨h₂, hk₂, helseIfs h₁ hs₁ hl₁ hps₁ h2⟩
    obtain ⟨h₂, hk₂, hlays₂⟩ := hstep
    have hs₂ := hs₁.of_fresh hlays₂.fresh hk₂.placeholders
    have hlays₃ := lays_visitElsePart helse helseEmpty h₂ hs₂ (hk₂.notLast hl₁)
      (hk₂.placeholders.trans hps₁) hok
    obtain ⟨-, hk₃⟩ := preserves_visitElsePart hpelse h₂ (hk₂.notLast hl₁)
      ((hk₂.placeholders.trans hps₁) ▸ List.cons_ne_nil p ps) hok
    exact ⟨(hlays₁.append hlays₂).append hlays₃,
      hk₃.placeholders.trans (hk₂.placeholders.trans hk₁.placeholders)⟩
  have hdropped : (thn.isEmpty && elseIfs.allEmpty && els.isEmpty) = true →
      ∀ (st : PouCompiler) (k : ℤ), Lays st st N code k := by
    intro hempty st k
    rw [Bool.and_eq_true, Bool.and_eq_true] at hempty
    obtain ⟨⟨hthn, helseIfs⟩, hels⟩ := hempty
    have hN : N = 0 := by
      simp only [N, thenSize, elseIfsSize, elseHeader, hthn, helseIfs, hels,
        (helseEmpty hels).1]
      rfl
    rw [hN]
    exact (Lays.refl st k).imp fun f l k _ =>
      ⟨⟨hthenEmpty hthn f _ k, helseIfsEmpty helseIfs f _ k⟩, (helseEmpty hels).2 f _ k⟩
  intro reserved st st' h hs hps hok
  unfold visitIf at hok
  cases hl : st.lastStatement with
  | true =>
    obtain ⟨p, ps, hst⟩ := List.exists_cons_of_ne_nil (hps hl)
    rw [continuation_of_last st st' hl hst]
    rw [hl] at hok
    dsimp only [if_true] at hok
    split at hok
    · rename_i hempty
      cases hok
      exact (hdropped hempty st p).congr rfl le_rfl rfl rfl rfl rfl
    · obtain ⟨st₁, hp, hok⟩ := bind_eq_ok hok
      cases hok
      have hlays := (hparts (h.setLastStatement false) ⟨hs.next_neg, hs.stack⟩ rfl hst hp).1
      exact hlays.congr rfl le_rfl rfl rfl rfl rfl
  | false =>
    rw [continuation_of_not_last st' hl]
    rw [hl] at hok
    simp only [Bool.false_eq_true, if_false] at hok
    split at hok
    · rename_i hempty
      cases hok
      have hlays := hdropped hempty st.pushPlaceholder st.label
      exact hlays.congr rfl (by simp only [PouCompiler.pushPlaceholder]; omega) rfl rfl rfl rfl
    · obtain ⟨st₁, hp, hok⟩ := bind_eq_ok hok
      cases hok
      obtain ⟨hlays, hps₁⟩ := hparts h.pushPlaceholder hs.pushPlaceholder hl rfl hp
      have hnext := hs.next_neg
      have hresolved := @Lays.resolveTop _ _ _ _ _ st₁.label _ hlays hps₁ (by omega) (by
        intro l i hi t ht
        rcases h.targets hi t ht with hmem | hv
        · have := (hs.stack t hmem).1
          omega
        · have := hv.above
          have := h.entry_nonneg
          omega)
      have hlabel : (st₁.resolveTop st₁.label).label = st₁.label := by
        unfold PouCompiler.resolveTop
        rw [hps₁]
        rfl
      rw [hlabel]
      exact hresolved.congr rfl (by simp only [PouCompiler.pushPlaceholder]; omega) rfl rfl rfl rfl

theorem lays_visitWhile {body : StatementList} (hp : PreservesPart entry visitThen)
    (hbody : LaysPart entry visitThen a thenCode)
    (hempty : body.isEmpty = true → ∀ f l k, thenCode f l k) :
    LaysStatement entry (visitWhile e body visitThen) (if body.isEmpty then 0 else 1 + a)
      (fun f l _ => thenCode f (l + 1) l) := by
  intro reserved st st' h hs hps hok
  unfold visitWhile at hok
  dsimp only at hok
  split at hok
  · rename_i hbodyEmpty
    cases hok
    rw [if_pos hbodyEmpty]
    have hlays := @Lays.congr _ _ _ _ _ st (st.setLastStatement false)
      (Lays.refl st (continuation st (st.setLastStatement false))) rfl le_rfl rfl rfl rfl rfl
    exact hlays.imp fun f l k _ => hempty hbodyEmpty f _ l
  · rename_i hbodyEmpty
    rw [if_neg hbodyEmpty]
    obtain ⟨st₁, hb, hok⟩ := bind_eq_ok hok
    obtain ⟨next, -, hok⟩ := ite_bind_eq_ok hok
    cases hok
    have hsound : Sound entry reserved (st.setLastStatement false).pushPlaceholder :=
      (h.setLastStatement false).pushPlaceholder
    have hstacked : (st.setLastStatement false).pushPlaceholder.Stacked :=
      @Stacked.pushPlaceholder (st.setLastStatement false) ⟨hs.next_neg, hs.stack⟩
    have hlays := hbody hsound.skipLabel.1 ⟨hstacked.next_neg, hstacked.stack⟩ rfl rfl hb
    obtain ⟨-, hk₁⟩ := hp hsound.skipLabel.1 rfl (List.cons_ne_nil _ _) hb
    have hnext := hs.next_neg
    have hnonneg := h.label_nonneg
    have hresolved := @Lays.resolveTop _ _ _ _ _ st.label _ hlays hk₁.placeholders (by
      change st.nextLabelPlaceholder - 1 < 0
      omega) (by
      intro l i hi t ht
      change t ≠ st.nextLabelPlaceholder - 1
      rcases h.targets hi t ht with hmem | hv
      · have := (hs.stack t hmem).1
        omega
      · have := hv.above
        have := h.entry_nonneg
        omega)
    have hheader := @Lays.congr _ _ _ _ _ st
      (((st₁.resolveTop st.label).setLastStatement st.lastStatement).emplace st.label
        (.whileInstruction e (st.label + 1) next))
      (hresolved.header (.whileInstruction e (st.label + 1) next)) rfl
      (by
        change st.nextLabelPlaceholder - 1 ≤ st.nextLabelPlaceholder
        omega) rfl rfl rfl rfl
    refine ⟨hheader.label, hheader.fresh, hheader.frame, ?_⟩
    intro f ρ hρ hf
    have hcode := hheader.code (f := f) hρ hf
    rw [hρ st.label hnonneg] at hcode
    exact hcode

end Selection

theorem lays_visitElseIfs_cons {modules : String → Option CalleeModule} {elseEmpty : Bool}
    {g : Guard} {part : StatementList} {rest : ElseIfStatements} {a b : ℕ}
    {partCode restCode : (ℤ → Option Instruction) → ℤ → ℤ → Prop}
    (hppart : PreservesPart entry (visitPart modules part))
    (hpart : LaysPart entry (visitPart modules part) a partCode)
    (hrest : LaysPart entry (visitElseIfs modules elseEmpty rest) b restCode) :
    LaysPart entry (visitElseIfs modules elseEmpty (.cons g part rest)) (1 + a + b)
      (fun f l k => partCode f (l + 1) k ∧ restCode f (l + ↑(1 + a)) k) := by
  intro reserved st st' p ps h hs hl hps hok
  unfold visitElseIfs at hok
  dsimp only at hok
  obtain ⟨st₁, hp, hok⟩ := bind_eq_ok hok
  obtain ⟨x, hx, hok⟩ := ite_bind_eq_ok hok
  have hne : st.nextLabelPlaceholders ≠ [] := hps ▸ List.cons_ne_nil p ps
  have hlays := (hpart h.skipLabel.1 ⟨hs.next_neg, hs.stack⟩ hl hps hp).header
    (.ifInstruction g.expression (st.label + 1) x)
  obtain ⟨h₁, hk₁⟩ := hppart h.skipLabel.1 hl hne hp
  have htarget : x ∈ st₁.nextLabelPlaceholders ∨ Valid entry st₁ x := by
    split at hx
    · exact h₁.gotoOfLastInstruction hx
    · cases hx
      exact Or.inr h₁.valid_label
  obtain ⟨h₂, hk₂⟩ := branch_sound (e := g.expression) h h₁ hk₁
    (Or.inr (hk₁.valid h.skipLabel.1.valid_label)) htarget
  exact hlays.append (hrest h₂ (hs.of_fresh hlays.fresh hk₂.placeholders) (hk₂.notLast hl)
    (hk₂.placeholders.trans hps) hok)

theorem lays_visitPart_last {modules : String → Option CalleeModule} {s : Statement}
    (hvisit : LaysStatement entry (visit modules s) (s.size (signatures modules))
      (s.Left modules)) :
    LaysPart entry (visitPart modules (.cons s .nil))
      (StatementList.size (signatures modules) (.cons s .nil))
      (fun f => StatementList.Left modules f (.cons s .nil)) := by
  intro reserved st st' p ps h hs hl hps hok
  unfold visitPart at hok
  obtain ⟨st₁, hv, hok⟩ := bind_eq_ok hok
  cases hok
  have hne : st.nextLabelPlaceholders ≠ [] := hps ▸ List.cons_ne_nil p ps
  have hlays := hvisit (h.setLastStatement true) ⟨hs.next_neg, hs.stack⟩ (fun _ => hne) hv
  rw [continuation_of_last (st.setLastStatement true) st₁ rfl hps] at hlays
  have hpart : Lays st (st₁.setLastStatement false) (s.size (signatures modules))
      (s.Left modules) p := hlays.congr rfl le_rfl rfl rfl rfl rfl
  apply hpart.imp
  intro f l k hcode
  unfold StatementList.Left
  exact hcode

mutual

theorem lays_visit (modules : String → Option CalleeModule) :
    (s : Statement) → LaysStatement entry (visit modules s) (s.size (signatures modules))
      (s.Left modules)
  | .assertStatement _ => fun _ _ _ hok => by cases hok
  | .assumeStatement _ => fun _ _ _ hok => by cases hok
  | .assignmentStatement r e => lays_visitAssignmentStatement r e
  | .ifStatement _ thn elseIfs els =>
    lays_visitIf (preserves_visitPart modules thn)
      (preserves_visitElseIfs modules els.isEmpty elseIfs) (preserves_visitPart modules els)
      (lays_visitPart modules thn) StatementList.left_of_isEmpty
      (lays_visitElseIfs modules els.isEmpty elseIfs)
      (ElseIfStatements.left_of_allEmpty elseIfs) (lays_visitPart modules els)
      fun h => ⟨StatementList.size_of_isEmpty h, StatementList.left_of_isEmpty h⟩
  | .invocationStatement callee pre post => lays_visitInvocationStatement modules callee pre post
  | .whileStatement _ body =>
    lays_visitWhile (preserves_visitPart modules body) (lays_visitPart modules body)
      StatementList.left_of_isEmpty
  | .caseStatement .nil _ => fun _ _ _ hok => by cases hok
  | .caseStatement (.cons _ thn elseIfs) els =>
    lays_visitIf (preserves_visitPart modules thn)
      (preserves_visitElseIfs modules els.isEmpty elseIfs) (preserves_visitPart modules els)
      (lays_visitPart modules thn) StatementList.left_of_isEmpty
      (lays_visitElseIfs modules els.isEmpty elseIfs)
      (ElseIfStatements.left_of_allEmpty elseIfs) (lays_visitPart modules els)
      fun h => ⟨StatementList.size_of_isEmpty h, StatementList.left_of_isEmpty h⟩

theorem lays_visitPart (modules : String → Option CalleeModule) :
    (s : StatementList) → LaysPart entry (visitPart modules s) (s.size (signatures modules))
      (s.Left modules)
  | .nil => fun _ _ _ _ hok => by cases hok
  | .cons s .nil => lays_visitPart_last (lays_visit modules s)
  | .cons s (.cons s' rest) => fun h hs hl hps hok => by
    unfold visitPart at hok
    obtain ⟨st₁, hv, hok⟩ := bind_eq_ok hok
    obtain ⟨h₁, hk₁⟩ := preserves_visit modules s h (by simp [hl]) hv
    have hlays := lays_visit modules s h hs (by simp [hl]) hv
    rw [continuation_of_not_last st₁ hl] at hlays
    have hrest := lays_visitPart modules (.cons s' rest) h₁
      (hs.of_fresh hlays.fresh hk₁.placeholders) (hk₁.notLast hl) (hk₁.placeholders.trans hps) hok
    exact (hlays.andThen hrest h.label_nonneg).imp fun f l k hcode => by
      unfold StatementList.Left
      exact hcode

theorem lays_visitElseIfs (modules : String → Option CalleeModule) (elseEmpty : Bool) :
    (elseIfs : ElseIfStatements) → LaysPart entry (visitElseIfs modules elseEmpty elseIfs)
      (elseIfs.size (signatures modules)) (elseIfs.Left modules)
  | .nil => fun _ _ _ _ hok => by
    cases hok
    exact .refl _ _
  | .cons _ part rest =>
    lays_visitElseIfs_cons (preserves_visitPart modules part) (lays_visitPart modules part)
      (lays_visitElseIfs modules elseEmpty rest)

end

theorem lays_visitBody (modules : String → Option CalleeModule) (body : StatementList)
    {st st' : PouCompiler} (h : Sound entry reserved st) (hs : st.Stacked)
    (hl : st.lastStatement = false) (hok : visitBody modules body st = .ok st') :
    Lays st st' (body.size (signatures modules)) (body.Left modules) st'.label := by
  match body with
  | .nil =>
    cases hok
    exact .refl _ _
  | .cons s .nil =>
    unfold visitBody at hok
    obtain ⟨st₁, hv, hok⟩ := bind_eq_ok hok
    cases hok
    have hlays := lays_visit modules s h hs (by simp [hl]) hv
    rw [continuation_of_not_last _ hl] at hlays
    exact hlays.imp fun f l k hcode => by
      unfold StatementList.Left
      exact hcode
  | .cons s (.cons s' rest) =>
    unfold visitBody at hok
    obtain ⟨st₁, hv, hok⟩ := bind_eq_ok hok
    obtain ⟨h₁, hk₁⟩ := preserves_visit modules s h (by simp [hl]) hv
    have hlays := lays_visit modules s h hs (by simp [hl]) hv
    rw [continuation_of_not_last st₁ hl] at hlays
    have hrest := lays_visitBody modules (.cons s' rest) h₁
      (hs.of_fresh hlays.fresh hk₁.placeholders) (hk₁.notLast hl) hok
    exact (hlays.andThen hrest h.label_nonneg).imp fun f l k hcode => by
      unfold StatementList.Left
      exact hcode

theorem Between.stacked {st : PouCompiler} (h : st.Between) (hnext : st.nextLabelPlaceholder < 0) :
    st.skipLabel.Stacked := by
  refine ⟨hnext, ?_⟩
  intro p hp
  have hps : st.skipLabel.nextLabelPlaceholders = [] := h.placeholders
  rw [hps] at hp
  cases hp

end PouCompiler

end Ahorn
