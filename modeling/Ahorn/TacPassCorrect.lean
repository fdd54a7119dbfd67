import Ahorn.Encoder
import Ahorn.TacPass

set_option autoImplicit false

/-!
# The meaning of three-address code

Temporary variables have numbers. What is inserted writes none below the number it starts with, so
an expression that reads no others has the value it had, and operands keep theirs while the
temporary variables of other operands are written.
-/
namespace Ahorn

namespace Instruction

def effect : Instruction → Memory → Memory
  | assignmentInstruction _ r e, m => m.assign r e
  | havocInstruction r, m => m.havoc r
  | callInstruction _ _ _, m | gotoInstruction _, m | ifInstruction _ _ _, m
  | whileInstruction _ _ _, m => m

def branch : Instruction → Memory → Option Bool
  | ifInstruction e _ _, m | whileInstruction e _ _, m => some (m.holds e)
  | assignmentInstruction _ _ _, _ | havocInstruction _, _ | callInstruction _ _ _, _
  | gotoInstruction _, _ => none

/-- Where a call, a branch or a jump leads: the instance that is called, and the labels. -/
def leadsTo : Instruction → Option (Option Variable × ℤ × ℤ)
  | callInstruction called l₁ l₂ => some (some called, l₁, l₂)
  | ifInstruction _ l₁ l₂ | whileInstruction _ l₁ l₂ => some (none, l₁, l₂)
  | gotoInstruction l => some (none, l, l)
  | assignmentInstruction _ _ _ | havocInstruction _ => none

def references : Instruction → List VariableReference
  | assignmentInstruction _ r e => r :: e.references
  | havocInstruction r => [r]
  | ifInstruction e _ _ | whileInstruction e _ _ => e.references
  | callInstruction _ _ _ | gotoInstruction _ => []

end Instruction

/-- The memory behind a list of instructions. Calls are left to the callees. -/
def effects (is : List Instruction) (m : Memory) : Memory := is.foldl (fun m i => i.effect m) m

def branches : List Instruction → Memory → List Bool
  | [], _ => []
  | i :: is, m => (i.branch m).toList ++ branches is (i.effect m)

/-- The calls, branches and jumps in a list of instructions, each with the memory it is executed in. -/
def transfers : List Instruction → Memory → List ((Option Variable × ℤ × ℤ) × Memory)
  | [], _ => []
  | i :: is, m => (i.leadsTo.map (·, m)).toList ++ transfers is (i.effect m)

@[simp] theorem effects_nil (m : Memory) : effects [] m = m := rfl

@[simp] theorem effects_cons (i : Instruction) (is : List Instruction) (m : Memory) :
    effects (i :: is) m = effects is (i.effect m) := rfl

@[simp] theorem effects_append (is js : List Instruction) (m : Memory) :
    effects (is ++ js) m = effects js (effects is m) := List.foldl_append

@[simp] theorem branches_append (is js : List Instruction) (m : Memory) :
    branches (is ++ js) m = branches is m ++ branches js (effects is m) := by
  induction is generalizing m with
  | nil => rfl
  | cons i is ih => simp [branches, ih]

@[simp] theorem transfers_append (is js : List Instruction) (m : Memory) :
    transfers (is ++ js) m = transfers is m ++ transfers js (effects is m) := by
  induction is generalizing m with
  | nil => rfl
  | cons i is ih => simp [transfers, ih]

/-- A name that is no temporary variable from a number on. -/
def Fresh (n : ℕ) (name : String) : Prop := ∀ k, n ≤ k → name ≠ temporaryName k

theorem Fresh.mono {n n' : ℕ} {name : String} (h : Fresh n name) (hle : n ≤ n') : Fresh n' name :=
  fun k hk => h k (hle.trans hk)

theorem temporaryName_injective : Function.Injective temporaryName := by
  intro n k h
  have hl := congrArg String.toList h
  rw [temporaryName, temporaryName, String.toList_append, String.toList_append] at hl
  exact Nat.repr_injective (String.toList_injective (List.append_cancel_left hl))

theorem fresh_temporaryName (n : ℕ) : Fresh (n + 1) (temporaryName n) := by
  intro k hk h
  have := temporaryName_injective h
  omega

/-- The memories differ in temporary variables from a number on at most. -/
structure Memory.Agree (n : ℕ) (m m' : Memory) : Prop where
  valuation : ∀ x, Fresh n x → m'.valuation x = m.valuation x
  havocs : m'.havocs = m.havocs

namespace Memory.Agree

variable {n n' : ℕ} {m m' m'' : Memory}

theorem refl (n : ℕ) (m : Memory) : m.Agree n m := ⟨fun _ _ => rfl, rfl⟩

theorem trans (h : m.Agree n m') (h' : m'.Agree n m'') : m.Agree n m'' where
  valuation := fun x hx => (h'.valuation x hx).trans (h.valuation x hx)
  havocs := h'.havocs.trans h.havocs

theorem mono (h : m.Agree n m') (hle : n' ≤ n) : m.Agree n' m' where
  valuation := fun x hx => h.valuation x (hx.mono hle)
  havocs := h.havocs

end Memory.Agree

theorem Expression.eval_congr {σ σ' : Valuation} (e : Expression)
    (h : ∀ r ∈ e.references, σ r.getName = σ' r.getName) : e.eval σ = e.eval σ' := by
  induction e with
  | booleanConstant _ | integerConstant _ | timeConstant _ | enumeratedValue _
  | nondeterministicConstant _ => rfl
  | reference r => exact h r (List.mem_singleton.mpr rfl)
  | unary op e ih | booleanToInteger e ih | integerToBoolean e ih => rw [eval, eval, ih h]
  | binary op l r ihl ihr =>
    rw [eval, eval, ihl fun q hq => h q (List.mem_append_left _ hq),
      ihr fun q hq => h q (List.mem_append_right _ hq)]
  | change l r ihl ihr => rw [eval, eval, ihr fun q hq => h q (List.mem_append_right _ hq)]

/-- Everything an expression reads is there before a temporary variable of the number. -/
def Expression.ReadsBelow (n : ℕ) (e : Expression) : Prop := ∀ r ∈ e.references, Fresh n r.getName

theorem Expression.ReadsBelow.mono {n n' : ℕ} {e : Expression} (h : e.ReadsBelow n) (hle : n ≤ n') :
    e.ReadsBelow n' := fun r hr => (h r hr).mono hle

theorem Memory.Agree.eval {n : ℕ} {m m' : Memory} (h : m.Agree n m') {e : Expression}
    (he : e.ReadsBelow n) : e.eval m'.valuation = e.eval m.valuation :=
  e.eval_congr fun r hr => h.valuation r.getName (he r hr)

namespace TacPass

/-- What has been inserted in front computes the value of the expression `e` for `e'`. -/
structure Emits (s s' : State) (is : List Instruction) (e e' : Expression) : Prop where
  instructions : s'.instructions = s.instructions ++ is
  value : s.value ≤ s'.value
  reads : e.ReadsBelow s.value → e'.ReadsBelow s'.value
  branches : ∀ m, branches is m = []
  transfers : ∀ m, transfers is m = []
  agree : ∀ m : Memory, m.Agree s.value (effects is m)
  eval : e.ReadsBelow s.value → ∀ m : Memory, e'.eval (effects is m).valuation = e.eval m.valuation

namespace Emits

variable {s s₁ s' : State} {is js : List Instruction} {e e₁ e' l l' r r' : Expression}

theorem refl (s : State) (e : Expression) : Emits s s [] e e where
  instructions := (List.append_nil _).symm
  value := le_rfl
  reads := id
  branches := fun _ => rfl
  transfers := fun _ => rfl
  agree := Memory.Agree.refl _
  eval := fun _ _ => rfl

theorem trans (h : Emits s s₁ is e e₁) (h' : Emits s₁ s' js e₁ e') :
    Emits s s' (is ++ js) e e' where
  instructions := by rw [h'.instructions, h.instructions, List.append_assoc]
  value := h.value.trans h'.value
  reads := fun he => h'.reads (h.reads he)
  branches := fun m => by rw [branches_append, h.branches, h'.branches, List.append_nil]
  transfers := fun m => by rw [transfers_append, h.transfers, h'.transfers, List.append_nil]
  agree := fun m => by
    rw [effects_append]
    exact (h.agree m).trans ((h'.agree _).mono h.value)
  eval := fun he m => by rw [effects_append, h'.eval (h.reads he), h.eval he]

theorem unary (op : UnaryOperator) (h : Emits s s' is e e') :
    Emits s s' is (.unary op e) (.unary op e') where
  instructions := h.instructions
  value := h.value
  reads := h.reads
  branches := h.branches
  transfers := h.transfers
  agree := h.agree
  eval := fun he m => congrArg op.eval (h.eval he m)

theorem binary (op : BinaryOperator) (h : Emits s s₁ is l l') (h' : Emits s₁ s' js r r') :
    Emits s s' (is ++ js) (.binary op l r) (.binary op l' r') where
  instructions := by rw [h'.instructions, h.instructions, List.append_assoc]
  value := h.value.trans h'.value
  reads := by
    intro he q hq
    rcases List.mem_append.mp hq with hq | hq
    · exact (h.reads (fun x hx => he x (List.mem_append_left _ hx)) q hq).mono h'.value
    · exact h'.reads (fun x hx => (he x (List.mem_append_right _ hx)).mono h.value) q hq
  branches := fun m => by rw [branches_append, h.branches, h'.branches, List.append_nil]
  transfers := fun m => by rw [transfers_append, h.transfers, h'.transfers, List.append_nil]
  agree := fun m => by
    rw [effects_append]
    exact (h.agree m).trans ((h'.agree _).mono h.value)
  eval := by
    intro he m
    have hl : l.ReadsBelow s.value := fun x hx => he x (List.mem_append_left _ hx)
    have hr : r.ReadsBelow s.value := fun x hx => he x (List.mem_append_right _ hx)
    have hleft : l'.eval (effects js (effects is m)).valuation = l.eval m.valuation := by
      rw [(h'.agree _).eval (h.reads hl), h.eval hl]
    have hright : r'.eval (effects js (effects is m)).valuation = r.eval m.valuation := by
      rw [h'.eval (hr.mono h.value), (h.agree m).eval hr]
    rw [effects_append]
    exact congrArg₂ op.eval hleft hright

end Emits

theorem temporaryType_ok {e : Expression} (h : e.isOperation = true) :
    ∃ dataType, temporaryType e = .ok dataType := by
  cases e with
  | unary op e => cases op <;> exact ⟨_, rfl⟩
  | binary op l r => cases op <;> exact ⟨_, rfl⟩
  | _ => cases h

theorem introduceTemporaryVariableExpression_emits {e e' : Expression} {s s' : State}
    (h : introduceTemporaryVariableExpression e s = .ok (e', s')) :
    ∃ v : Variable, v.name = temporaryName s.value ∧ e' = .reference (.variableAccess v) ∧
      Emits s s' [.assignmentInstruction .regular (.variableAccess v) e] e e' := by
  obtain ⟨dataType, -, h⟩ := bind_eq_ok h
  cases h
  refine ⟨_, rfl, rfl, ?_⟩
  exact {
    instructions := rfl
    value := Nat.le_succ _
    reads := by
      intro _ r hr
      obtain rfl := List.mem_singleton.mp hr
      exact fresh_temporaryName s.value
    branches := fun _ => rfl
    transfers := fun _ => rfl
    agree := fun m => by
      constructor
      · intro x hx
        exact Function.update_of_ne (hx s.value le_rfl) _ _
      · rfl
    eval := fun _ m => Function.update_self (temporaryName s.value) _ _ }

theorem substitute_emits {e e' : Expression} {s s' : State} (h : substitute e s = .ok (e', s')) :
    ∃ is, Emits s s' is e e' := by
  unfold substitute at h
  split_ifs at h
  · obtain ⟨v, -, -, hemits⟩ := introduceTemporaryVariableExpression_emits h
    exact ⟨_, hemits⟩
  · cases h
    exact ⟨[], .refl _ _⟩

theorem encode_eq_self {e e' : Expression} {s s' : State} (h : encode e s = .ok (e', s'))
    (he' : e'.isOperation = false) : e' = e ∧ s' = s := by
  cases e with
  | booleanConstant _ | integerConstant _ | enumeratedValue _ | reference _ =>
    cases h
    exact ⟨rfl, rfl⟩
  | timeConstant _ | nondeterministicConstant _ | change _ _ | booleanToInteger _
  | integerToBoolean _ => cases h
  | unary op e =>
    obtain ⟨⟨encoded, s₁⟩, -, h⟩ := bind_eq_ok h
    dsimp only at h
    split_ifs at h
    · obtain ⟨⟨temporary, s₂⟩, -, h⟩ := bind_eq_ok h
      cases h
      cases he'
    · cases h
      cases he'
  | binary op l r =>
    obtain ⟨⟨left, s₁⟩, -, h⟩ := bind_eq_ok h
    obtain ⟨⟨left', s₂⟩, -, h⟩ := bind_eq_ok h
    obtain ⟨⟨right, s₃⟩, -, h⟩ := bind_eq_ok h
    obtain ⟨⟨right', s₄⟩, -, h⟩ := bind_eq_ok h
    dsimp only at h
    split_ifs at h <;> cases h <;> cases he'

theorem substitute_eq_self {e e' : Expression} {s s' : State} (h : substitute e s = .ok (e', s'))
    (he : e.isOperation = false) : e' = e ∧ s' = s := by
  rw [substitute, he] at h
  cases h
  exact ⟨rfl, rfl⟩

theorem encode_unary {op : UnaryOperator} {e e' : Expression} {s s' : State}
    (h : encode (.unary op e) s = .ok (e', s')) :
    ∃ encoded s₁ operand, encode e s = .ok (encoded, s₁) ∧ e' = .unary op operand ∧
      ((encoded.isBinary = true ∧
          introduceTemporaryVariableExpression encoded s₁ = .ok (operand, s')) ∨
        (encoded.isBinary = false ∧ operand = encoded ∧ s' = s₁)) := by
  obtain ⟨⟨encoded, s₁⟩, henc, h⟩ := bind_eq_ok h
  dsimp only at h
  split_ifs at h with hbinary
  · obtain ⟨⟨temporary, s₂⟩, htemp, h⟩ := bind_eq_ok h
    cases h
    exact ⟨encoded, s₁, temporary, henc, rfl, Or.inl ⟨hbinary, htemp⟩⟩
  · cases h
    exact ⟨encoded, s', encoded, henc, rfl, Or.inr ⟨Bool.eq_false_iff.mpr hbinary, rfl, rfl⟩⟩

theorem encode_binary {op : BinaryOperator} {l r e' : Expression} {s s' : State}
    (h : encode (.binary op l r) s = .ok (e', s')) :
    ∃ left s₁ left' s₂ right s₃ right', encode l s = .ok (left, s₁) ∧
      substitute left s₁ = .ok (left', s₂) ∧ encode r s₂ = .ok (right, s₃) ∧
      substitute right s₃ = .ok (right', s') ∧ e' = .binary op left' right' := by
  obtain ⟨⟨left, s₁⟩, hleft, h⟩ := bind_eq_ok h
  obtain ⟨⟨left', s₂⟩, hleft', h⟩ := bind_eq_ok h
  obtain ⟨⟨right, s₃⟩, hright, h⟩ := bind_eq_ok h
  obtain ⟨⟨right', s₄⟩, hright', h⟩ := bind_eq_ok h
  dsimp only at hleft hleft' hright hright' h
  split_ifs at h with hoperation
  · cases h
    exact ⟨left, s₁, left', s₂, right, s₃, right', hleft, hleft', hright, hright', rfl⟩
  · cases h
    simp only [Bool.or_eq_true, not_or, Bool.not_eq_true] at hoperation
    obtain ⟨hl, hr⟩ := hoperation
    refine ⟨left, s₁, left', s₂, right, s₃, right', hleft, hleft', hright, hright', ?_⟩
    rw [(substitute_eq_self hleft' hl).1, (substitute_eq_self hright' hr).1,
      (encode_eq_self hleft hl).1, (encode_eq_self hright hr).1]

theorem encode_emits {e e' : Expression} {s s' : State} (h : encode e s = .ok (e', s')) :
    ∃ is, Emits s s' is e e' := by
  induction e generalizing s e' s' with
  | booleanConstant _ | integerConstant _ | enumeratedValue _ | reference _ =>
    cases h
    exact ⟨[], .refl _ _⟩
  | timeConstant _ | nondeterministicConstant _ | change _ _ | booleanToInteger _
  | integerToBoolean _ => cases h
  | unary op e ih =>
    obtain ⟨encoded, s₁, operand, henc, rfl, ⟨-, htemp⟩ | ⟨-, rfl, rfl⟩⟩ := encode_unary h
    · obtain ⟨is, hemits⟩ := ih henc
      obtain ⟨v, -, -, htemp⟩ := introduceTemporaryVariableExpression_emits htemp
      exact ⟨_, (hemits.trans htemp).unary op⟩
    · obtain ⟨is, hemits⟩ := ih henc
      exact ⟨is, hemits.unary op⟩
  | binary op l r ihl ihr =>
    obtain ⟨left, s₁, left', s₂, right, s₃, right', hleft, hleft', hright, hright', rfl⟩ :=
      encode_binary h
    obtain ⟨is, hl⟩ := ihl hleft
    obtain ⟨is', hl'⟩ := substitute_emits hleft'
    obtain ⟨js, hr⟩ := ihr hright
    obtain ⟨js', hr'⟩ := substitute_emits hright'
    exact ⟨_, (hl.trans hl').binary op (hr.trans hr')⟩

/-- The one list of instructions does to the variables of the program what the other does, takes the
same branches, and comes to the same calls and jumps with the same values of these variables. -/
structure Replaces (is js : List Instruction) : Prop where
  agree : ∀ m m' : Memory, m.Agree 0 m' → (effects is m).Agree 0 (effects js m')
  branches : ∀ m m' : Memory, m.Agree 0 m' → branches js m' = branches is m
  transfers : ∀ m m' : Memory, m.Agree 0 m' →
    List.Forall₂ (fun t t' => t'.1 = t.1 ∧ t.2.Agree 0 t'.2) (transfers is m) (transfers js m')

theorem Replaces.nil : Replaces [] [] := ⟨fun _ _ h => h, fun _ _ _ => rfl, fun _ _ _ => .nil⟩

theorem Replaces.append {is is' js js' : List Instruction} (h : Replaces is js)
    (h' : Replaces is' js') : Replaces (is ++ is') (js ++ js') where
  agree m m' hm := by
    rw [effects_append, effects_append]
    exact h'.agree _ _ (h.agree m m' hm)
  branches m m' hm := by
    rw [branches_append, branches_append, h.branches m m' hm, h'.branches _ _ (h.agree m m' hm)]
  transfers m m' hm := by
    rw [transfers_append, transfers_append]
    exact List.rel_append (h.transfers m m' hm) (h'.transfers _ _ (h.agree m m' hm))

theorem Replaces.of_emits {s s' : State} {is : List Instruction} {e e' : Expression}
    (hemits : Emits s s' is e e') {i i' : Instruction} (hleads : i'.leadsTo = i.leadsTo)
    (heffect : ∀ m m' : Memory, m.Agree 0 m' → (i.effect m).Agree 0 (i'.effect (effects is m')))
    (hbranch : ∀ m m' : Memory, m.Agree 0 m' → i'.branch (effects is m') = i.branch m) :
    Replaces [i] (is ++ [i']) where
  agree m m' hm := by
    rw [effects_append]
    exact heffect m m' hm
  branches m m' hm := by
    rw [branches_append, hemits.branches]
    simp only [Ahorn.branches, hbranch m m' hm, List.nil_append]
  transfers m m' hm := by
    have hagree : m.Agree 0 (effects is m') := hm.trans ((hemits.agree m').mono (Nat.zero_le _))
    rw [transfers_append, hemits.transfers]
    simp only [Ahorn.transfers, hleads, List.nil_append, List.append_nil]
    cases i.leadsTo with
    | none => exact .nil
    | some t => exact .cons ⟨rfl, hagree⟩ .nil

theorem agree_update {n : ℕ} {m m' : Memory} (h : m.Agree n m') (x : String) (v : Value)
    (havocs : ℕ → Value) : Memory.Agree n ⟨Function.update m.valuation x v, havocs⟩
      ⟨Function.update m'.valuation x v, havocs⟩ where
  valuation := by
    intro y hy
    by_cases hxy : y = x
    · subst hxy
      simp only [Function.update_self]
    · simp only [Function.update_of_ne hxy, h.valuation y hy]
  havocs := rfl

theorem visit_replaces {i : Instruction} {s s' : State} (h : visit i s = .ok s')
    (hi : ∀ r ∈ i.references, Fresh 0 r.getName) :
    ∃ is, s'.instructions = s.instructions ++ is ∧ Replaces [i] is := by
  cases i with
  | whileInstruction _ _ _ | gotoInstruction _ => cases h
  | callInstruction _ _ _ =>
    cases h
    exact ⟨_, rfl, .of_emits (.refl s (.booleanConstant true)) rfl (fun _ _ hm => hm)
      fun _ _ _ => rfl⟩
  | havocInstruction r =>
    cases h
    refine ⟨_, rfl, .of_emits (.refl s (.booleanConstant true)) rfl (fun m m' hm => ?_)
      fun _ _ _ => rfl⟩
    have hhavocs : m'.havocs = m.havocs := hm.havocs
    simp only [effects_nil, Instruction.effect, Memory.havoc, hhavocs]
    exact agree_update hm _ _ _
  | assignmentInstruction type r e =>
    obtain ⟨⟨encoded, s₁⟩, henc, h⟩ := bind_eq_ok h
    cases h
    obtain ⟨is, hemits⟩ := encode_emits henc
    have he : e.ReadsBelow 0 := fun q hq => hi q (List.mem_cons_of_mem _ hq)
    refine ⟨is ++ [.assignmentInstruction type r encoded], ?_,
      .of_emits hemits rfl (fun m m' hm => ?_) fun _ _ _ => rfl⟩
    · change s₁.instructions ++ _ = _
      rw [hemits.instructions, List.append_assoc]
    · have hagree : m.Agree 0 (effects is m') := hm.trans ((hemits.agree m').mono (Nat.zero_le _))
      have heval : encoded.eval (effects is m').valuation = e.eval m.valuation := by
        rw [hemits.eval (he.mono (Nat.zero_le _)), hm.eval he]
      simp only [Instruction.effect, Memory.assign, heval, hagree.havocs]
      exact agree_update hagree _ _ _
  | ifInstruction e gotoThen gotoElse =>
    obtain ⟨⟨encoded, s₁⟩, henc, h⟩ := bind_eq_ok h
    obtain ⟨⟨condition, s₂⟩, hcondition, h⟩ := bind_eq_ok h
    cases h
    obtain ⟨is, hemits⟩ := encode_emits henc
    obtain ⟨js, hemits'⟩ := substitute_emits hcondition
    have hall := hemits.trans hemits'
    refine ⟨is ++ js ++ [.ifInstruction condition gotoThen gotoElse], ?_,
      .of_emits hall rfl (fun m m' hm => ?_) fun m m' hm => ?_⟩
    · change s₂.instructions ++ _ = _
      rw [hall.instructions, List.append_assoc]
    · exact hm.trans ((hall.agree m').mono (Nat.zero_le _))
    · have he : e.ReadsBelow 0 := hi
      have heval : condition.eval (effects (is ++ js) m').valuation = e.eval m.valuation := by
        rw [hall.eval (he.mono (Nat.zero_le _)), hm.eval he]
      simp only [Instruction.branch, Memory.holds, heval]

theorem visitAll_replaces {is : List Instruction} {s s' : State}
    (h : is.foldlM (fun s i => visit i s) s = .ok s')
    (his : ∀ i ∈ is, ∀ r ∈ i.references, Fresh 0 r.getName) :
    ∃ js, s'.instructions = s.instructions ++ js ∧ Replaces is js := by
  induction is generalizing s with
  | nil =>
    cases h
    exact ⟨[], (List.append_nil _).symm, .nil⟩
  | cons i is ih =>
    obtain ⟨s₁, hi, h⟩ := bind_eq_ok h
    obtain ⟨js, hjs, hreplaces⟩ := visit_replaces hi (his i List.mem_cons_self)
    obtain ⟨js', hjs', hreplaces'⟩ := ih h fun i hi => his i (List.mem_cons_of_mem _ hi)
    refine ⟨js ++ js', ?_, hreplaces.append hreplaces'⟩
    rw [hjs', hjs, List.append_assoc]

theorem visitBlock_eq (b : BlockInstruction) (s : State) :
    visitBlock b s = b.instructions.foldlM (fun s i => visit i s) s := by
  cases b with
  | instruction i =>
    change visit i s = (visit i s >>= fun s => .ok s)
    cases visit i s <;> rfl
  | sequenceInstruction is => rfl

end TacPass

def Expression.isSupported : Expression → Bool
  | booleanConstant _ | integerConstant _ | enumeratedValue _ | reference _ => true
  | unary _ e => e.isSupported
  | binary _ l r => l.isSupported && r.isSupported
  | timeConstant _ | nondeterministicConstant _ | change _ _ | booleanToInteger _
  | integerToBoolean _ => false

def Instruction.isSupported : Instruction → Bool
  | assignmentInstruction _ _ e | ifInstruction e _ _ => e.isSupported
  | callInstruction _ _ _ | havocInstruction _ => true
  | whileInstruction _ _ _ | gotoInstruction _ => false

/-- The entry and the exit do nothing, and every other vertex is a block of instructions of the forms
the pass takes. -/
structure BlockUnit.Supported (cfg : BlockUnit) : Prop where
  label : ∀ e ∈ cfg.labelToVertex.entries, e.2.label = e.1
  ends : ∀ e ∈ cfg.labelToVertex.entries, (e.1 = cfg.entryLabel ∨ e.1 = cfg.exitLabel) →
    e.2.type ≠ .regular ∧ e.2.instruction = none
  regular : ∀ e ∈ cfg.labelToVertex.entries, ¬(e.1 = cfg.entryLabel ∨ e.1 = cfg.exitLabel) →
    e.2.type = .regular ∧ e.2.instructions ≠ [] ∧ ∀ i ∈ e.2.instructions, i.isSupported = true

/-- No variable of the program is called like a temporary variable. -/
def BlockUnit.NoTemporaries (cfg : BlockUnit) : Prop :=
  ∀ e ∈ cfg.labelToVertex.entries, ∀ i ∈ e.2.instructions, ∀ x : Variable,
    .variableAccess x ∈ i.references → ∀ n, x.name ≠ temporaryName n

namespace TacPass

theorem introduceTemporaryVariableExpression_ok {e : Expression} (h : e.isOperation = true)
    (s : State) : ∃ r, introduceTemporaryVariableExpression e s = .ok r := by
  obtain ⟨dataType, htype⟩ := temporaryType_ok h
  exact ⟨_, by unfold introduceTemporaryVariableExpression; rw [htype]; rfl⟩

theorem substitute_ok (e : Expression) (s : State) : ∃ r, substitute e s = .ok r := by
  unfold substitute
  split_ifs with h
  · exact introduceTemporaryVariableExpression_ok h s
  · exact ⟨_, rfl⟩

theorem encode_ok {e : Expression} (h : e.isSupported = true) (s : State) :
    ∃ r, encode e s = .ok r := by
  induction e generalizing s with
  | booleanConstant _ | integerConstant _ | enumeratedValue _ | reference _ => exact ⟨_, rfl⟩
  | timeConstant _ | nondeterministicConstant _ | change _ _ | booleanToInteger _
  | integerToBoolean _ => cases h
  | unary op e ih =>
    refine exists_bind_ok (ih h s) ?_
    rintro ⟨encoded, s₁⟩ -
    dsimp only
    split_ifs with hbinary
    · have hoperation : encoded.isOperation = true := by
        unfold Expression.isOperation
        rw [hbinary, Bool.true_or]
      exact exists_bind_ok (introduceTemporaryVariableExpression_ok hoperation s₁)
        fun _ _ => ⟨_, rfl⟩
    · exact ⟨_, rfl⟩
  | binary op l r ihl ihr =>
    obtain ⟨hl, hr⟩ := Bool.and_eq_true_iff.mp h
    refine exists_bind_ok (ihl hl s) fun a _ => exists_bind_ok (substitute_ok _ _) fun b _ =>
      exists_bind_ok (ihr hr _) fun c _ => exists_bind_ok (substitute_ok _ _) fun d _ => ?_
    dsimp only
    split_ifs <;> exact ⟨_, rfl⟩

theorem visit_ok {i : Instruction} (h : i.isSupported = true) (s : State) :
    ∃ s', visit i s = .ok s' ∧ s'.instructions ≠ [] := by
  cases i with
  | whileInstruction _ _ _ | gotoInstruction _ => cases h
  | callInstruction _ _ _ | havocInstruction _ => exact ⟨_, rfl, by simp [State.insertInstruction]⟩
  | assignmentInstruction type r e =>
    obtain ⟨⟨encoded, s₁⟩, henc⟩ := encode_ok h s
    refine ⟨s₁.insertInstruction (.assignmentInstruction type r encoded), ?_, ?_⟩
    · unfold visit
      simp only [henc, bind, Except.bind]
    · simp [State.insertInstruction]
  | ifInstruction e gotoThen gotoElse =>
    obtain ⟨⟨encoded, s₁⟩, henc⟩ := encode_ok h s
    obtain ⟨⟨condition, s₂⟩, hcondition⟩ := substitute_ok encoded s₁
    refine ⟨s₂.insertInstruction (.ifInstruction condition gotoThen gotoElse), ?_, ?_⟩
    · unfold visit
      simp only [henc, hcondition, bind, Except.bind]
    · simp [State.insertInstruction]

theorem visitAll_ok {is : List Instruction} (his : ∀ i ∈ is, i.isSupported = true) (hne : is ≠ [])
    (s : State) : ∃ s', is.foldlM (fun s i => visit i s) s = .ok s' ∧ s'.instructions ≠ [] := by
  induction is generalizing s with
  | nil => exact absurd rfl hne
  | cons i is ih =>
    obtain ⟨s₁, hi, hs₁⟩ := visit_ok (his i List.mem_cons_self) s
    rw [List.foldlM_cons, hi]
    cases is with
    | nil => exact ⟨s₁, rfl, hs₁⟩
    | cons j js =>
      exact ih (fun i hi => his i (List.mem_cons_of_mem _ hi)) (List.cons_ne_nil _ _) s₁

theorem makeVertex_eq {v v' : BlockVertex} {is : List Instruction}
    (h : makeVertex v is = .ok v') :
    v'.label = v.label ∧ v'.type = v.type ∧ v'.instructions = is := by
  unfold makeVertex at h
  split at h <;> cases h <;> exact ⟨rfl, rfl, rfl⟩

theorem makeVertex_ok (v : BlockVertex) {is : List Instruction} (h : is ≠ []) :
    ∃ v', makeVertex v is = .ok v' := by
  unfold makeVertex
  split
  · exact absurd rfl h
  · exact ⟨_, rfl⟩
  · exact ⟨_, rfl⟩

/-- What the pass makes of the instructions of a vertex, from a state that has none at its label. -/
def VisitsTo (v : BlockVertex) (js : List Instruction) : Prop :=
  ∃ s s', s.instructions = [] ∧ v.instructions.foldlM (fun s i => visit i s) s = .ok s' ∧
    s'.instructions = js

theorem instructions_of_some {v : BlockVertex} {b : BlockInstruction}
    (h : v.instruction = some b) : v.instructions = b.instructions := by
  unfold BlockVertex.instructions
  rw [h]
  cases b <;> rfl

/-- The vertex in the place of one. -/
structure MakesVertex (v v' : BlockVertex) : Prop where
  label : v'.label = v.label
  type : v'.type = v.type
  visits : VisitsTo v v'.instructions

variable {cfg : BlockUnit}

theorem visitVertex_makes (hcfg : cfg.Supported) {l : ℤ} {v : BlockVertex}
    (hv : (l, v) ∈ cfg.labelToVertex.entries) (s : State) :
    ∃ v' s', visitVertex cfg v s = .ok (v', s') ∧ MakesVertex v v' := by
  have hlabel : v.label = l := hcfg.label _ hv
  unfold visitVertex
  by_cases hend : l = cfg.entryLabel ∨ l = cfg.exitLabel
  · obtain ⟨htype, hnone⟩ := hcfg.ends _ hv hend
    have hvisit : visitInstruction v { s with instructions := [] } =
        .ok { s with instructions := [] } := by
      unfold visitInstruction
      rw [hnone]
      cases hv : v.type <;> first | rfl | exact absurd hv htype
    have hempty : v.instructions = [] := by
      unfold BlockVertex.instructions
      rw [hnone]
    rw [hvisit]
    refine ⟨_, _, if_pos (by rwa [hlabel]), rfl, rfl, { s with instructions := [] },
      { s with instructions := [] }, rfl, ?_, rfl⟩
    rw [hempty]
    rfl
  · obtain ⟨htype, hne, his⟩ := hcfg.regular _ hv hend
    cases hb : v.instruction with
    | none =>
      refine absurd ?_ hne
      unfold BlockVertex.instructions
      rw [hb]
    | some b =>
      obtain ⟨s', hs', hne'⟩ := visitAll_ok his hne { s with instructions := [] }
      have hvisit : visitInstruction v { s with instructions := [] } = .ok s' := by
        unfold visitInstruction
        rw [htype, hb, ← hs', instructions_of_some hb]
        exact visitBlock_eq b _
      obtain ⟨v', hv'⟩ := makeVertex_ok v hne'
      obtain ⟨hlabel', htype', hinstructions⟩ := makeVertex_eq hv'
      rw [hvisit]
      refine ⟨v', s', ?_, hlabel', htype', _, s', rfl, hs', hinstructions.symm⟩
      change (if v.label = cfg.entryLabel ∨ v.label = cfg.exitLabel then _ else _) = _
      rw [if_neg (by rwa [hlabel]), hv']
      rfl

theorem visitVertices_makes (hcfg : cfg.Supported) {es : List (ℤ × BlockVertex)}
    (hes : es ⊆ cfg.labelToVertex.entries) (s : State) :
    ∃ vs' s', visitVertices cfg (es.map Prod.snd) s = .ok (vs', s') ∧
      List.Forall₂ (fun e e' => e'.1 = e.1 ∧ MakesVertex e.2 e'.2) es
        (vs'.map fun v => (v.label, v)) := by
  induction es generalizing s with
  | nil => exact ⟨[], s, rfl, .nil⟩
  | cons e es ih =>
    have he := hes List.mem_cons_self
    obtain ⟨v', s₁, hv', hmakes⟩ := visitVertex_makes hcfg he s
    obtain ⟨vs', s', hvs', hall⟩ := ih (fun e he => hes (List.mem_cons_of_mem _ he)) s₁
    refine ⟨v' :: vs', s', ?_, .cons ⟨hmakes.label.trans (hcfg.label _ he), hmakes⟩ hall⟩
    rw [List.map_cons, visitVertices, hv']
    simp only [bind, Except.bind, hvs']

/-- What the pass makes of a unit. -/
structure Transforms (cfg cfg' : BlockUnit) : Prop where
  entry : cfg'.entryLabel = cfg.entryLabel
  exit : cfg'.exitLabel = cfg.exitLabel
  edges : cfg'.edges = cfg.edges.map copyEdge
  vertex : ∀ l, Option.Rel MakesVertex (cfg.labelToVertex.find? l) (cfg'.labelToVertex.find? l)

theorem transform_ok (hcfg : cfg.Supported) (value : ℕ) :
    ∃ cfg' value', transform cfg value = .ok (cfg', value') ∧ Transforms cfg cfg' := by
  obtain ⟨vs', s', hvs', hall⟩ := visitVertices_makes hcfg (List.Subset.refl _) ⟨value, [], []⟩
  refine ⟨makeUnit cfg vs' s'.temporaryVariables, s'.value, ?_, rfl, rfl, rfl, fun l => ?_⟩
  · unfold transform
    rw [hvs']
    rfl
  · have hfind : (makeUnit cfg vs' s'.temporaryVariables).labelToVertex.find? l =
        OrderedMap.lookup l (vs'.map fun v => (v.label, v)) := by
      change (OrderedMap.empty.emplaceAll _).find? l = _
      rw [OrderedMap.find?_emplaceAll, OrderedMap.find?_empty, Option.none_or]
    rw [hfind]
    exact OrderedMap.lookup_rel hall l

theorem dot_notMem_temporaryName (n : ℕ) : '.' ∉ (temporaryName n).toList := by
  intro hmem
  rw [temporaryName, String.toList_append] at hmem
  rcases List.mem_append.mp hmem with hmem | hmem
  · revert hmem
    decide
  · have hdigits : '.' ∈ Nat.toDigits 10 n := by
      change '.' ∈ n.repr.toList at hmem
      rwa [Nat.toList_repr] at hmem
    cases Nat.isDigit_of_mem_toDigits (by omega) (by omega) hdigits

theorem fresh_getName {r : VariableReference}
    (h : ∀ x : Variable, r = .variableAccess x → ∀ n, x.name ≠ temporaryName n) :
    Fresh 0 r.getName := by
  intro n _
  cases r with
  | variableAccess x => exact h x rfl n
  | fieldAccess x r =>
    intro hname
    apply dot_notMem_temporaryName n
    rw [← hname, VariableReference.getName]
    simp

/-- The same edges, and vertex for vertex the same effect on the variables of the program and the
same branches. -/
structure Preserves (cfg cfg' : BlockUnit) : Prop where
  entry : cfg'.entryLabel = cfg.entryLabel
  exit : cfg'.exitLabel = cfg.exitLabel
  edges : cfg'.edges.map (fun e => (e.sourceLabel, e.targetLabel, e.type)) =
    cfg.edges.map fun e => (e.sourceLabel, e.targetLabel, e.type)
  vertex : ∀ l, Option.Rel (fun v v' => v'.type = v.type ∧ Replaces v.instructions v'.instructions)
    (cfg.labelToVertex.find? l) (cfg'.labelToVertex.find? l)

theorem copyEdge_eq (e : Edge) : (copyEdge e).sourceLabel = e.sourceLabel ∧
    (copyEdge e).targetLabel = e.targetLabel ∧ (copyEdge e).type = e.type := by
  unfold copyEdge
  split
  · next h => exact ⟨rfl, rfl, h.symm⟩
  · exact ⟨rfl, rfl, rfl⟩

theorem MakesVertex.replaces {v v' : BlockVertex} (h : MakesVertex v v')
    (hv : ∀ i ∈ v.instructions, ∀ r ∈ i.references, Fresh 0 r.getName) :
    Replaces v.instructions v'.instructions := by
  obtain ⟨s, s', hs, hvisits, hjs⟩ := h.visits
  obtain ⟨js, hs', hreplaces⟩ := visitAll_replaces hvisits hv
  rw [← hjs, hs', hs]
  exact hreplaces

theorem Transforms.preserves {cfg' : BlockUnit} (h : Transforms cfg cfg')
    (hnames : cfg.NoTemporaries) : Preserves cfg cfg' where
  entry := h.entry
  exit := h.exit
  edges := by
    rw [h.edges, List.map_map]
    apply List.map_congr_left
    intro e _
    obtain ⟨hsource, htarget, htype⟩ := copyEdge_eq e
    simp only [Function.comp, hsource, htarget, htype]
  vertex := by
    intro l
    refine OrderedMap.option_rel_imp (h.vertex l) fun v v' hv _ hmakes => ⟨hmakes.type, ?_⟩
    have hmem := (OrderedMap.find?_eq_some_iff _ _ _).mp hv
    exact hmakes.replaces fun i hi r hr =>
      fresh_getName fun x hx => hnames _ hmem i hi x (hx ▸ hr)

theorem apply_ok {t : CallTree BlockUnit} (h : ∀ u ∈ t.units, u.graph.Supported) (value : ℕ) :
    ∃ t', apply t value = .ok t' ∧ ∀ {R : BlockUnit → BlockUnit → Prop},
      (∀ u ∈ t.units, ∀ cfg', Transforms u.graph cfg' → R u.graph cfg') → t.Rel R t' := by
  obtain ⟨⟨t', value'⟩, hok⟩ := t.apply_ok (f := transform) value fun u hu value => by
    obtain ⟨cfg', value', hcfg', -⟩ := transform_ok (h u hu) value
    exact ⟨_, hcfg'⟩
  refine ⟨t', by unfold apply; rw [hok]; rfl, ?_⟩
  intro R hR
  refine t.apply_rel value t' value' hok ?_
  rintro u hu cfg' ⟨s, s', hmakes⟩
  obtain ⟨cfg'', value'', hcfg'', htransforms⟩ := transform_ok (h u hu) s
  rw [hcfg''] at hmakes
  cases hmakes
  exact hR u hu _ htransforms

/-- Where no variable of the program is called like a temporary variable, the pass preserves what
blocks do and the branches that are taken. -/
theorem apply_preserves (t : CallTree BlockUnit) (value : ℕ)
    (hsupported : ∀ u ∈ t.units, u.graph.Supported)
    (hnames : ∀ u ∈ t.units, u.graph.NoTemporaries) :
    ∃ t', apply t value = .ok t' ∧ t.Rel Preserves t' := by
  obtain ⟨t', hok, hrel⟩ := apply_ok hsupported value
  exact ⟨t', hok, hrel fun u hu cfg' h => h.preserves (hnames u hu)⟩

section Nested

def x : Variable := ⟨"x", .int, .local, none⟩

def y : Variable := ⟨"y", .int, .local, none⟩

def read (v : Variable) : Expression := .reference (.variableAccess v)

/-- `x := -(y + 1) * (x - y); IF NOT (x > y) THEN x := y; END_IF;` -/
def nested : BlockUnit where
  labelToVertex := ⟨[
    (0, { label := 0, type := .entry }),
    (1, { label := 1, instruction := some (.sequenceInstruction [
      .assignmentInstruction .regular (.variableAccess x)
        (.binary .multiply (.unary .negation (.binary .add (read y) (.integerConstant 1)))
          (.binary .subtract (read x) (read y))),
      .ifInstruction (.unary .complement (.binary .greaterThan (read x) (read y))) 2 3]) }),
    (2, { label := 2, instruction := some (.instruction
      (.assignmentInstruction .regular (.variableAccess x) (read y))) }),
    (3, { label := 3, type := .exit })], by decide⟩
  edges := [{ sourceLabel := 0, targetLabel := 1 },
    { sourceLabel := 1, targetLabel := 2, type := .trueBranch },
    { sourceLabel := 1, targetLabel := 3, type := .falseBranch },
    { sourceLabel := 2, targetLabel := 3 }]
  entryLabel := 0
  exitLabel := 3
  interface := VariableMap.empty.emplaceAll [x, y]

theorem nested_supported : nested.Supported := ⟨by decide, by decide, by decide⟩

theorem ne_temporaryName {name : String} (h : name.toList.head? ≠ some 't') (n : ℕ) :
    name ≠ temporaryName n := by
  rintro rfl
  apply h
  rw [temporaryName, String.toList_append]
  rfl

theorem nested_noTemporaries : nested.NoTemporaries := by
  intro e he i hi z hz n
  apply ne_temporaryName
  have hnames : ∀ e ∈ nested.labelToVertex.entries, ∀ i ∈ e.2.instructions, ∀ r ∈ i.references,
      r.getName.toList.head? ≠ some 't' := by
    decide
  exact hnames e he i hi _ hz

theorem nested_preserved : ∃ t', apply (.node "P" nested .nil) 0 = .ok t' ∧
    (CallTree.node "P" nested .nil).Rel Preserves t' := by
  apply apply_preserves
  · intro u hu
    obtain rfl := List.mem_singleton.mp hu
    exact nested_supported
  · intro u hu
    obtain rfl := List.mem_singleton.mp hu
    exact nested_noTemporaries

end Nested

end TacPass

end Ahorn
