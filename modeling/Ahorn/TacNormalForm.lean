import Ahorn.TacPassCorrect

set_option autoImplicit false

/-!
# The normal form of three-address code

Operands of binary expressions become atomic, whatever they are. The operand of a unary expression
stays where it is, unless it is a binary expression: only what has no unary expression right below
another one comes into the normal form.
-/
namespace Ahorn

namespace Expression

def isAtomic : Expression → Bool
  | booleanConstant _ | integerConstant _ | timeConstant _ | enumeratedValue _
  | nondeterministicConstant _ | reference _ => true
  | unary _ _ | binary _ _ _ | change _ _ | booleanToInteger _ | integerToBoolean _ => false

/-- One operator at most, and its operands are atomic. -/
def isThreeAddress : Expression → Bool
  | unary _ e => e.isAtomic
  | binary _ l r => l.isAtomic && r.isAtomic
  | e => e.isAtomic

/-- Somewhere the operand of a unary expression is a unary expression. -/
def nestsUnary : Expression → Bool
  | unary _ e => e.isUnary || e.nestsUnary
  | binary _ l r => l.nestsUnary || r.nestsUnary
  | _ => false

end Expression

namespace Instruction

def isThreeAddress : Instruction → Bool
  | assignmentInstruction _ _ e => e.isThreeAddress
  | ifInstruction e _ _ | whileInstruction e _ _ => e.isAtomic
  | callInstruction _ _ _ | gotoInstruction _ | havocInstruction _ => true

def nestsUnary : Instruction → Bool
  | assignmentInstruction _ _ e | ifInstruction e _ _ | whileInstruction e _ _ => e.nestsUnary
  | callInstruction _ _ _ | gotoInstruction _ | havocInstruction _ => false

end Instruction

def BlockUnit.IsThreeAddress (cfg : BlockUnit) : Prop :=
  ∀ e ∈ cfg.labelToVertex.entries, ∀ i ∈ e.2.instructions, i.isThreeAddress = true

def BlockUnit.NestsNoUnary (cfg : BlockUnit) : Prop :=
  ∀ e ∈ cfg.labelToVertex.entries, ∀ i ∈ e.2.instructions, i.nestsUnary = false

namespace TacPass

theorem encode_kind {e e' : Expression} {s s' : State} (h : encode e s = .ok (e', s')) :
    e'.isUnary = e.isUnary ∧ e'.isBinary = e.isBinary := by
  cases e with
  | booleanConstant _ | integerConstant _ | enumeratedValue _ | reference _ =>
    cases h
    exact ⟨rfl, rfl⟩
  | timeConstant _ | nondeterministicConstant _ | change _ _ | booleanToInteger _
  | integerToBoolean _ => cases h
  | unary op e =>
    obtain ⟨encoded, s₁, operand, -, rfl, -⟩ := encode_unary h
    exact ⟨rfl, rfl⟩
  | binary op l r =>
    obtain ⟨left, s₁, left', s₂, right, s₃, right', -, -, -, -, rfl⟩ := encode_binary h
    exact ⟨rfl, rfl⟩

theorem encode_isAtomic {e e' : Expression} {s s' : State} (h : encode e s = .ok (e', s'))
    (he' : e'.isOperation = false) : e'.isAtomic = true := by
  obtain ⟨rfl, -⟩ := encode_eq_self h he'
  cases e' with
  | booleanConstant _ | integerConstant _ | enumeratedValue _ | reference _ => rfl
  | timeConstant _ | nondeterministicConstant _ | change _ _ | booleanToInteger _
  | integerToBoolean _ => cases h
  | unary _ _ | binary _ _ _ => cases he'

theorem isThreeAddress_of_isAtomic {e : Expression} (h : e.isAtomic = true) :
    e.isThreeAddress = true := by
  cases e <;> first | rfl | cases h

/-- Whether everything at the label is in the normal form. -/
def State.isThreeAddress (s : State) : Bool := s.instructions.all (·.isThreeAddress)

theorem State.isThreeAddress_insertInstruction (i : Instruction) (s : State) :
    (s.insertInstruction i).isThreeAddress = (s.isThreeAddress && i.isThreeAddress) := by
  unfold insertInstruction isThreeAddress
  rw [List.all_append, List.all_cons, List.all_nil, Bool.and_true]

theorem introduce_isThreeAddress {e e' : Expression} {s s' : State}
    (h : introduceTemporaryVariableExpression e s = .ok (e', s')) :
    e'.isAtomic = true ∧ s'.isThreeAddress = (s.isThreeAddress && e.isThreeAddress) := by
  obtain ⟨dataType, -, h⟩ := bind_eq_ok h
  cases h
  exact ⟨rfl, State.isThreeAddress_insertInstruction _ _⟩

theorem substitute_isThreeAddress {e e' : Expression} {s s' : State}
    (h : substitute e s = .ok (e', s')) (he : e.isOperation = false → e.isAtomic = true) :
    e'.isAtomic = true ∧ s'.isThreeAddress = (s.isThreeAddress && e.isThreeAddress) := by
  unfold substitute at h
  split_ifs at h with hoperation
  · exact introduce_isThreeAddress h
  · cases h
    have hatomic := he (Bool.eq_false_iff.mpr hoperation)
    rw [isThreeAddress_of_isAtomic hatomic, Bool.and_true]
    exact ⟨hatomic, rfl⟩

theorem encode_isThreeAddress {e e' : Expression} {s s' : State} (h : encode e s = .ok (e', s')) :
    (s'.isThreeAddress && e'.isThreeAddress) = (s.isThreeAddress && !e.nestsUnary) := by
  induction e generalizing s e' s' with
  | booleanConstant _ | integerConstant _ | enumeratedValue _ | reference _ =>
    cases h
    rfl
  | timeConstant _ | nondeterministicConstant _ | change _ _ | booleanToInteger _
  | integerToBoolean _ => cases h
  | unary op e ih =>
    obtain ⟨encoded, s₁, operand, henc, rfl, hcases⟩ := encode_unary h
    obtain ⟨hunary, hbinary⟩ := encode_kind henc
    have hih := ih henc
    rcases hcases with ⟨hisBinary, htemp⟩ | ⟨hisBinary, rfl, rfl⟩
    · -- the binary operand has become an instruction
      obtain ⟨hatomic, hs'⟩ := introduce_isThreeAddress htemp
      have hnot : e.isUnary = false := by
        rw [hisBinary] at hbinary
        cases e <;> first | rfl | cases hbinary
      rw [hs', hih, Expression.isThreeAddress, hatomic, Bool.and_true, Expression.nestsUnary, hnot,
        Bool.false_or]
    · rw [Expression.isThreeAddress, Expression.nestsUnary, ← hunary]
      cases hu : operand.isUnary with
      | true =>
        have hatomic : operand.isAtomic = false := by cases operand <;> first | rfl | cases hu
        rw [hatomic, Bool.true_or, Bool.not_true, Bool.and_false, Bool.and_false]
      | false =>
        have hoperation : operand.isOperation = false := by
          unfold Expression.isOperation
          rw [hisBinary, hu, Bool.or_false]
        have hatomic := encode_isAtomic henc hoperation
        rw [isThreeAddress_of_isAtomic hatomic] at hih
        rw [hatomic, hih, Bool.false_or]
  | binary op l r ihl ihr =>
    obtain ⟨left, s₁, left', s₂, right, s₃, right', hleft, hleft', hright, hright', rfl⟩ :=
      encode_binary h
    obtain ⟨hl, hs₂⟩ := substitute_isThreeAddress hleft' (encode_isAtomic hleft)
    obtain ⟨hr, hs'⟩ := substitute_isThreeAddress hright' (encode_isAtomic hright)
    rw [hs', ihr hright, hs₂, ihl hleft, Expression.isThreeAddress, hl, hr, Expression.nestsUnary,
      Bool.and_true, Bool.and_true, Bool.not_or, Bool.and_assoc]

theorem visit_isThreeAddress {i : Instruction} {s s' : State} (h : visit i s = .ok s') :
    s'.isThreeAddress = (s.isThreeAddress && !i.nestsUnary) := by
  cases i with
  | whileInstruction _ _ _ | gotoInstruction _ => cases h
  | callInstruction _ _ _ | havocInstruction _ =>
    cases h
    exact State.isThreeAddress_insertInstruction _ _
  | assignmentInstruction type r e =>
    obtain ⟨⟨encoded, s₁⟩, henc, h⟩ := bind_eq_ok h
    cases h
    exact (State.isThreeAddress_insertInstruction _ _).trans (encode_isThreeAddress henc)
  | ifInstruction e gotoThen gotoElse =>
    obtain ⟨⟨encoded, s₁⟩, henc, h⟩ := bind_eq_ok h
    obtain ⟨⟨condition, s₂⟩, hcondition, h⟩ := bind_eq_ok h
    cases h
    obtain ⟨hatomic, hs₂⟩ := substitute_isThreeAddress hcondition (encode_isAtomic henc)
    rw [State.isThreeAddress_insertInstruction, Instruction.isThreeAddress, hatomic, Bool.and_true,
      hs₂]
    exact encode_isThreeAddress henc

theorem visitAll_isThreeAddress {is : List Instruction} {s s' : State}
    (h : is.foldlM (fun s i => visit i s) s = .ok s') :
    s'.isThreeAddress = (s.isThreeAddress && is.all (!·.nestsUnary)) := by
  induction is generalizing s with
  | nil =>
    cases h
    rw [List.all_nil, Bool.and_true]
  | cons i is ih =>
    obtain ⟨s₁, hi, h⟩ := bind_eq_ok h
    rw [ih h, visit_isThreeAddress hi, List.all_cons, Bool.and_assoc]

theorem MakesVertex.isThreeAddress_iff {v v' : BlockVertex} (h : MakesVertex v v') :
    (∀ i ∈ v'.instructions, i.isThreeAddress = true) ↔
      ∀ i ∈ v.instructions, i.nestsUnary = false := by
  obtain ⟨s, s', hs, hvisits, hjs⟩ := h.visits
  have hall := visitAll_isThreeAddress hvisits
  unfold State.isThreeAddress at hall
  rw [hs, hjs, List.all_nil, Bool.true_and] at hall
  rw [← List.all_eq_true, hall, List.all_eq_true]
  simp only [Bool.not_eq_true']

theorem Transforms.isThreeAddress_iff {cfg cfg' : BlockUnit} (h : Transforms cfg cfg') :
    cfg'.IsThreeAddress ↔ cfg.NestsNoUnary := by
  have hmem : ∀ (c : BlockUnit) (l : ℤ) (v : BlockVertex),
      (l, v) ∈ c.labelToVertex.entries ↔ c.labelToVertex.find? l = some v :=
    fun c l v => (OrderedMap.find?_eq_some_iff _ _ _).symm
  constructor
  · rintro hcfg' ⟨l, v⟩ he
    rw [hmem] at he
    obtain ⟨v', hv', hmakes⟩ := OrderedMap.exists_of_rel_left (h.vertex l) he
    exact hmakes.isThreeAddress_iff.mp (hcfg' (l, v') ((hmem _ _ _).mpr hv'))
  · rintro hcfg ⟨l, v'⟩ he
    rw [hmem] at he
    obtain ⟨v, hv, hmakes⟩ := OrderedMap.exists_of_rel_right (h.vertex l) he
    exact hmakes.isThreeAddress_iff.mpr (hcfg (l, v) ((hmem _ _ _).mpr hv))

theorem forall_iff_of_forall₂ {α β : Type} {p : α → Prop} {q : β → Prop} {l : List α} {l' : List β}
    (h : List.Forall₂ (fun a b => q b ↔ p a) l l') : (∀ b ∈ l', q b) ↔ ∀ a ∈ l, p a := by
  induction h with
  | nil => simp
  | cons hab _ ih => rw [List.forall_mem_cons, List.forall_mem_cons, hab, ih]

/-- The pass reaches its normal form exactly on trees in which no unary expression is the operand of
another one. -/
theorem apply_isThreeAddress_iff (t : CallTree BlockUnit) (value : ℕ)
    (h : ∀ u ∈ t.units, u.graph.Supported) :
    ∃ t', apply t value = .ok t' ∧ ((∀ u ∈ t'.units, u.graph.IsThreeAddress) ↔
      ∀ u ∈ t.units, u.graph.NestsNoUnary) := by
  obtain ⟨t', hok, hrel⟩ := apply_ok h value
  have hforms : t.Rel (fun cfg cfg' => cfg'.IsThreeAddress ↔ cfg.NestsNoUnary) t' :=
    hrel fun u hu cfg' htransforms => htransforms.isThreeAddress_iff
  exact ⟨t', hok, forall_iff_of_forall₂ hforms.units⟩

theorem nested_isThreeAddress : ∃ t', apply (.node "P" nested .nil) 0 = .ok t' ∧
    ((∀ u ∈ t'.units, u.graph.IsThreeAddress) ↔
      ∀ u ∈ (CallTree.node "P" nested .nil).units, u.graph.NestsNoUnary) := by
  apply apply_isThreeAddress_iff
  intro u hu
  obtain rfl := List.mem_singleton.mp hu
  exact nested_supported

/-- `x := -(-y);` -/
def twiceNegated : BlockUnit where
  labelToVertex := ⟨[
    (0, { label := 0, type := .entry }),
    (1, { label := 1, instruction := some (.instruction (.assignmentInstruction .regular
      (.variableAccess x) (.unary .negation (.unary .negation (read y))))) }),
    (2, { label := 2, type := .exit })], by decide⟩
  edges := [{ sourceLabel := 0, targetLabel := 1 }, { sourceLabel := 1, targetLabel := 2 }]
  entryLabel := 0
  exitLabel := 2
  interface := VariableMap.empty.emplaceAll [x, y]

/-- A negation of a negation is left as it is. -/
theorem twiceNegated_not_isThreeAddress : ¬ ∀ (t : CallTree BlockUnit) (value : ℕ),
    (∀ u ∈ t.units, u.graph.Supported) →
      ∃ t', apply t value = .ok t' ∧ ∀ u ∈ t'.units, u.graph.IsThreeAddress := by
  intro h
  obtain ⟨t', hok, ht'⟩ := h (.node "P" twiceNegated .nil) 0 fun u hu => by
    obtain rfl := List.mem_singleton.mp hu
    exact ⟨by decide, by decide, by decide⟩
  cases hok
  have hassigned := ht' _ (List.mem_singleton.mpr rfl) _ (List.mem_cons_of_mem _ List.mem_cons_self)
    _ (List.mem_singleton.mpr rfl)
  cases hassigned

end TacPass

end Ahorn
