import Ahorn.SsaPass

set_option autoImplicit false

/-!
# The versions of variables

Every value the pass gives out belongs to one variable. What the variable is called tells the value,
unless it keeps a name of the unit.
-/
namespace Ahorn

def Instruction.written? : Instruction → Option Variable
  | assignmentInstruction _ r _ | havocInstruction r => some r.getVariableAccess
  | callInstruction _ _ _ | gotoInstruction _ | ifInstruction _ _ _ | whileInstruction _ _ _ => none

/-- The names of the variables of a unit and of the fields it writes. -/
def TypedUnit.Names (cfg : TypedUnit) (name : String) : Prop :=
  (∃ v ∈ cfg.interface.getVariables, v.name = name) ∨
    ∃ x ∈ cfg.labelToVertex.entries, ∃ i ∈ x.2.instructions, ∃ v, i.written? = some v ∧ v.name = name

namespace SsaPass

/-- The names the pass makes up for a value. -/
def Invented (cfg : TypedUnit) (value : ℕ) (name : String) : Prop :=
  name = constantName value ∨ ∃ base, cfg.Names base ∧ name = versioned base value

variable {cfg : TypedUnit}

/-- New are only the variables of the values given out, under made-up names or names of the unit. -/
structure Extends (cfg : TypedUnit) (s s' : State) : Prop where
  value_le : s.value ≤ s'.value
  defined : ∀ {value v}, s'.valueToVariable.find? value = some v →
    s.valueToVariable.find? value = some v ∨
      (value < s'.value ∧ (Invented cfg value v.name ∨ cfg.Names v.name))

namespace Extends

theorem of_eq {s s' : State} (hvalue : s'.value = s.value)
    (hvariables : s'.valueToVariable = s.valueToVariable) : Extends cfg s s' where
  value_le := le_of_eq hvalue.symm
  defined := fun h => Or.inl (hvariables ▸ h)

theorem refl (s : State) : Extends cfg s s := of_eq rfl rfl

theorem trans {s s' s'' : State} (h : Extends cfg s s') (h' : Extends cfg s' s'') :
    Extends cfg s s'' where
  value_le := h.value_le.trans h'.value_le
  defined := by
    intro value v hv
    rcases h'.defined hv with hv | hnew
    · rcases h.defined hv with hv | ⟨hlt, hname⟩
      · exact Or.inl hv
      · exact Or.inr ⟨lt_of_lt_of_le hlt h'.value_le, hname⟩
    · exact Or.inr hnew

theorem define {s : State} {v : Variable} (h : Invented cfg s.value v.name ∨ cfg.Names v.name) :
    Extends cfg s (s.define v) where
  value_le := Nat.le_succ s.value
  defined := by
    intro value w hw
    unfold State.define at hw ⊢
    rw [OrderedMap.find?_emplace] at hw
    split_ifs at hw with heq
    · cases hold : s.valueToVariable.find? s.value with
      | some old =>
        rw [hold] at hw
        exact Or.inl (by rw [heq, hold]; exact hw)
      | none =>
        rw [hold] at hw
        cases hw
        rw [heq]
        exact Or.inr ⟨Nat.lt_succ_self _, h⟩
    · exact Or.inl hw

theorem erase (value : ℕ) (s : State) : Extends cfg s (s.erasePhiCandidate value) where
  value_le := le_refl s.value
  defined := by
    intro w v h
    unfold State.erasePhiCandidate at h
    rw [OrderedMap.find?_erase] at h
    split_ifs at h
    exact Or.inl h

theorem insertInstruction (i : SsaInstruction) (label : ℤ) (inFront : Bool) (s : State) :
    Extends cfg s (s.insertInstruction i label inFront) := of_eq rfl rfl

theorem writeVariable (name : String) (label : ℤ) (value : ℕ) (s : State) :
    Extends cfg s (s.writeVariable name label value) := of_eq rfl rfl

theorem sealBasicBlock (label : ℤ) (s : State) : Extends cfg s (s.sealBasicBlock label) :=
  of_eq rfl rfl

theorem modifyPhiCandidate (value : ℕ) (f : PhiCandidate → PhiCandidate) (s : State) :
    Extends cfg s (s.modifyPhiCandidate value f) := by
  unfold State.modifyPhiCandidate
  cases s.valueToPhiCandidate.find? value with
  | none => exact refl s
  | some phi => exact of_eq rfl rfl

instance : Trans (Extends cfg) (Extends cfg) (Extends cfg) := ⟨trans⟩

theorem foldlM {α : Type} {f : State → α → Except String State} {l : List α}
    (hf : ∀ a ∈ l, ∀ {s s'}, f s a = .ok s' → Extends cfg s s') {s s' : State}
    (h : l.foldlM f s = .ok s') : Extends cfg s s' := by
  induction l generalizing s with
  | nil =>
    cases h
    exact refl _
  | cons a l ih =>
    rw [List.foldlM_cons] at h
    obtain ⟨s₁, ha, h⟩ := bind_eq_ok h
    exact (hf a List.mem_cons_self ha).trans (ih (fun b hb => hf b (List.mem_cons_of_mem _ hb)) h)

end Extends

/-- What a lookup of a variable may do. -/
def Reads (cfg : TypedUnit) (read : String → ℤ → State → Except String (ℕ × State)) : Prop :=
  ∀ {name label s value s'}, read name label s = .ok (value, s') → Extends cfg s s'

section Phis

theorem reroute_extends {value same user : ℕ} {s s' : State}
    (h : reroute value same s user = .ok s') : Extends cfg s s' := by
  unfold reroute at h
  cases hphi : s.findPhiCandidate user with
  | none =>
    rw [hphi] at h
    cases h
  | some phi =>
    rw [hphi] at h
    cases h
    exact .modifyPhiCandidate _ _ _

theorem tryRemoveTrivialPhi_extends {fuel value value' : ℕ} {s s' : State}
    (h : tryRemoveTrivialPhi fuel value s = .ok (value', s')) : Extends cfg s s' := by
  induction fuel generalizing value value' s s' with
  | zero => cases h
  | succ fuel ih =>
    have hretry : ∀ {s s' : State} {user : ℕ},
        retry (tryRemoveTrivialPhi fuel) s user = .ok s' → Extends cfg s s' := by
      intro s s' user h
      unfold retry at h
      cases hphi : s.findPhiCandidate user with
      | none =>
        rw [hphi] at h
        cases h
        exact .refl _
      | some phi =>
        rw [hphi] at h
        cases hremove : tryRemoveTrivialPhi fuel user s with
        | error e =>
          rw [hremove] at h
          cases h
        | ok r =>
          rw [hremove] at h
          cases h
          exact ih hremove
    unfold tryRemoveTrivialPhi at h
    cases hphi : s.valueToPhiCandidate.find? value with
    | none =>
      rw [hphi] at h
      cases h
    | some phi =>
      simp only [hphi] at h
      cases hsame : findSame value phi.valuesOfOperands none with
      | none =>
        simp only [hsame] at h
        cases h
        exact .refl _
      | some same? =>
        cases same? with
        | none =>
          simp only [hsame] at h
          cases h
        | some same =>
          simp only [hsame] at h
          obtain ⟨s₁, hreroute, h⟩ := bind_eq_ok h
          obtain ⟨s₂, hremove, h⟩ := bind_eq_ok h
          cases h
          exact (Extends.foldlM (fun _ _ => reroute_extends) hreroute).trans
            ((Extends.erase _ _).trans (Extends.foldlM (fun _ _ => hretry) hremove))

theorem placeOperandlessPhi_extends {name : String} {label : ℤ} {value : ℕ} {s s' : State}
    (h : placeOperandlessPhi cfg name label s = .ok (value, s')) : Extends cfg s s' := by
  unfold placeOperandlessPhi at h
  cases hfind : cfg.interface.getVariables.find? (·.name = name) with
  | none =>
    rw [hfind] at h
    cases h
  | some v =>
    rw [hfind] at h
    cases h
    have hname : cfg.Names name :=
      Or.inl ⟨v, List.mem_of_find?_eq_some hfind, by simpa using List.find?_some hfind⟩
    exact (Extends.define (Or.inl (Or.inr ⟨name, hname, rfl⟩))).trans (.of_eq rfl rfl)

theorem appendOperand_extends (value operand : ℕ) (s : State) :
    Extends cfg s (appendOperand value operand s) := by
  unfold appendOperand
  dsimp only
  split_ifs
  · exact .modifyPhiCandidate _ _ _
  · exact (Extends.modifyPhiCandidate _ _ _).trans (.modifyPhiCandidate _ _ _)

theorem addPhiOperands_extends {read : String → ℤ → State → Except String (ℕ × State)}
    (hread : Reads cfg read) {name : String} {value value' : ℕ} {s s' : State}
    (h : addPhiOperands cfg read name value s = .ok (value', s')) : Extends cfg s s' := by
  unfold addPhiOperands at h
  cases hphi : s.findPhiCandidate value with
  | none =>
    rw [hphi] at h
    cases h
  | some phi =>
    simp only [hphi] at h
    obtain ⟨s₁, hoperands, h⟩ := bind_eq_ok h
    refine (Extends.foldlM ?_ hoperands).trans (tryRemoveTrivialPhi_extends h)
    intro l _ s s' hl
    obtain ⟨⟨operand, s₂⟩, hoperand, hl⟩ := bind_eq_ok hl
    cases hl
    exact (hread hoperand).trans (appendOperand_extends _ _ _)

theorem readVariableRecursive_extends {read : String → ℤ → State → Except String (ℕ × State)}
    (hread : Reads cfg read) {name : String} {label : ℤ} {value : ℕ} {s s' : State}
    (h : readVariableRecursive cfg read name label s = .ok (value, s')) : Extends cfg s s' := by
  unfold readVariableRecursive at h
  split_ifs at h
  obtain ⟨⟨value₁, s₁⟩, hvalue, h⟩ := bind_eq_ok h
  cases h
  refine Extends.trans ?_ (.writeVariable _ _ _ _)
  unfold readBefore at hvalue
  split at hvalue
  · exact hread hvalue
  · obtain ⟨⟨value₂, s₂⟩, hplace, hvalue⟩ := bind_eq_ok hvalue
    exact (placeOperandlessPhi_extends hplace).trans
      ((Extends.writeVariable _ _ _ _).trans (addPhiOperands_extends hread hvalue))

theorem readVariable_extends (fuel : ℕ) : Reads cfg (readVariable cfg fuel) := by
  induction fuel with
  | zero =>
    intro name label s value s' h
    cases h
  | succ fuel ih =>
    intro name label s value s' h
    unfold readVariable at h
    cases hname : s.currentDefinitions.find? name with
    | none =>
      rw [hname] at h
      cases h
    | some definitions =>
      simp only [hname] at h
      cases hlabel : definitions.find? label with
      | none =>
        rw [hlabel] at h
        exact readVariableRecursive_extends ih h
      | some old =>
        rw [hlabel] at h
        cases h
        exact .refl _

end Phis

section Instructions

variable {names : List String} {fuel : ℕ} {label : ℤ}

theorem introduceConstant_extends (dataType : DataType) (e : Expression) (s : State) :
    Extends cfg s (introduceConstant label dataType e s).2 :=
  (Extends.define (Or.inl (Or.inl rfl))).trans (.of_eq rfl rfl)

theorem encode_extends {e e' : Expression} {s s' : State}
    (h : encode cfg fuel label e s = .ok (e', s')) : Extends cfg s s' := by
  induction e generalizing s e' s' with
  | booleanConstant _ | integerConstant _ | enumeratedValue _ =>
    cases h
    exact introduceConstant_extends _ _ _
  | timeConstant _ | nondeterministicConstant _ | change _ _ | booleanToInteger _
  | integerToBoolean _ => cases h
  | reference r =>
    cases r with
    | fieldAccess record r =>
      cases h
      exact .refl _
    | variableAccess v =>
      obtain ⟨⟨value, s₁⟩, hread, h⟩ := bind_eq_ok h
      obtain ⟨w, -, h⟩ := bind_eq_ok h
      cases h
      exact readVariable_extends fuel hread
  | unary op e ih =>
    obtain ⟨⟨encoded, s₁⟩, he, h⟩ := bind_eq_ok h
    cases h
    exact ih he
  | binary op l r ihl ihr =>
    obtain ⟨⟨left, s₁⟩, hl, h⟩ := bind_eq_ok h
    obtain ⟨⟨right, s₂⟩, hr, h⟩ := bind_eq_ok h
    cases h
    exact (ihl hl).trans (ihr hr)

theorem writeFresh_extends {name base : String} {v : Variable} {i : Instruction} {s : State}
    (hbase : cfg.Names base) (hv : v.name = base ∨ v.name = versioned base s.value) :
    Extends cfg s (writeFresh label name v i s) := by
  refine (Extends.define ?_).trans (.of_eq rfl rfl)
  rcases hv with hv | hv
  · exact Or.inr (hv ▸ hbase)
  · exact Or.inl (Or.inr ⟨base, hbase, hv⟩)

theorem assignedName_cases (name : String) (value : ℕ) :
    assignedName name value = name ∨ assignedName name value = versioned name value := by
  unfold assignedName
  split_ifs
  · exact Or.inl rfl
  · exact Or.inr rfl

theorem visitAssignment_extends {type : AssignmentType} {r : VariableReference} {e : Expression}
    {s s' : State} (hr : cfg.Names r.getVariableAccess.name)
    (h : visitAssignment cfg names fuel label type r e s = .ok s') : Extends cfg s s' := by
  cases type with
  | regular =>
    obtain ⟨⟨encoded, s₁⟩, he, h⟩ := bind_eq_ok h
    cases r with
    | fieldAccess record r => cases h
    | variableAccess v =>
      cases h
      exact (encode_extends he).trans (writeFresh_extends hr (assignedName_cases _ _))
  | parameterIn =>
    obtain ⟨⟨encoded, s₁⟩, he, h⟩ := bind_eq_ok h
    cases r with
    | variableAccess v => cases h
    | fieldAccess record r =>
      obtain ⟨field, -, h⟩ := bind_eq_ok h
      cases h
      exact (encode_extends he).trans (.insertInstruction _ _ _ _)
  | parameterOut =>
    unfold visitAssignment at h
    split at h
    · cases ‹AssignmentType.parameterOut = .regular›
    · cases ‹AssignmentType.parameterOut = .parameterIn›
    split at h
    · obtain ⟨field, -, h⟩ := bind_eq_ok h
      cases r with
      | variableAccess v =>
        cases h
        exact writeFresh_extends hr (Or.inr rfl)
      | fieldAccess record r =>
        cases h
        exact writeFresh_extends hr (Or.inr rfl)
    · cases h

theorem visit_extends {i : Instruction} {s s' : State}
    (hi : ∀ v, i.written? = some v → cfg.Names v.name)
    (h : visit cfg names fuel label i s = .ok s') : Extends cfg s s' := by
  cases i with
  | assignmentInstruction type r e => exact visitAssignment_extends (hi _ rfl) h
  | callInstruction v intra inter =>
    cases h
    exact .insertInstruction _ _ _ _
  | gotoInstruction l => cases h
  | whileInstruction e t x => cases h
  | ifInstruction e t x =>
    obtain ⟨⟨encoded, s₁⟩, he, h⟩ := bind_eq_ok h
    cases h
    exact (encode_extends he).trans (.insertInstruction _ _ _ _)
  | havocInstruction r =>
    cases r with
    | fieldAccess record r => cases h
    | variableAccess v =>
      cases h
      exact writeFresh_extends (hi v rfl) (assignedName_cases _ _)

end Instructions

section Worklist

variable {names : List String} {fuel : ℕ}

theorem getVertex_mem {label : ℤ} {v : BlockVertex} (h : cfg.getVertex label = .ok v) :
    (label, v) ∈ cfg.labelToVertex.entries := by
  unfold BlockCfg.getVertex at h
  cases hfind : cfg.labelToVertex.find? label with
  | none =>
    rw [hfind] at h
    cases h
  | some w =>
    rw [hfind] at h
    cases h
    exact (OrderedMap.find?_eq_some_iff _ _ _).mp hfind

theorem visitBlock_extends {label : ℤ} {v : BlockVertex} {s s' : State}
    (hv : cfg.getVertex label = .ok v) (h : visitBlock cfg names fuel v s = .ok s') :
    Extends cfg s s' :=
  Extends.foldlM (fun i hi _ _ hvisit => visit_extends (fun w hw =>
    Or.inr ⟨_, getVertex_mem hv, i, hi, w, hw, rfl⟩) hvisit) h

theorem defineInitially_extends {v : Variable} (hv : v ∈ cfg.interface.getVariables) (s : State) :
    Extends cfg s (defineInitially cfg s v) := by
  refine (Extends.define ?_).trans (.writeVariable _ _ _ _)
  have hname : cfg.Names v.name := Or.inl ⟨v, hv, rfl⟩
  unfold initialVariable
  split_ifs
  · exact Or.inr hname
  · exact Or.inl (Or.inr ⟨_, hname, rfl⟩)
  · exact Or.inl (Or.inr ⟨_, hname, rfl⟩)

theorem writeInitialVariables_extends (value : ℕ) :
    Extends cfg (.start value) (writeInitialVariables cfg value) := by
  have hall : ∀ (vs : List Variable) (s : State), (∀ v ∈ vs, v ∈ cfg.interface.getVariables) →
      Extends cfg s (vs.foldl (defineInitially cfg) s) := by
    intro vs
    induction vs with
    | nil => exact fun s _ => .refl s
    | cons v vs ih =>
      intro s hvs
      exact (defineInitially_extends (hvs v List.mem_cons_self) s).trans
        (ih _ fun w hw => hvs w (List.mem_cons_of_mem _ hw))
  exact hall _ _ fun v hv => (List.mem_filter.mp hv).1

theorem fillEmpty_extends {label : ℤ} {s s' : State} (h : fillEmpty cfg label s = .ok s') :
    Extends cfg s s' := by
  obtain ⟨v, -, h⟩ := bind_eq_ok h
  cases h
  split_ifs
  · exact .of_eq rfl rfl
  · exact .refl _

theorem foldl_sealBasicBlock_extends (labels : List ℤ) (s : State) :
    Extends cfg s (labels.foldl (fun s label => s.sealBasicBlock label) s) := by
  induction labels generalizing s with
  | nil => exact .refl s
  | cons label labels ih => exact (Extends.sealBasicBlock label s).trans (ih _)

theorem prepare_extends {value : ℕ} {s : State} (h : prepare cfg value = .ok s) :
    Extends cfg (.start value) s := by
  obtain ⟨s₁, hentry, h⟩ := bind_eq_ok h
  obtain ⟨s₂, hexit, h⟩ := bind_eq_ok h
  cases h
  calc
    Extends cfg (.start value) (writeInitialVariables cfg value) := writeInitialVariables_extends value
    Extends cfg _ s₁ := (Extends.sealBasicBlock _ _).trans (fillEmpty_extends hentry)
    Extends cfg _ s₂ := fillEmpty_extends hexit
    Extends cfg _ _ := foldl_sealBasicBlock_extends _ _

theorem processEntry_extends {label : ℤ} {labels : List ℤ} {s s' : State}
    (h : processEntry cfg names fuel label s = .ok (labels, s')) : Extends cfg s s' := by
  obtain ⟨v, hv, h⟩ := bind_eq_ok h
  obtain ⟨s₁, hvisit, h⟩ := bind_eq_ok h
  split at h
  · cases h
    exact (visitBlock_extends hv hvisit).trans (.of_eq rfl rfl)
  · cases h

theorem processUnsealed_extends {label : ℤ} {labels : List ℤ} {s s' : State}
    (h : processUnsealed cfg names fuel label s = .ok (labels, s')) : Extends cfg s s' := by
  unfold processUnsealed at h
  split_ifs at h
  · obtain ⟨v, hv, h⟩ := bind_eq_ok h
    obtain ⟨s₁, hvisit, h⟩ := bind_eq_ok h
    cases h
    exact (visitBlock_extends hv hvisit).trans (.of_eq rfl rfl)
  · cases h
    exact .refl _

theorem processSealed_extends {label : ℤ} {labels : List ℤ} {s s' : State}
    (h : processSealed cfg names fuel label s = .ok (labels, s')) : Extends cfg s s' := by
  unfold processSealed at h
  split_ifs at h
  · cases h
    exact .refl _
  · obtain ⟨v, hv, h⟩ := bind_eq_ok h
    split_ifs at h
    obtain ⟨s₁, hvisit, h⟩ := bind_eq_ok h
    cases h
    exact (visitBlock_extends hv hvisit).trans (.of_eq rfl rfl)

theorem processLabel_extends {label : ℤ} {labels : List ℤ} {s s' : State}
    (h : processLabel cfg names fuel label s = .ok (labels, s')) : Extends cfg s s' := by
  unfold processLabel at h
  dsimp only at h
  split_ifs at h
  · exact processEntry_extends h
  · exact (Extends.sealBasicBlock _ _).trans (processSealed_extends h)
  · exact (Extends.sealBasicBlock _ _).trans (processUnsealed_extends h)
  · exact processSealed_extends h
  · exact processUnsealed_extends h

theorem process_extends {n : ℕ} {q : List ℤ} {s s' : State}
    (h : process cfg names fuel n q s = .ok s') : Extends cfg s s' := by
  induction n generalizing q s with
  | zero =>
    cases q with
    | nil =>
      cases h
      exact .refl _
    | cons label q => cases h
  | succ n ih =>
    cases q with
    | nil =>
      cases h
      exact .refl _
    | cons label q =>
      obtain ⟨⟨labels, s₁⟩, hlabel, h⟩ := bind_eq_ok h
      exact (processLabel_extends hlabel).trans (ih h)

theorem readFinally_extends {s s' : State} (h : readFinally cfg fuel s = .ok s') :
    Extends cfg s s' := by
  refine Extends.foldlM ?_ h
  intro v _ s s' hv
  cases hread : readVariable cfg fuel v.name cfg.exitLabel s with
  | error e =>
    rw [hread] at hv
    cases hv
  | ok r =>
    rw [hread] at hv
    cases hv
    exact readVariable_extends fuel hread

theorem insertPhis_extends {s s' : State} (h : insertPhis s = .ok s') : Extends cfg s s' := by
  refine Extends.foldlM ?_ h
  intro phi _ s s' hphi
  obtain ⟨labelToOperand, -, hphi⟩ := bind_eq_ok hphi
  obtain ⟨v, -, hphi⟩ := bind_eq_ok hphi
  cases hphi
  exact .insertInstruction _ _ _ _

theorem finalState_extends {value : ℕ} {s : State}
    (h : finalState cfg names fuel value = .ok s) : Extends cfg (.start value) s := by
  obtain ⟨s₁, hprepare, h⟩ := bind_eq_ok h
  obtain ⟨s₂, hprocess, h⟩ := bind_eq_ok h
  obtain ⟨s₃, hread, h⟩ := bind_eq_ok h
  calc
    Extends cfg (.start value) s₁ := prepare_extends hprepare
    Extends cfg _ s₂ := process_extends hprocess
    Extends cfg _ s₃ := readFinally_extends hread
    Extends cfg _ s := insertPhis_extends h

end Worklist

end SsaPass

end Ahorn
