import Mathlib.Data.Set.Basic
import Ahorn.AcyclicGraphs
import Ahorn.SsaVersions

set_option autoImplicit false

/-!
# Reading variables in loop-free units

Where there are no loops, the lookup of a variable comes to the entry or to a definition on the way.
A phi is complete before it is looked at again, so none of the phis that stay lacks an operand.
-/
namespace Ahorn

open Relation (ReflTransGen)

def Instruction.isCallFree : Instruction → Bool
  | assignmentInstruction type _ _ => type = .regular
  | callInstruction _ _ _ => false
  | _ => true

/-- An edge leads from the first vertex to the second. -/
def BlockCfg.Precedes (cfg : BlockCfg) (l l' : ℤ) : Prop := l ∈ cfg.getPrecedingLabels l'

theorem BlockCfg.precedes_iff {cfg : BlockCfg} {l l' : ℤ} :
    cfg.Precedes l l' ↔ ∃ e ∈ cfg.edges, e.sourceLabel = l ∧ e.targetLabel = l' := by
  unfold BlockCfg.Precedes BlockCfg.getPrecedingLabels BlockCfg.getIncomingEdges
  simp only [List.mem_map, List.mem_filter, decide_eq_true_eq]
  constructor
  · rintro ⟨e, ⟨he, htarget⟩, hsource⟩
    exact ⟨e, he, hsource, htarget⟩
  · rintro ⟨e, he, hsource, htarget⟩
    exact ⟨e, ⟨he, htarget⟩, hsource⟩

/-- A unit without loops and calls whose vertices are all reachable. All vertices but the entry and
the exit hold instructions. -/
structure TypedUnit.LoopFree (cfg : TypedUnit) : Prop where
  label : ∀ l v, cfg.labelToVertex.find? l = some v → v.label = l
  source : ∀ e ∈ cfg.edges, ∃ v, cfg.labelToVertex.find? e.sourceLabel = some v
  target : ∀ e ∈ cfg.edges, ∃ v, cfg.labelToVertex.find? e.targetLabel = some v
  callFree : ∀ e ∈ cfg.edges, e.type ≠ .interproceduralCall ∧ e.type ≠ .interproceduralReturn ∧
    e.type ≠ .intraproceduralCallToReturn
  instructions : ∀ l v, cfg.labelToVertex.find? l = some v →
    ∀ i ∈ v.instructions, i.isCallFree = true
  acyclic : WellFounded cfg.Precedes
  reachable : ∀ l v, cfg.labelToVertex.find? l = some v →
    ReflTransGen cfg.Precedes cfg.entryLabel l
  entry : ∃ next, cfg.getSucceedingLabels cfg.entryLabel = [next]
  exit : ∃ v, cfg.labelToVertex.find? cfg.exitLabel = some v
  last : ∀ e ∈ cfg.edges, e.sourceLabel ≠ cfg.exitLabel
  regular : ∀ l v, cfg.labelToVertex.find? l = some v → l ≠ cfg.entryLabel → l ≠ cfg.exitLabel →
    v.instruction ≠ none

namespace SsaPass

/-- The value of a variable at the end of a block, as far as it is known. -/
def State.definition (s : State) (name : String) (label : ℤ) : Option ℕ :=
  (s.currentDefinitions.find? name).bind fun definitions => definitions.find? label

theorem definition_writeVariable (s : State) (name n : String) (label l : ℤ) (value : ℕ) :
    (s.writeVariable name label value).definition n l =
      if n = name ∧ l = label then some value else s.definition n l := by
  unfold State.definition State.writeVariable
  rw [OrderedMap.find?_assign]
  by_cases hn : n = name
  · subst hn
    rw [if_pos rfl, Option.bind_some, OrderedMap.find?_assign]
    by_cases hl : l = label
    · simp [hl]
    · rw [if_neg hl, if_neg (fun h => hl h.2)]
      cases s.currentDefinitions.find? n <;> rfl
  · rw [if_neg hn, if_neg (fun h => hn h.1)]

def hasVariable (cfg : TypedUnit) (name : String) : Bool :=
  (cfg.interface.getVariables.find? (·.name = name)).isSome

/-- The lookup of a variable comes to a definition on every way back. Where several ways meet there
is a phi, which only the variables of the unit can have. -/
inductive State.Reaches (cfg : TypedUnit) (s : State) (name : String) : ℤ → Prop
  | here {l : ℤ} (h : s.definition name l ≠ none) : Reaches cfg s name l
  | before {l : ℤ} (hne : cfg.getPrecedingLabels l ≠ [])
    (hjoin : (cfg.getPrecedingLabels l).length = 1 ∨ hasVariable cfg name = true)
    (h : ∀ p, cfg.Precedes p l → Reaches cfg s name p) : Reaches cfg s name l

/-- Values that are defined belong to variables, and those not given out yet are new. -/
structure State.Live (s : State) : Prop where
  defined : ∀ n l v, s.definition n l = some v → ∃ x, s.valueToVariable.find? v = some x
  owned : ∀ v x, s.valueToVariable.find? v = some x → v < s.value
  candidates : ∀ v phi, s.valueToPhiCandidate.find? v = some phi → v < s.value
  erased : ∀ v ∈ s.erasedPhiCandidates, v < s.value

theorem State.Live.definition_lt {s : State} (h : s.Live) {n : String} {l : ℤ} {v : ℕ}
    (hv : s.definition n l = some v) : v < s.value := by
  obtain ⟨x, hx⟩ := h.defined n l v hv
  exact h.owned v x hx

/-- Where a phi stands, and how many operands it has. -/
def PhiCandidate.shape (phi : PhiCandidate) : ℤ × ℕ := (phi.label, phi.valuesOfOperands.length)

/-- A phi with one operand for each edge into its block. -/
def PhiCandidate.IsComplete (cfg : TypedUnit) (phi : PhiCandidate) : Prop :=
  phi.valuesOfOperands.length = (cfg.getPrecedingLabels phi.label).length

/-- What a lookup may change: it defines one variable in blocks where it was not defined, and adds
phis, all of them complete but those in `X`. A value is either new or found in one of the blocks. -/
structure Lookup (cfg : TypedUnit) (name : String) (A : Set ℤ) (X : Set ℕ) (s s' : State) :
    Prop where
  value_le : s.value ≤ s'.value
  filled : s'.filledBasicBlocks = s.filledBasicBlocks
  isSealed : s'.sealedBasicBlocks = s.sealedBasicBlocks
  definitions : ∀ n l, s'.definition n l = s.definition n l ∨
    n = name ∧ l ∈ A ∧ s.definition n l = none
  values : ∀ l ∈ A, ∀ v, s'.definition name l = some v →
    s.value ≤ v ∨ ∃ l' ∈ A, s.definition name l' = some v
  owned : ∀ v < s.value, s'.valueToVariable.find? v = s.valueToVariable.find? v
  erased : ∀ v < s.value, v ∈ s'.erasedPhiCandidates ↔ v ∈ s.erasedPhiCandidates
  shapes : ∀ v < s.value, (s'.valueToPhiCandidate.find? v).map PhiCandidate.shape =
    (s.valueToPhiCandidate.find? v).map PhiCandidate.shape
  untouched : ∀ v < s.value, (∀ l ∈ A, s.definition name l ≠ some v) →
    s'.valueToPhiCandidate.find? v = s.valueToPhiCandidate.find? v
  complete : ∀ v phi, s.value ≤ v → v ∉ X → s'.valueToPhiCandidate.find? v = some phi →
    v ∉ s'.erasedPhiCandidates → phi.IsComplete cfg

namespace Lookup

variable {cfg : TypedUnit} {name : String} {A B : Set ℤ} {X : Set ℕ} {s s' s'' : State}
variable {label : ℤ} {v x : ℕ}

theorem refl (hs : s.Live) : Lookup cfg name A X s s where
  value_le := le_refl _
  filled := rfl
  isSealed := rfl
  definitions _ _ := Or.inl rfl
  values l hl _ hv := Or.inr ⟨l, hl, hv⟩
  owned _ _ := rfl
  erased _ _ := Iff.rfl
  shapes _ _ := rfl
  untouched _ _ _ := rfl
  complete v phi hv _ hphi _ := absurd (hs.candidates v phi hphi) (Nat.not_lt.mpr hv)

theorem isComplete_of_shape {phi phi' : PhiCandidate} (h : phi'.shape = phi.shape)
    (hphi : phi.IsComplete cfg) : phi'.IsComplete cfg := by
  obtain ⟨hlabel, hlength⟩ := Prod.mk.inj h
  unfold PhiCandidate.IsComplete at hphi ⊢
  rw [hlabel, hlength]
  exact hphi

/-- A lookup in fewer blocks on the way. -/
theorem trans (h : Lookup cfg name B X s s') (hsub : A ⊆ B) (h' : Lookup cfg name A ∅ s' s'') :
    Lookup cfg name B X s s'' where
  value_le := h.value_le.trans h'.value_le
  filled := h'.filled.trans h.filled
  isSealed := h'.isSealed.trans h.isSealed
  definitions n l := by
    rcases h'.definitions n l with hsame | ⟨hn, hl, hnone⟩
    · rw [hsame]
      exact h.definitions n l
    · rcases h.definitions n l with hsame | hnew
      · exact Or.inr ⟨hn, hsub hl, hsame ▸ hnone⟩
      · exact Or.inr hnew
  values l hl v hv := by
    by_cases hA : l ∈ A
    · rcases h'.values l hA v hv with hnew | ⟨l', hl', hold⟩
      · exact Or.inl (h.value_le.trans hnew)
      · exact h.values l' (hsub hl') v hold
    · rcases h'.definitions name l with hsame | ⟨-, hl', -⟩
      · exact h.values l hl v (hsame ▸ hv)
      · exact absurd hl' hA
  owned v hv := (h'.owned v (lt_of_lt_of_le hv h.value_le)).trans (h.owned v hv)
  erased v hv := (h'.erased v (lt_of_lt_of_le hv h.value_le)).trans (h.erased v hv)
  shapes v hv := (h'.shapes v (lt_of_lt_of_le hv h.value_le)).trans (h.shapes v hv)
  untouched v hv hnot := by
    rw [h'.untouched v (lt_of_lt_of_le hv h.value_le), h.untouched v hv hnot]
    intro l hl hdef
    rcases h.values l (hsub hl) v hdef with hnew | ⟨l', hl', hold⟩
    · exact absurd hv (Nat.not_lt.mpr hnew)
    · exact hnot l' hl' hold
  complete v phi hv hX hphi herased := by
    by_cases hlt : v < s'.value
    · have hshape := h'.shapes v hlt
      rw [hphi, Option.map_some] at hshape
      obtain ⟨phi', hphi', hshape⟩ := Option.map_eq_some_iff.mp hshape.symm
      exact isComplete_of_shape hshape.symm
        (h.complete v phi' hv hX hphi' fun hmem => herased ((h'.erased v hlt).mpr hmem))
    · exact h'.complete v phi (Nat.not_lt.mp hlt) (Set.notMem_empty v) hphi herased

theorem writeVariable (h : Lookup cfg name A X s s') (hl : label ∈ A)
    (hnone : s.definition name label = none)
    (hv : s.value ≤ v ∨ ∃ l ∈ A, s.definition name l = some v) :
    Lookup cfg name A X s (s'.writeVariable name label v) where
  value_le := h.value_le
  filled := h.filled
  isSealed := h.isSealed
  definitions n l := by
    rw [definition_writeVariable]
    split_ifs with heq
    · obtain ⟨rfl, rfl⟩ := heq
      exact Or.inr ⟨rfl, hl, hnone⟩
    · exact h.definitions n l
  values l hl' w hw := by
    rw [definition_writeVariable] at hw
    split_ifs at hw with heq
    · obtain rfl := Option.some.inj hw
      exact hv
    · exact h.values l hl' w hw
  owned := h.owned
  erased := h.erased
  shapes := h.shapes
  untouched := h.untouched
  complete := h.complete

theorem erasePhiCandidate (h : Lookup cfg name A {x} s s') (hx : s.value ≤ x) :
    Lookup cfg name A ∅ s (s'.erasePhiCandidate x) where
  value_le := h.value_le
  filled := h.filled
  isSealed := h.isSealed
  definitions := h.definitions
  values := h.values
  owned v hv := by
    unfold State.erasePhiCandidate
    rw [OrderedMap.find?_erase, if_neg (by omega)]
    exact h.owned v hv
  erased v hv := by
    unfold State.erasePhiCandidate
    rw [List.mem_cons, or_iff_right (by omega)]
    exact h.erased v hv
  shapes := h.shapes
  untouched := h.untouched
  complete v phi hv _ hphi herased := by
    have hne : v ≠ x := fun heq => herased (heq ▸ List.mem_cons_self)
    exact h.complete v phi hv hne hphi fun hmem => herased (List.mem_cons_of_mem x hmem)

theorem finish (h : Lookup cfg name A {x} s s') {phi : PhiCandidate}
    (hphi : s'.valueToPhiCandidate.find? x = some phi) (hcomplete : phi.IsComplete cfg) :
    Lookup cfg name A ∅ s s' where
  value_le := h.value_le
  filled := h.filled
  isSealed := h.isSealed
  definitions := h.definitions
  values := h.values
  owned := h.owned
  erased := h.erased
  shapes := h.shapes
  untouched := h.untouched
  complete v phi' hv _ hphi' herased := by
    by_cases hvx : v = x
    · subst hvx
      rw [hphi] at hphi'
      cases hphi'
      exact hcomplete
    · exact h.complete v phi' hv hvx hphi' herased

theorem placePhi (hs : s.Live) {y : Variable} {phi : PhiCandidate} :
    Lookup cfg name A {s.value} s { s.define y with
      valueToPhiCandidate := s.valueToPhiCandidate.emplace s.value phi } where
  value_le := Nat.le_succ s.value
  filled := rfl
  isSealed := rfl
  definitions _ _ := Or.inl rfl
  values l hl v hv := Or.inr ⟨l, hl, hv⟩
  owned v hv := OrderedMap.find?_emplace_ne _ _ (Nat.ne_of_lt hv)
  erased _ _ := Iff.rfl
  shapes v hv := by
    rw [OrderedMap.find?_emplace_ne _ _ (Nat.ne_of_lt hv)]
  untouched v hv _ := OrderedMap.find?_emplace_ne _ _ (Nat.ne_of_lt hv)
  complete v phi' hv hne hphi _ := by
    rw [OrderedMap.find?_emplace_ne _ _ hne] at hphi
    exact absurd (hs.candidates v phi' hphi) (Nat.not_lt.mpr hv)

end Lookup

section Operands

variable {cfg : TypedUnit} {name : String} {A : Set ℤ} {s s' : State} {label : ℤ} {v x : ℕ}

theorem find?_modifyPhiCandidate (s : State) (x y : ℕ) (f : PhiCandidate → PhiCandidate) :
    (s.modifyPhiCandidate x f).valueToPhiCandidate.find? y =
      if y = x then (s.valueToPhiCandidate.find? x).map f
      else s.valueToPhiCandidate.find? y := by
  unfold State.modifyPhiCandidate
  cases hx : s.valueToPhiCandidate.find? x with
  | none =>
    split_ifs with hy
    · rw [hy, hx]
      rfl
    · rfl
  | some phi => exact OrderedMap.find?_assign _ _ _ _

theorem modifyPhiCandidate_eq (s : State) (x : ℕ) (f : PhiCandidate → PhiCandidate) :
    ∃ m, s.modifyPhiCandidate x f = { s with valueToPhiCandidate := m } := by
  unfold State.modifyPhiCandidate
  cases s.valueToPhiCandidate.find? x with
  | none => exact ⟨s.valueToPhiCandidate, rfl⟩
  | some phi => exact ⟨_, rfl⟩

theorem appendOperand_eq (x v : ℕ) (s : State) :
    ∃ m, appendOperand x v s = { s with valueToPhiCandidate := m } := by
  obtain ⟨m, hm⟩ := modifyPhiCandidate_eq s x (·.appendValuesOfOperands v)
  unfold appendOperand
  rw [hm]
  dsimp only
  split_ifs
  · exact ⟨m, rfl⟩
  · obtain ⟨m', hm'⟩ := modifyPhiCandidate_eq { s with valueToPhiCandidate := m } v
      (·.addValuesOfUsers x)
    rw [hm']
    exact ⟨m', rfl⟩

theorem find?_appendOperand (hne : v ≠ x) (s : State) (y : ℕ) :
    (appendOperand x v s).valueToPhiCandidate.find? y =
        (if y = x then (s.valueToPhiCandidate.find? x).map (·.appendValuesOfOperands v)
        else s.valueToPhiCandidate.find? y) ∨
      y = v ∧ (appendOperand x v s).valueToPhiCandidate.find? y =
        (s.valueToPhiCandidate.find? v).map (·.addValuesOfUsers x) := by
  unfold appendOperand
  dsimp only
  by_cases hoperand : v = x ∨ (s.modifyPhiCandidate x
      (·.appendValuesOfOperands v)).findPhiCandidate v = none
  · rw [if_pos hoperand]
    exact Or.inl (find?_modifyPhiCandidate s x y _)
  · rw [if_neg hoperand, find?_modifyPhiCandidate, find?_modifyPhiCandidate]
    by_cases hy : y = v
    · rw [if_pos hy, if_neg hne]
      exact Or.inr ⟨hy, rfl⟩
    · rw [if_neg hy]
      exact Or.inl (find?_modifyPhiCandidate s x y _)

theorem Lookup.appendOperand (h : Lookup cfg name A {x} s s') (hx : s.value ≤ x) (hne : v ≠ x)
    (hv : s.value ≤ v ∨ ∃ l ∈ A, s.definition name l = some v) :
    Lookup cfg name A {x} s (appendOperand x v s') := by
  obtain ⟨m, hm⟩ := appendOperand_eq x v s'
  have hother : ∀ y, y ≠ x → m.find? y = s'.valueToPhiCandidate.find? y ∨
      y = v ∧ m.find? y = (s'.valueToPhiCandidate.find? v).map (·.addValuesOfUsers x) := by
    intro y hy
    have hfind := find?_appendOperand hne s' y
    rw [hm, if_neg hy] at hfind
    exact hfind
  have hshape : ∀ y, y ≠ x → (m.find? y).map PhiCandidate.shape =
      (s'.valueToPhiCandidate.find? y).map PhiCandidate.shape := by
    intro y hy
    rcases hother y hy with hsame | ⟨rfl, huser⟩
    · rw [hsame]
    · rw [huser, Option.map_map]
      rfl
  rw [hm]
  exact {
    value_le := h.value_le
    filled := h.filled
    isSealed := h.isSealed
    definitions := h.definitions
    values := h.values
    owned := h.owned
    erased := h.erased
    shapes := fun y hy => (hshape y (by omega)).trans (h.shapes y hy)
    untouched := by
      intro y hy hnot
      rcases hother y (by omega) with hsame | ⟨rfl, -⟩
      · exact hsame.trans (h.untouched y hy hnot)
      · obtain ⟨l, hl, hdef⟩ := hv.resolve_left (Nat.not_le.mpr hy)
        exact absurd hdef (hnot l hl)
    complete := by
      intro y phi hy hX hphi herased
      have hyx : y ≠ x := hX
      have hmap := hshape y hyx
      rw [hphi, Option.map_some] at hmap
      obtain ⟨phi', hphi', hshape'⟩ := Option.map_eq_some_iff.mp hmap.symm
      exact isComplete_of_shape hshape'.symm (h.complete y phi' hy hX hphi' herased) }

theorem State.Live.appendOperand (h : s.Live) (hne : v ≠ x) : (appendOperand x v s).Live := by
  obtain ⟨m, hm⟩ := appendOperand_eq x v s
  have hfind := find?_appendOperand hne s
  rw [hm] at hfind ⊢
  refine ⟨h.defined, h.owned, fun y phi hphi => ?_, h.erased⟩
  change m.find? y = some phi at hphi
  rcases hfind y with hy | ⟨rfl, hy⟩
  · change m.find? y = _ at hy
    rw [hphi] at hy
    split_ifs at hy with heq
    · obtain ⟨phi', hphi', -⟩ := Option.map_eq_some_iff.mp hy.symm
      exact heq ▸ h.candidates x phi' hphi'
    · exact h.candidates y phi hy.symm
  · change m.find? y = _ at hy
    rw [hphi] at hy
    obtain ⟨phi', hphi', -⟩ := Option.map_eq_some_iff.mp hy.symm
    exact h.candidates y phi' hphi'

theorem findSame_ne {vs : List ℕ} {same : Option ℕ} (hvs : ∀ v ∈ vs, v ≠ x)
    (hsome : vs ≠ [] ∨ same.isSome) : findSame x vs same ≠ some none := by
  induction vs generalizing same with
  | nil =>
    cases same with
    | none => simp at hsome
    | some w => simp [findSame]
  | cons v vs ih =>
    rw [List.forall_mem_cons] at hvs
    unfold findSame
    split_ifs with hsame hother
    · have hv : some v = same := hsame.resolve_right hvs.1
      exact ih hvs.2 (Or.inr (hv ▸ rfl))
    · simp
    · exact ih hvs.2 (Or.inr rfl)

theorem findSame_mem {vs : List ℕ} {same : Option ℕ} {w : ℕ}
    (h : findSame x vs same = some (some w)) : w ∈ vs ∨ same = some w := by
  induction vs generalizing same with
  | nil =>
    cases h
    exact Or.inr rfl
  | cons v vs ih =>
    unfold findSame at h
    split_ifs at h with hsame hother
    · exact (ih h).imp (List.mem_cons_of_mem v) id
    · rcases ih h with hmem | heq
      · exact Or.inl (List.mem_cons_of_mem v hmem)
      · cases heq
        exact Or.inl List.mem_cons_self

end Operands

/-- The blocks a value at the end of a block may come from: those before it and itself. -/
def before (cfg : TypedUnit) (label : ℤ) : Set ℤ := {l | ReflTransGen cfg.Precedes l label}

theorem before_subset {cfg : TypedUnit} {p label : ℤ} (hp : cfg.Precedes p label) :
    before cfg p ⊆ before cfg label :=
  fun _ hl => hl.tail hp

namespace State.Reaches

variable {cfg : TypedUnit} {name : String} {s s' : State} {l : ℤ}

theorem of_reaches (h : s'.Reaches cfg name l)
    (hnew : ∀ l' ∈ SsaPass.before cfg l, s'.definition name l' ≠ none → s.Reaches cfg name l') :
    s.Reaches cfg name l := by
  induction h with
  | here h => exact hnew _ .refl h
  | before hne hjoin _ ih =>
    exact .before hne hjoin fun p hp => ih p hp fun l' hl' => hnew l' (before_subset hp hl')

theorem mono (h : s.Reaches cfg name l)
    (hkept : ∀ l', s.definition name l' ≠ none → s'.definition name l' ≠ none) :
    s'.Reaches cfg name l :=
  h.of_reaches fun l' _ hdef => .here (hkept l' hdef)

theorem exists_definition (h : s.Reaches cfg name l) : ∃ l', s.definition name l' ≠ none := by
  induction h with
  | here h => exact ⟨_, h⟩
  | before hne _ _ ih =>
    obtain ⟨p, hp⟩ := List.exists_mem_of_ne_nil _ hne
    exact ih p hp

end State.Reaches

/-- A lookup that has found a value. New definitions are those of sealed blocks that the variable
reaches. -/
structure Found (cfg : TypedUnit) (name : String) (label : ℤ) (s : State) (v : ℕ) (s' : State) :
    Prop where
  lookup : Lookup cfg name (before cfg label) ∅ s s'
  live : s'.Live
  result : ∃ y, s'.valueToVariable.find? v = some y
  origin : s.value ≤ v ∨ ∃ l ∈ before cfg label, s.definition name l = some v
  reaches : s.Reaches cfg name label
  new : ∀ l, s'.definition name l ≠ none → s.definition name l ≠ none ∨
    l ∈ s.sealedBasicBlocks ∧ s.Reaches cfg name l

theorem Found.of_new {cfg : TypedUnit} {name : String} {label l : ℤ} {s s' : State} {v : ℕ}
    (h : Found cfg name label s v s') (hdef : s'.definition name l ≠ none) :
    s.Reaches cfg name l := by
  rcases h.new l hdef with hold | ⟨-, hreaches⟩
  · exact .here hold
  · exact hreaches

section Reading

variable {cfg : TypedUnit} {name : String} {label : ℤ} {s s' : State}

theorem definition_of_lookup {A : Set ℤ} {X : Set ℕ} (h : Lookup cfg name A X s s') {n : String}
    {l : ℤ} {v : ℕ} (hv : s.definition n l = some v) : s'.definition n l = some v := by
  rcases h.definitions n l with hsame | ⟨-, -, hnone⟩
  · rw [hsame, hv]
  · rw [hv] at hnone
    cases hnone

theorem notMem_before (hcfg : cfg.LoopFree) {p : ℤ} (hp : cfg.Precedes p label) :
    label ∉ before cfg p := by
  intro hmem
  have hcycle : Relation.TransGen cfg.Precedes label label :=
    Relation.TransGen.tail' hmem hp
  exact hcfg.acyclic.transGen.irrefl.irrefl label hcycle

theorem readingLabels_eq (hcfg : cfg.LoopFree) (l : ℤ) :
    readingLabels cfg l = cfg.getPrecedingLabels l := by
  unfold readingLabels BlockCfg.getPrecedingLabels
  rw [List.filter_eq_self.mpr]
  intro e he
  have hmem : e ∈ cfg.edges := List.mem_of_mem_filter he
  simpa using (hcfg.callFree e hmem).2.1

theorem exists_precedes (hcfg : cfg.LoopFree) {l : ℤ}
    (hl : ∃ v, cfg.labelToVertex.find? l = some v) (hne : l ≠ cfg.entryLabel) :
    ∃ p, cfg.Precedes p l := by
  obtain ⟨v, hv⟩ := hl
  rcases Relation.ReflTransGen.cases_tail (hcfg.reachable l v hv) with heq | ⟨p, -, hp⟩
  · exact absurd heq hne
  · exact ⟨p, hp⟩

/-- While the operands of a phi are collected, no other block refers to it. The block of the phi
is defined, no matter if the variable reaches it. -/
structure Collecting (cfg : TypedUnit) (name : String) (label : ℤ) (n : ℕ) (s s' : State) :
    Prop where
  lookup : Lookup cfg name (before cfg label) {s.value} s s'
  live : s'.Live
  value_lt : s.value < s'.value
  own : ∃ y, s'.valueToVariable.find? s.value = some y
  present : s.value ∉ s'.erasedPhiCandidates
  hidden : ∀ l, l ≠ label → s'.definition name l ≠ some s.value
  phi : ∃ operands, s'.valueToPhiCandidate.find? s.value =
      some ⟨name, label, s.value, operands, []⟩ ∧ operands.length = n ∧
    ∀ v ∈ operands, v ≠ s.value ∧ (∃ y, s'.valueToVariable.find? v = some y) ∧
      (s.value ≤ v ∨ ∃ l ∈ before cfg label, s.definition name l = some v)
  new : ∀ l ≠ label, s'.definition name l ≠ none → s.definition name l ≠ none ∨
    l ∈ s.sealedBasicBlocks ∧ s.Reaches cfg name l

theorem Collecting.reaches (hcfg : cfg.LoopFree) {n : ℕ} {s s₁ : State} {p l : ℤ}
    (h : Collecting cfg name label n s s₁) (hp : cfg.Precedes p label) (hl : l ∈ before cfg p)
    (hreaches : s₁.Reaches cfg name l) : s.Reaches cfg name l := by
  refine hreaches.of_reaches fun l' hl' hdef => ?_
  have hne : l' ≠ label := by
    rintro rfl
    exact notMem_before hcfg hp (ReflTransGen.trans hl' hl)
  rcases h.new l' hne hdef with hold | ⟨-, hr⟩
  · exact .here hold
  · exact hr

/-- An operand is looked up and added. -/
theorem Collecting.append (hcfg : cfg.LoopFree) {n : ℕ} {s s₁ s₂ : State} {p : ℤ} {v : ℕ}
    (h : Collecting cfg name label n s s₁) (hp : cfg.Precedes p label)
    (hfound : Found cfg name p s₁ v s₂) :
    Collecting cfg name label (n + 1) s (appendOperand s.value v s₂) := by
  have hnot : ∀ l ∈ before cfg p, s₁.definition name l ≠ some s.value := fun l hl =>
    h.hidden l fun heq => notMem_before hcfg hp (heq ▸ hl)
  have hne : v ≠ s.value := by
    rintro rfl
    rcases hfound.origin with hnew | ⟨l, hl, hdef⟩
    · exact absurd h.value_lt (Nat.not_lt.mpr hnew)
    · exact hnot l hl hdef
  have horigin : s.value ≤ v ∨ ∃ l ∈ before cfg label, s.definition name l = some v := by
    rcases hfound.origin with hnew | ⟨l, hl, hdef⟩
    · exact Or.inl (h.lookup.value_le.trans hnew)
    · exact h.lookup.values l (before_subset hp hl) v hdef
  have hlookup := h.lookup.trans (before_subset hp) hfound.lookup
  obtain ⟨m, hm⟩ := appendOperand_eq s.value v s₂
  obtain ⟨operands, hphi, hlength, hoperands⟩ := h.phi
  have hphi₂ : s₂.valueToPhiCandidate.find? s.value =
      some ⟨name, label, s.value, operands, []⟩ :=
    (hfound.lookup.untouched s.value h.value_lt hnot).trans hphi
  refine {
    lookup := hlookup.appendOperand (le_refl _) hne horigin
    live := hfound.live.appendOperand hne
    value_lt := ?_
    own := ?_
    present := ?_
    hidden := ?_
    phi := ⟨operands ++ [v], ?_, by simp [hlength], ?_⟩
    new := ?_ }
  · rw [hm]
    exact lt_of_lt_of_le h.value_lt hfound.lookup.value_le
  · rw [hm]
    obtain ⟨y, hy⟩ := h.own
    exact ⟨y, (hfound.lookup.owned s.value h.value_lt).trans hy⟩
  · rw [hm]
    exact fun hmem => h.present ((hfound.lookup.erased s.value h.value_lt).mp hmem)
  · rw [hm]
    intro l hl hdef
    change s₂.definition name l = some s.value at hdef
    by_cases hmem : l ∈ before cfg p
    · rcases hfound.lookup.values l hmem s.value hdef with hnew | ⟨l', hl', hold⟩
      · exact absurd h.value_lt (Nat.not_lt.mpr hnew)
      · exact hnot l' hl' hold
    · rcases hfound.lookup.definitions name l with hsame | ⟨-, hl', -⟩
      · exact h.hidden l hl (hsame ▸ hdef)
      · exact hmem hl'
  · rcases find?_appendOperand hne s₂ s.value with hfind | ⟨heq, -⟩
    · rw [hfind, if_pos rfl, hphi₂]
      rfl
    · exact absurd heq.symm hne
  · intro w hw
    rw [hm]
    rcases List.mem_append.mp hw with hw | hw
    · obtain ⟨hwne, ⟨y, hy⟩, hworigin⟩ := hoperands w hw
      refine ⟨hwne, ⟨y, ?_⟩, hworigin⟩
      exact (hfound.lookup.owned w (h.live.owned w y hy)).trans hy
    · obtain rfl := List.mem_singleton.mp hw
      exact ⟨hne, hfound.result, horigin⟩
  · rw [hm]
    intro l hl hdef
    change s₂.definition name l ≠ none at hdef
    rcases hfound.lookup.definitions name l with hsame | ⟨-, hl', -⟩
    · exact h.new l hl (hsame ▸ hdef)
    · rcases hfound.new l hdef with hold | ⟨hsealed, hr⟩
      · exact h.new l hl hold
      · exact Or.inr ⟨h.lookup.isSealed ▸ hsealed, h.reaches hcfg hp hl' hr⟩

/-- A lookup that succeeds in a block before this one has found a value. -/
def FindsBefore (cfg : TypedUnit) (read : String → ℤ → State → Except String (ℕ × State))
    (name : String) (label : ℤ) : Prop :=
  ∀ p, cfg.Precedes p label → ∀ s v s', s.Live → read name p s = .ok (v, s') →
    Found cfg name p s v s'

/-- A lookup succeeds in a block before this one where the variable reaches it. -/
def SucceedsBefore (cfg : TypedUnit) (read : String → ℤ → State → Except String (ℕ × State))
    (name : String) (label : ℤ) : Prop :=
  ∀ p, cfg.Precedes p label → ∀ s, (∀ l ∈ before cfg p, l ∈ s.sealedBasicBlocks) →
    s.Reaches cfg name p → s.Live → ∃ v s', read name p s = .ok (v, s')

variable {read : String → ℤ → State → Except String (ℕ × State)}

theorem collect (hcfg : cfg.LoopFree) (hread : FindsBefore cfg read name label) {ls : List ℤ}
    (hls : ∀ p ∈ ls, cfg.Precedes p label) {n : ℕ} {s₁ s₂ : State}
    (h : Collecting cfg name label n s s₁)
    (hok : ls.foldlM (fun s' p => do
        let (operand, s') ← read name p s'
        Except.ok (appendOperand s.value operand s')) s₁ = .ok s₂) :
    Collecting cfg name label (n + ls.length) s s₂ ∧ ∀ p ∈ ls, s.Reaches cfg name p := by
  induction ls generalizing n s₁ with
  | nil =>
    cases hok
    exact ⟨h, nofun⟩
  | cons p ls ih =>
    rw [List.forall_mem_cons] at hls ⊢
    obtain ⟨s₃, hstep, hrest⟩ := bind_eq_ok hok
    obtain ⟨⟨v, s₄⟩, hv, hok⟩ := bind_eq_ok hstep
    cases hok
    have hfound := hread p hls.1 s₁ v s₄ h.live hv
    obtain ⟨hcollecting, hreaches⟩ := ih hls.2 (h.append hcfg hls.1 hfound) hrest
    rw [List.length_cons, Nat.add_comm ls.length, ← Nat.add_assoc]
    exact ⟨hcollecting, h.reaches hcfg hls.1 .refl hfound.reaches, hreaches⟩

theorem exists_collect (hcfg : cfg.LoopFree) (hread : FindsBefore cfg read name label)
    (hsucceeds : SucceedsBefore cfg read name label) {ls : List ℤ}
    (hls : ∀ p ∈ ls, cfg.Precedes p label) {n : ℕ} {s₁ : State}
    (hsealed : ∀ l ∈ before cfg label, l ∈ s.sealedBasicBlocks)
    (hreaches : ∀ p ∈ ls, s.Reaches cfg name p) (h : Collecting cfg name label n s s₁) :
    ∃ s₂, ls.foldlM (fun s' p => do
        let (operand, s') ← read name p s'
        Except.ok (appendOperand s.value operand s')) s₁ = .ok s₂ := by
  induction ls generalizing n s₁ with
  | nil => exact ⟨s₁, rfl⟩
  | cons p ls ih =>
    rw [List.forall_mem_cons] at hls hreaches
    have hkept : ∀ l, s.definition name l ≠ none → s₁.definition name l ≠ none := by
      intro l hdef
      obtain ⟨v, hv⟩ := Option.ne_none_iff_exists'.mp hdef
      rw [definition_of_lookup h.lookup hv]
      exact Option.some_ne_none v
    obtain ⟨v, s₂, hv⟩ := hsucceeds p hls.1 s₁
      (fun l hl => h.lookup.isSealed ▸ hsealed l (before_subset hls.1 hl))
      (hreaches.1.mono hkept) h.live
    obtain ⟨s₃, hs₃⟩ := ih hls.2 hreaches.2
      (h.append hcfg hls.1 (hread p hls.1 s₁ v s₂ h.live hv))
    refine ⟨s₃, ?_⟩
    rw [List.foldlM_cons, hv]
    exact hs₃

variable (cfg) in
/-- A phi is placed, and is the definition of its block from now on. -/
theorem collecting_start (hs : s.Live) (hnone : s.definition name label = none) {y : Variable} :
    Collecting cfg name label 0 s
      ({ s.define y with valueToPhiCandidate :=
          s.valueToPhiCandidate.emplace s.value ⟨name, label, s.value, [], []⟩ }.writeVariable
        name label s.value) := by
  have hself : label ∈ before cfg label := Relation.ReflTransGen.refl
  have hnew : ∀ v, s.valueToVariable.find? s.value ≠ some v := fun v hv =>
    absurd (hs.owned s.value v hv) (lt_irrefl _)
  have hphi : s.valueToPhiCandidate.find? s.value = none := by
    cases hfind : s.valueToPhiCandidate.find? s.value with
    | none => rfl
    | some phi => exact absurd (hs.candidates s.value phi hfind) (lt_irrefl _)
  refine {
    lookup := (Lookup.placePhi hs).writeVariable hself hnone (Or.inl (le_refl _))
    live := ⟨?_, ?_, ?_, ?_⟩
    value_lt := Nat.lt_succ_self s.value
    own := ⟨y, OrderedMap.find?_emplace_self _ (Option.eq_none_iff_forall_ne_some.mpr hnew)⟩
    present := fun hmem => absurd (hs.erased s.value hmem) (lt_irrefl _)
    hidden := ?_
    phi := ⟨[], OrderedMap.find?_emplace_self _ hphi, rfl, nofun⟩
    new := ?_ }
  · intro n l v hv
    rw [definition_writeVariable] at hv
    change ∃ x, (s.valueToVariable.emplace s.value y).find? v = some x
    rw [OrderedMap.find?_emplace]
    split_ifs at hv with heq
    · rw [if_pos (Option.some.inj hv).symm, Option.eq_none_iff_forall_ne_some.mpr hnew]
      exact ⟨y, rfl⟩
    · have hlt := hs.definition_lt (n := n) (l := l) hv
      rw [if_neg (Nat.ne_of_lt hlt)]
      exact hs.defined n l v hv
  · intro v x hx
    change (s.valueToVariable.emplace s.value y).find? v = some x at hx
    rw [OrderedMap.find?_emplace] at hx
    split_ifs at hx with heq
    · rw [heq]
      exact Nat.lt_succ_self s.value
    · exact Nat.lt_succ_of_lt (hs.owned v x hx)
  · intro v phi hv
    change (s.valueToPhiCandidate.emplace s.value _).find? v = some phi at hv
    rw [OrderedMap.find?_emplace] at hv
    split_ifs at hv with heq
    · rw [heq]
      exact Nat.lt_succ_self s.value
    · exact Nat.lt_succ_of_lt (hs.candidates v phi hv)
  · exact fun v hv => Nat.lt_succ_of_lt (hs.erased v hv)
  · intro l hl hdef
    rw [definition_writeVariable, if_neg (fun h => hl h.2)] at hdef
    exact absurd (hs.definition_lt (n := name) (l := l) hdef) (lt_irrefl _)
  · intro l hl hdef
    rw [definition_writeVariable, if_neg (fun h => hl h.2)] at hdef
    exact Or.inl hdef

theorem State.Live.writeVariable {l : ℤ} {v : ℕ} (hv : ∃ y, s.valueToVariable.find? v = some y)
    (howned : ∀ v x, s.valueToVariable.find? v = some x → v < s.value)
    (hcandidates : ∀ v phi, s.valueToPhiCandidate.find? v = some phi → v < s.value)
    (herased : ∀ v ∈ s.erasedPhiCandidates, v < s.value)
    (hother : ∀ n l' w, ¬(n = name ∧ l' = l) → s.definition n l' = some w →
      ∃ x, s.valueToVariable.find? w = some x) : (s.writeVariable name l v).Live where
  defined n l' w hw := by
    rw [definition_writeVariable] at hw
    split_ifs at hw with heq
    · rw [← Option.some.inj hw]
      exact hv
    · exact hother n l' w heq hw
  owned := howned
  candidates := hcandidates
  erased := herased

/-- A phi that is replaced by another value can be erased, as only its block refers to it. -/
theorem Collecting.live_erase {s₃ : State} {n same : ℕ} (hs : s.Live)
    (h : Collecting cfg name label n s s₃)
    (hresult : ∃ y, (s₃.erasePhiCandidate s.value).valueToVariable.find? same = some y) :
    ((s₃.erasePhiCandidate s.value).writeVariable name label same).Live := by
  refine .writeVariable hresult ?_ h.live.candidates ?_ ?_
  · intro v x hx
    unfold State.erasePhiCandidate at hx
    rw [OrderedMap.find?_erase] at hx
    split_ifs at hx
    exact h.live.owned v x hx
  · intro v hv
    rcases List.mem_cons.mp hv with rfl | hv
    · exact h.value_lt
    · exact h.live.erased v hv
  · intro n l w hother hw
    change s₃.definition n l = some w at hw
    have hwne : w ≠ s.value := by
      rintro rfl
      rcases h.lookup.definitions n l with hold | ⟨rfl, -, -⟩
      · exact absurd (hs.definition_lt (hold ▸ hw)) (lt_irrefl _)
      · exact h.hidden l (fun hl => hother ⟨rfl, hl⟩) hw
    unfold State.erasePhiCandidate
    rw [OrderedMap.find?_erase, if_neg hwne]
    exact h.live.defined n l w hw

/-- A collected phi stays or is replaced by its only operand. -/
theorem settle {s₃ : State} {n : ℕ} (hs : s.Live) (hnone : s.definition name label = none)
    (h : Collecting cfg name label n s s₃) (hn : n = (cfg.getPrecedingLabels label).length)
    (hpos : 0 < n) (hsealed : label ∈ s.sealedBasicBlocks) (hreaches : s.Reaches cfg name label)
    (fuel : ℕ) :
    ∃ v s₄, tryRemoveTrivialPhi (fuel + 1) s.value s₃ = .ok (v, s₄) ∧
      Found cfg name label s v (s₄.writeVariable name label v) := by
  obtain ⟨operands, hphi, hlength, hoperands⟩ := h.phi
  have hself : label ∈ before cfg label := Relation.ReflTransGen.refl
  have hnonempty : operands ≠ [] := by
    rintro rfl
    rw [← hlength] at hpos
    exact lt_irrefl 0 hpos
  have hnew : ∀ v l, (s₃.writeVariable name label v).definition name l ≠ none →
      s.definition name l ≠ none ∨ l ∈ s.sealedBasicBlocks ∧ s.Reaches cfg name l := by
    intro v l hdef
    by_cases hl : l = label
    · subst hl
      exact Or.inr ⟨hsealed, hreaches⟩
    · rw [definition_writeVariable, if_neg fun heq => hl heq.2] at hdef
      exact h.new l hl hdef
  unfold tryRemoveTrivialPhi
  simp only [hphi]
  cases hsame : findSame s.value operands none with
  | none =>
    -- two operands differ, and the phi stays
    have hcomplete : (⟨name, label, s.value, operands, []⟩ : PhiCandidate).IsComplete cfg :=
      hlength.trans hn
    refine ⟨s.value, s₃, rfl, ?_⟩
    exact {
      lookup := (h.lookup.finish hphi hcomplete).writeVariable hself hnone (Or.inl (le_refl _))
      live := .writeVariable h.own h.live.owned h.live.candidates h.live.erased
        fun n l w _ hw => h.live.defined n l w hw
      result := h.own
      origin := Or.inl (le_refl _)
      reaches := hreaches
      new := hnew s.value }
  | some same? =>
    cases same? with
    | none => exact absurd hsame (findSame_ne (fun v hv => (hoperands v hv).1) (Or.inl hnonempty))
    | some same =>
      have hmem : same ∈ operands := (findSame_mem hsame).resolve_right nofun
      obtain ⟨hne, ⟨y, hy⟩, horigin⟩ := hoperands same hmem
      refine ⟨same, s₃.erasePhiCandidate s.value, rfl, ?_⟩
      have hresult : ∃ y, (s₃.erasePhiCandidate s.value).valueToVariable.find? same = some y := by
        refine ⟨y, ?_⟩
        unfold State.erasePhiCandidate
        rw [OrderedMap.find?_erase, if_neg hne]
        exact hy
      exact {
        lookup := (h.lookup.erasePhiCandidate (le_refl _)).writeVariable hself hnone horigin
        live := h.live_erase hs hresult
        result := hresult
        origin := horigin
        reaches := hreaches
        new := hnew same }

noncomputable def distance (cfg : TypedUnit) (label : ℤ) : ℕ :=
  AcyclicGraph.depth cfg.Precedes cfg.labelToVertex.keys label

theorem distance_lt (hcfg : cfg.LoopFree) {p : ℤ} (hp : cfg.Precedes p label) :
    distance cfg p < distance cfg label := by
  obtain ⟨e, he, rfl, -⟩ := BlockCfg.precedes_iff.mp hp
  exact AcyclicGraph.depth_lt_depth (.of_wellFounded hcfg.acyclic)
    (OrderedMap.mem_keys_iff.mpr (hcfg.source e he)) hp

theorem distance_lt_length (hcfg : cfg.LoopFree) {l : ℤ}
    (hl : ∃ v, cfg.labelToVertex.find? l = some v) :
    distance cfg l < cfg.labelToVertex.entries.length := by
  have hlt := AcyclicGraph.depth_lt_length (.of_wellFounded hcfg.acyclic)
    (OrderedMap.mem_keys_iff.mpr hl)
  rw [OrderedMap.keys, List.length_map] at hlt
  exact hlt

theorem readVariable_defined {fuel : ℕ} {v : ℕ} (h : s.definition name label = some v) :
    readVariable cfg (fuel + 1) name label s = .ok (v, s) := by
  unfold State.definition at h
  obtain ⟨definitions, hname, hlabel⟩ := Option.bind_eq_some_iff.mp h
  unfold readVariable
  rw [hname]
  dsimp only
  rw [hlabel]

theorem readVariable_undefined {fuel : ℕ} {l : ℤ} (hname : s.definition name l ≠ none)
    (h : s.definition name label = none) :
    readVariable cfg (fuel + 1) name label s =
      readVariableRecursive cfg (readVariable cfg fuel) name label s := by
  obtain ⟨v, hname⟩ := Option.ne_none_iff_exists'.mp hname
  unfold State.definition at h hname
  obtain ⟨definitions, hname, -⟩ := Option.bind_eq_some_iff.mp hname
  rw [hname, Option.bind_some] at h
  rw [readVariable, hname]
  dsimp only
  rw [h]

theorem readVariable_undefined_ok {fuel : ℕ} {v : ℕ} (h : s.definition name label = none)
    (hok : readVariable cfg (fuel + 1) name label s = .ok (v, s')) :
    label ∈ s.sealedBasicBlocks ∧
      ∃ s₁, readBefore cfg (readVariable cfg fuel) name label s = .ok (v, s₁) ∧
        s' = s₁.writeVariable name label v := by
  unfold readVariable at hok
  unfold State.definition at h
  cases hfind : s.currentDefinitions.find? name with
  | none =>
    rw [hfind] at hok
    cases hok
  | some definitions =>
    rw [hfind, Option.bind_some] at h
    rw [hfind] at hok
    dsimp only at hok
    rw [h] at hok
    change readVariableRecursive cfg (readVariable cfg fuel) name label s = _ at hok
    unfold readVariableRecursive at hok
    split_ifs at hok with hsealed
    obtain ⟨⟨w, s₁⟩, hbefore, hok⟩ := bind_eq_ok hok
    cases hok
    exact ⟨hsealed, s₁, hbefore, rfl⟩

theorem found_of_single {p : ℤ} {v : ℕ} (hs : s.Live) (hp : cfg.getPrecedingLabels label = [p])
    (hsealed : label ∈ s.sealedBasicBlocks) (hnone : s.definition name label = none)
    (h : Found cfg name p s v s') : Found cfg name label s v (s'.writeVariable name label v) := by
  have hself : label ∈ before cfg label := Relation.ReflTransGen.refl
  have hprecedes : cfg.Precedes p label := by
    unfold BlockCfg.Precedes
    rw [hp]
    exact List.mem_singleton_self p
  have horigin : s.value ≤ v ∨ ∃ l ∈ before cfg label, s.definition name l = some v :=
    h.origin.imp_right fun ⟨l, hl, hdef⟩ => ⟨l, before_subset hprecedes hl, hdef⟩
  have hlookup : Lookup cfg name (before cfg label) ∅ s s' :=
    (Lookup.refl hs).trans (before_subset hprecedes) h.lookup
  have hreaches : s.Reaches cfg name label := by
    refine .before (by simp [hp]) (Or.inl (by simp [hp])) fun q hq => ?_
    unfold BlockCfg.Precedes at hq
    rw [hp] at hq
    rw [List.mem_singleton.mp hq]
    exact h.reaches
  exact {
    lookup := hlookup.writeVariable hself hnone horigin
    live := .writeVariable h.result h.live.owned h.live.candidates h.live.erased
      fun n l w _ hw => h.live.defined n l w hw
    result := h.result
    origin := horigin
    reaches := hreaches
    new := by
      intro l hdef
      by_cases hl : l = label
      · subst hl
        exact Or.inr ⟨hsealed, hreaches⟩
      · rw [definition_writeVariable, if_neg fun heq => hl heq.2] at hdef
        exact h.new l hdef }

theorem tryRemoveTrivialPhi_nil {fuel x : ℕ} {n : String} {l : ℤ}
    (h : s.valueToPhiCandidate.find? x = some ⟨n, l, x, [], []⟩) :
    tryRemoveTrivialPhi (fuel + 1) x s = .error "Not implemented yet." := by
  unfold tryRemoveTrivialPhi
  rw [h]
  rfl

variable (read) in
theorem placed_eq (hs : s.Live) (hnone : s.definition name label = none)
    (hvariable : hasVariable cfg name = true) : ∃ s₁, Collecting cfg name label 0 s s₁ ∧
      (do
        let (value, s) ← placeOperandlessPhi cfg name label s
        addPhiOperands cfg read name value (s.writeVariable name label value)) =
      (do
        let s₂ ← (cfg.getPrecedingLabels label).foldlM (fun s' p => do
          let (operand, s') ← read name p s'
          Except.ok (appendOperand s.value operand s')) s₁
        tryRemoveTrivialPhi (s₂.valueToPhiCandidate.entries.length + 1) s.value s₂) := by
  obtain ⟨y, hy⟩ := Option.isSome_iff_exists.mp hvariable
  have hstart := collecting_start cfg hs hnone
    (y := ⟨versioned name s.value, y.dataType, y.storageType, none⟩)
  obtain ⟨operands, hphi, -, -⟩ := hstart.phi
  refine ⟨_, hstart, ?_⟩
  unfold placeOperandlessPhi
  rw [hy]
  change addPhiOperands cfg read name s.value _ = _
  unfold addPhiOperands State.findPhiCandidate
  rw [if_neg hstart.present, hphi]

theorem hasVariable_of_placed {r : ℕ × State} (hok : (do
      let (value, s) ← placeOperandlessPhi cfg name label s
      addPhiOperands cfg read name value (s.writeVariable name label value)) = .ok r) :
    hasVariable cfg name = true := by
  obtain ⟨r', hplaced, -⟩ := bind_eq_ok hok
  unfold placeOperandlessPhi at hplaced
  unfold hasVariable
  cases hy : cfg.interface.getVariables.find? (·.name = name) with
  | none =>
    rw [hy] at hplaced
    cases hplaced
  | some y => rfl

theorem found_of_phi (hcfg : cfg.LoopFree) (hs : s.Live) (hsealed : label ∈ s.sealedBasicBlocks)
    (hnone : s.definition name label = none) (hread : FindsBefore cfg read name label) {v : ℕ}
    (hok : (do
        let (value, s) ← placeOperandlessPhi cfg name label s
        addPhiOperands cfg read name value (s.writeVariable name label value)) = .ok (v, s')) :
    Found cfg name label s v (s'.writeVariable name label v) := by
  have hvariable := hasVariable_of_placed hok
  obtain ⟨s₁, hstart, heq⟩ := placed_eq read hs hnone hvariable
  rw [heq] at hok
  obtain ⟨s₂, hfold, hok⟩ := bind_eq_ok hok
  obtain ⟨hcollected, hreaches⟩ := collect hcfg hread (fun p hp => hp) hstart hfold
  rw [Nat.zero_add] at hcollected
  have hne : cfg.getPrecedingLabels label ≠ [] := by
    intro hnil
    obtain ⟨operands, hphi, hlength, -⟩ := hcollected.phi
    rw [hnil, List.length_nil] at hlength
    rw [List.length_eq_zero_iff.mp hlength] at hphi
    rw [tryRemoveTrivialPhi_nil hphi] at hok
    cases hok
  obtain ⟨w, s₃, hw, hfound⟩ := settle hs hnone hcollected rfl (List.length_pos_iff.mpr hne)
    hsealed (.before hne (Or.inr hvariable) hreaches) s₂.valueToPhiCandidate.entries.length
  rw [hok] at hw
  cases hw
  exact hfound

theorem readVariable_found (hcfg : cfg.LoopFree) {fuel v : ℕ} (hs : s.Live)
    (hok : readVariable cfg fuel name label s = .ok (v, s')) : Found cfg name label s v s' := by
  induction fuel generalizing label s v s' with
  | zero => cases hok
  | succ fuel ih =>
    cases hdef : s.definition name label with
    | some w =>
      rw [readVariable_defined hdef] at hok
      cases hok
      have hne : s.definition name label ≠ none := by
        rw [hdef]
        exact Option.some_ne_none v
      exact ⟨.refl hs, hs, hs.defined _ _ _ hdef, Or.inr ⟨label, .refl, hdef⟩, .here hne,
        fun _ => Or.inl⟩
    | none =>
      obtain ⟨hsealed, s₁, hbefore, rfl⟩ := readVariable_undefined_ok hdef hok
      unfold readBefore at hbefore
      rw [readingLabels_eq hcfg] at hbefore
      split at hbefore
      · rename_i p hlabels
        exact found_of_single hs hlabels hsealed hdef (ih hs hbefore)
      · exact found_of_phi hcfg hs hsealed hdef (fun p _ s v s' hs hok => ih hs hok) hbefore

theorem exists_readVariable (hcfg : cfg.LoopFree) {fuel : ℕ} (hfuel : distance cfg label < fuel)
    (hsealed : ∀ l ∈ before cfg label, l ∈ s.sealedBasicBlocks)
    (hreaches : s.Reaches cfg name label) (hs : s.Live) :
    ∃ v s', readVariable cfg fuel name label s = .ok (v, s') := by
  induction fuel generalizing label s with
  | zero => exact absurd hfuel (Nat.not_lt_zero _)
  | succ fuel ih =>
    cases hdef : s.definition name label with
    | some v => exact ⟨v, s, readVariable_defined hdef⟩
    | none =>
      obtain ⟨l, hl⟩ := hreaches.exists_definition
      have hself := hsealed label .refl
      have hsucceeds : SucceedsBefore cfg (readVariable cfg fuel) name label :=
        fun p hp s hsealed hreaches hs => by
          have hless := distance_lt hcfg hp
          exact ih (by omega) hsealed hreaches hs
      rw [readVariable_undefined hl hdef]
      unfold readVariableRecursive
      rw [if_pos hself]
      unfold readBefore
      rw [readingLabels_eq hcfg]
      cases hreaches with
      | here h => exact absurd hdef h
      | before hne hjoin hpreceding =>
        split
        · rename_i p hlabels
          have hp : cfg.Precedes p label := by
            unfold BlockCfg.Precedes
            rw [hlabels]
            exact List.mem_singleton_self p
          obtain ⟨v, s₁, hv⟩ := hsucceeds p hp s (fun l hl => hsealed l (before_subset hp hl))
            (hpreceding p hp) hs
          rw [hv]
          exact ⟨v, _, rfl⟩
        · rename_i hnot
          have hvariable : hasVariable cfg name = true := by
            refine hjoin.resolve_left fun hone => ?_
            obtain ⟨p, hp⟩ := List.length_eq_one_iff.mp hone
            exact hnot p hp
          have hread : FindsBefore cfg (readVariable cfg fuel) name label :=
            fun p _ s v s' hs hok => readVariable_found hcfg hs hok
          obtain ⟨s₁, hstart, heq⟩ := placed_eq (readVariable cfg fuel) hs hdef hvariable
          obtain ⟨s₂, hs₂⟩ := exists_collect hcfg hread hsucceeds (fun p hp => hp) hsealed
            hpreceding hstart
          obtain ⟨hcollected, -⟩ := collect hcfg hread (fun p hp => hp) hstart hs₂
          rw [Nat.zero_add] at hcollected
          obtain ⟨v, s₃, hv, -⟩ := settle hs hdef hcollected rfl (List.length_pos_iff.mpr hne)
            hself (.before hne hjoin hpreceding) s₂.valueToPhiCandidate.entries.length
          rw [heq, hs₂]
          change ∃ v s', (tryRemoveTrivialPhi _ s.value s₂ >>= _) = _
          rw [hv]
          exact ⟨v, _, rfl⟩

end Reading

end SsaPass

end Ahorn
