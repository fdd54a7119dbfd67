import Ahorn.SsaReading

set_option autoImplicit false

/-!
# Visiting blocks

The instructions of a block are visited one after the other. A visit succeeds if every variable that
is read is known: it has been written in the block, or it can be looked up in the blocks before.
-/
namespace Ahorn

def Expression.readNames : Expression → List String
  | .binary _ l r => l.readNames ++ r.readNames
  | .unary _ e => e.readNames
  | .reference (.variableAccess v) => [v.name]
  | _ => []

def Instruction.readNames : Instruction → List String
  | assignmentInstruction _ _ e => e.readNames
  | ifInstruction e _ _ => e.readNames
  | _ => []

def Instruction.writtenNames : Instruction → List String
  | assignmentInstruction _ (.variableAccess v) _ => [v.name]
  | havocInstruction (.variableAccess v) => [v.name]
  | _ => []

namespace SsaPass

/-- The next value, and the names of what has been written in a block so far. -/
abbrev Known := ℕ × List String

section Reads

variable (outer : String → Bool) (introduced : ℕ → List String)

/-- What is known behind an expression, if all that it reads is known or comes from outside. A
constant may introduce names. -/
def readsExpression : Expression → Known → Option Known
  | .binary _ l r, w => (readsExpression l w).bind (readsExpression r)
  | .unary _ e, w => readsExpression e w
  | .booleanConstant _, w | .integerConstant _, w | .enumeratedValue _, w =>
    some (w.1 + 1, introduced w.1 ++ w.2)
  | .reference (.variableAccess v), w => if v.name ∈ w.2 ∨ outer v.name = true then some w else none
  | .reference (.fieldAccess _ _), w => some w
  | .timeConstant _, _ | .nondeterministicConstant _, _ | .change _ _, _ | .booleanToInteger _, _
  | .integerToBoolean _, _ => none

def readsInstruction : Instruction → Known → Option Known
  | .assignmentInstruction .regular (.variableAccess v) e, w =>
    (readsExpression outer introduced e w).map fun w => (w.1 + 1, v.name :: w.2)
  | .ifInstruction e _ _, w => readsExpression outer introduced e w
  | .havocInstruction (.variableAccess v), w => some (w.1 + 1, v.name :: w.2)
  | _, _ => none

def readsBlock : List Instruction → Known → Option Known
  | [], w => some w
  | i :: is, w => (readsInstruction outer introduced i w).bind (readsBlock is)

end Reads

theorem mem_readsExpression {outer : String → Bool} {e : Expression} {w w' : Known}
    (h : readsExpression outer (fun _ => []) e w = some w') : w'.2 = w.2 := by
  induction e generalizing w w' with
  | binary op l r ihl ihr =>
    obtain ⟨w₁, hl, hr⟩ := Option.bind_eq_some_iff.mp h
    rw [ihr hr, ihl hl]
  | unary op e ih => exact ih h
  | booleanConstant _ | integerConstant _ | enumeratedValue _ =>
    cases h
    rfl
  | reference r =>
    cases r with
    | variableAccess v =>
      unfold readsExpression at h
      split_ifs at h
      cases h
      rfl
    | fieldAccess _ _ =>
      cases h
      rfl
  | timeConstant _ | nondeterministicConstant _ | change _ _ | booleanToInteger _
  | integerToBoolean _ => cases h

theorem mem_readsInstruction {outer : String → Bool} {i : Instruction} {w w' : Known} {n : String}
    (h : readsInstruction outer (fun _ => []) i w = some w') :
    n ∈ w'.2 ↔ n ∈ i.writtenNames ∨ n ∈ w.2 := by
  cases i with
  | assignmentInstruction type r e =>
    cases type with
    | parameterIn | parameterOut => cases h
    | regular =>
      cases r with
      | fieldAccess _ _ => cases h
      | variableAccess v =>
        obtain ⟨w₁, he, rfl⟩ := Option.map_eq_some_iff.mp h
        simp [Instruction.writtenNames, mem_readsExpression he]
  | ifInstruction e _ _ => simp [Instruction.writtenNames, mem_readsExpression h]
  | havocInstruction r =>
    cases r with
    | fieldAccess _ _ => cases h
    | variableAccess v =>
      cases h
      simp [Instruction.writtenNames]
  | callInstruction _ _ _ | gotoInstruction _ | whileInstruction _ _ _ => cases h

def writtenNames (is : List Instruction) : List String := is.flatMap Instruction.writtenNames

theorem mem_readsBlock {outer : String → Bool} {is : List Instruction} {w w' : Known} {n : String}
    (h : readsBlock outer (fun _ => []) is w = some w') :
    n ∈ w'.2 ↔ n ∈ writtenNames is ∨ n ∈ w.2 := by
  induction is generalizing w with
  | nil =>
    cases h
    simp [writtenNames]
  | cons i is ih =>
    obtain ⟨w₁, hi, his⟩ := Option.bind_eq_some_iff.mp h
    rw [ih his, mem_readsInstruction hi]
    simp [writtenNames, or_left_comm, or_assoc]

/-- No phi lacks an operand. -/
def State.IsComplete (cfg : TypedUnit) (s : State) : Prop :=
  ∀ v phi, s.valueToPhiCandidate.find? v = some phi → v ∉ s.erasedPhiCandidates →
    phi.IsComplete cfg

section Success

variable {cfg : TypedUnit} {names : List String} {fuel : ℕ} {label : ℤ}
variable {outer : String → Bool} {introduced : ℕ → List String} {K : Known → State → Prop}
variable {w w' : Known} {s s' : State}

/-- What is said about a state and what is known is kept up by what a visit writes. -/
structure Keeps (label : ℤ) (introduced : ℕ → List String) (K : Known → State → Prop) : Prop where
  constant : ∀ {w s} t e, K w s →
    K (w.1 + 1, introduced w.1 ++ w.2) (introduceConstant label t e s).2
  write : ∀ {w s} name fresh i, K w s → K (w.1 + 1, name :: w.2) (writeFresh label name fresh i s)
  insert : ∀ {w s} i, K w s → K w (s.insertInstruction i label false)

/-- What is known or comes from outside can be read. -/
structure Carries (cfg : TypedUnit) (fuel : ℕ) (label : ℤ) (outer : String → Bool)
    (introduced : ℕ → List String) (K : Known → State → Prop) : Prop
    extends Keeps label introduced K where
  read : ∀ {name w s}, K w s → (name ∈ w.2 ∨ outer name = true) →
    ∃ v s', readVariable cfg fuel name label s = .ok (v, s') ∧ K w s' ∧
      ∃ y, s'.valueToVariable.find? v = some y

/-- What can be read is known or comes from outside, as far as the names in `P` go. -/
structure Follows (cfg : TypedUnit) (fuel : ℕ) (label : ℤ) (P : String → Prop)
    (outer : String → Bool) (introduced : ℕ → List String) (K : Known → State → Prop) : Prop
    extends Keeps label introduced K where
  read : ∀ {name w s v s'}, K w s → P name → readVariable cfg fuel name label s = .ok (v, s') →
    (name ∈ w.2 ∨ outer name = true) ∧ K w s'

theorem encode_ok (hK : Carries cfg fuel label outer introduced K) {e : Expression}
    (hs : K w s) (hw : readsExpression outer introduced e w = some w') :
    ∃ e' s', encode cfg fuel label e s = .ok (e', s') ∧ K w' s' := by
  induction e generalizing w w' s with
  | binary op l r ihl ihr =>
    obtain ⟨w₁, hl, hr⟩ := Option.bind_eq_some_iff.mp hw
    obtain ⟨l', s₁, hl', hs₁⟩ := ihl hs hl
    obtain ⟨r', s₂, hr', hs₂⟩ := ihr hs₁ hr
    refine ⟨.binary op l' r', s₂, ?_, hs₂⟩
    rw [encode, hl']
    change (encode cfg fuel label r s₁ >>= _) = _
    rw [hr']
    rfl
  | unary op e ih =>
    obtain ⟨e', s₁, he', hs₁⟩ := ih hs hw
    refine ⟨.unary op e', s₁, ?_, hs₁⟩
    rw [encode, he']
    rfl
  | booleanConstant b =>
    cases hw
    exact ⟨_, _, rfl, hK.constant .bool _ hs⟩
  | integerConstant i | enumeratedValue i =>
    cases hw
    exact ⟨_, _, rfl, hK.constant .int _ hs⟩
  | reference r =>
    cases r with
    | variableAccess v =>
      unfold readsExpression at hw
      split_ifs at hw with hname
      cases hw
      obtain ⟨value, s₁, hvalue, hs₁, y, hy⟩ := hK.read hs hname
      refine ⟨.reference (.variableAccess y), s₁, ?_, hs₁⟩
      rw [encode, hvalue]
      change (s₁.variableAt value >>= _) = _
      unfold State.variableAt
      rw [hy]
      rfl
    | fieldAccess record r =>
      cases hw
      exact ⟨_, _, rfl, hs⟩
  | timeConstant _ | nondeterministicConstant _ | change _ _ | booleanToInteger _
  | integerToBoolean _ => cases hw

variable (names) in
theorem visit_ok (hK : Carries cfg fuel label outer introduced K) {i : Instruction} (hs : K w s)
    (hw : readsInstruction outer introduced i w = some w') :
    ∃ s', visit cfg names fuel label i s = .ok s' ∧ K w' s' := by
  cases i with
  | assignmentInstruction type r e =>
    cases type with
    | parameterIn | parameterOut => cases hw
    | regular =>
      cases r with
      | fieldAccess _ _ => cases hw
      | variableAccess v =>
        obtain ⟨w₁, he, rfl⟩ := Option.map_eq_some_iff.mp hw
        obtain ⟨e', s₁, he', hs₁⟩ := encode_ok hK hs he
        refine ⟨_, ?_, hK.write v.name (freshVariable (assignedName v.name s₁.value) v)
          (.assignmentInstruction .regular
            (.variableAccess (freshVariable (assignedName v.name s₁.value) v)) e') hs₁⟩
        change (encode cfg fuel label e s >>= _) = _
        rw [he']
        rfl
  | ifInstruction e gotoThen gotoElse =>
    obtain ⟨e', s₁, he', hs₁⟩ := encode_ok hK hs hw
    refine ⟨_, ?_, hK.insert (.instruction (.ifInstruction e' gotoThen gotoElse)) hs₁⟩
    change (encode cfg fuel label e s >>= _) = _
    rw [he']
    rfl
  | havocInstruction r =>
    cases r with
    | fieldAccess _ _ => cases hw
    | variableAccess v =>
      cases hw
      let fresh := freshVariable (assignedName v.name s.value) v
      exact ⟨_, rfl, hK.write v.name fresh (.havocInstruction (.variableAccess fresh)) hs⟩
  | callInstruction _ _ _ | gotoInstruction _ | whileInstruction _ _ _ => cases hw

variable (names) in
theorem visitAll_ok (hK : Carries cfg fuel label outer introduced K) {is : List Instruction}
    (hs : K w s) (hw : readsBlock outer introduced is w = some w') :
    ∃ s', is.foldlM (fun s i => visit cfg names fuel label i s) s = .ok s' ∧ K w' s' := by
  induction is generalizing w s with
  | nil =>
    cases hw
    exact ⟨s, rfl, hs⟩
  | cons i is ih =>
    obtain ⟨w₁, hi, his⟩ := Option.bind_eq_some_iff.mp hw
    obtain ⟨s₁, hs₁, hK₁⟩ := visit_ok names hK hs hi
    obtain ⟨s₂, hs₂, hK₂⟩ := ih hK₁ his
    refine ⟨s₂, ?_, hK₂⟩
    rw [List.foldlM_cons, hs₁]
    exact hs₂

variable {P : String → Prop}

theorem encode_reads (hK : Follows cfg fuel label P outer introduced K) {e e' : Expression}
    (hs : K w s) (hP : ∀ n ∈ e.readNames, P n) (hok : encode cfg fuel label e s = .ok (e', s')) :
    ∃ w', readsExpression outer introduced e w = some w' ∧ K w' s' := by
  induction e generalizing w s e' s' with
  | binary op l r ihl ihr =>
    unfold Expression.readNames at hP
    rw [List.forall_mem_append] at hP
    obtain ⟨⟨l', s₁⟩, hl, hok⟩ := bind_eq_ok hok
    obtain ⟨⟨r', s₂⟩, hr, hok⟩ := bind_eq_ok hok
    cases hok
    obtain ⟨w₁, hl, hs₁⟩ := ihl hs hP.1 hl
    obtain ⟨w₂, hr, hs₂⟩ := ihr hs₁ hP.2 hr
    refine ⟨w₂, ?_, hs₂⟩
    rw [readsExpression, hl]
    exact hr
  | unary op e ih =>
    obtain ⟨⟨e₁, s₁⟩, he, hok⟩ := bind_eq_ok hok
    cases hok
    exact ih hs hP he
  | booleanConstant b =>
    cases hok
    exact ⟨_, rfl, hK.constant .bool _ hs⟩
  | integerConstant i | enumeratedValue i =>
    cases hok
    exact ⟨_, rfl, hK.constant .int _ hs⟩
  | reference r =>
    cases r with
    | variableAccess v =>
      obtain ⟨⟨value, s₁⟩, hvalue, hok⟩ := bind_eq_ok hok
      obtain ⟨y, -, hok⟩ := bind_eq_ok hok
      cases hok
      obtain ⟨hname, hs₁⟩ := hK.read hs (hP v.name (List.mem_singleton_self _)) hvalue
      exact ⟨w, if_pos hname, hs₁⟩
    | fieldAccess record r =>
      cases hok
      exact ⟨w, rfl, hs⟩
  | timeConstant _ | nondeterministicConstant _ | change _ _ | booleanToInteger _
  | integerToBoolean _ => cases hok

theorem visit_reads (hK : Follows cfg fuel label P outer introduced K) {i : Instruction}
    (hi : i.isCallFree = true) (hs : K w s) (hP : ∀ n ∈ i.readNames, P n)
    (hok : visit cfg names fuel label i s = .ok s') :
    ∃ w', readsInstruction outer introduced i w = some w' ∧ K w' s' := by
  cases i with
  | assignmentInstruction type r e =>
    cases type with
    | parameterIn | parameterOut => cases hi
    | regular =>
      obtain ⟨⟨e', s₁⟩, he, hok⟩ := bind_eq_ok hok
      cases r with
      | fieldAccess _ _ => cases hok
      | variableAccess v =>
        cases hok
        obtain ⟨w₁, hw, hs₁⟩ := encode_reads hK hs hP he
        refine ⟨_, congrArg (Option.map _) hw, hK.write v.name
          (freshVariable (assignedName v.name s₁.value) v) _ hs₁⟩
  | ifInstruction e gotoThen gotoElse =>
    obtain ⟨⟨e', s₁⟩, he, hok⟩ := bind_eq_ok hok
    cases hok
    obtain ⟨w₁, hw, hs₁⟩ := encode_reads hK hs hP he
    exact ⟨w₁, hw, hK.insert _ hs₁⟩
  | havocInstruction r =>
    cases r with
    | fieldAccess _ _ => cases hok
    | variableAccess v =>
      cases hok
      exact ⟨_, rfl, hK.write v.name _ _ hs⟩
  | callInstruction _ _ _ => cases hi
  | gotoInstruction _ | whileInstruction _ _ _ => cases hok

theorem visitAll_reads (hK : Follows cfg fuel label P outer introduced K) {is : List Instruction}
    (his : ∀ i ∈ is, i.isCallFree = true) (hs : K w s) (hP : ∀ i ∈ is, ∀ n ∈ i.readNames, P n)
    (hok : is.foldlM (fun s i => visit cfg names fuel label i s) s = .ok s') :
    ∃ w', readsBlock outer introduced is w = some w' ∧ K w' s' := by
  induction is generalizing w s with
  | nil =>
    cases hok
    exact ⟨w, rfl, hs⟩
  | cons i is ih =>
    rw [List.forall_mem_cons] at his hP
    obtain ⟨s₁, hi, hok⟩ := bind_eq_ok hok
    obtain ⟨w₁, hw₁, hs₁⟩ := visit_reads hK his.1 hs hP.1 hi
    obtain ⟨w₂, hw₂, hs₂⟩ := ih his.2 hs₁ hP.2 hok
    refine ⟨w₂, ?_, hs₂⟩
    rw [readsBlock, hw₁]
    exact hw₂

end Success

section Blocks

variable {cfg : TypedUnit} {names : List String} {fuel : ℕ} {label : ℤ} {name : String}
variable {s s₁ s' : State} {w w' : Known}

/-- A variable of the unit that is not temporary. -/
def declared (cfg : TypedUnit) (name : String) : Bool :=
  (cfg.interface.getVariables.filter (·.storageType ≠ .temporary)).any (·.name = name)

theorem exists_of_declared (h : declared cfg name = true) :
    ∃ y, cfg.interface.getVariables.find? (·.name = name) = some y := by
  obtain ⟨y, hy, hname⟩ := List.any_eq_true.mp h
  have hsome := List.find?_isSome (p := (·.name = name)).mpr ⟨y, (List.mem_filter.mp hy).1, hname⟩
  exact Option.isSome_iff_exists.mp hsome

/-- What the visit of a block leaves of a state. -/
structure Visited (cfg : TypedUnit) (label : ℤ) (s s' : State) : Prop where
  filled : s'.filledBasicBlocks = s.filledBasicBlocks
  isSealed : s'.sealedBasicBlocks = s.sealedBasicBlocks
  live : s'.Live
  complete : s'.IsComplete cfg
  kept : ∀ n l, s.definition n l ≠ none → s'.definition n l ≠ none
  new : ∀ n l, s'.definition n l ≠ none → s.definition n l ≠ none ∨ l = label ∨
    l ∈ s.sealedBasicBlocks

theorem State.Live.define (hs : s.Live) (y : Variable) : (s.define y).Live where
  defined n l v hv := by
    obtain ⟨x, hx⟩ := hs.defined n l v hv
    have hne : v ≠ s.value := Nat.ne_of_lt (hs.owned v x hx)
    exact ⟨x, (OrderedMap.find?_emplace_ne _ _ hne).trans hx⟩
  owned v x hx := by
    change (s.valueToVariable.emplace s.value y).find? v = some x at hx
    rw [OrderedMap.find?_emplace] at hx
    split_ifs at hx with heq
    · rw [heq]
      exact Nat.lt_succ_self s.value
    · exact Nat.lt_succ_of_lt (hs.owned v x hx)
  candidates v phi hv := Nat.lt_succ_of_lt (hs.candidates v phi hv)
  erased v hv := Nat.lt_succ_of_lt (hs.erased v hv)

theorem State.Live.exists_define (hs : s.Live) (y : Variable) :
    ∃ x, (s.define y).valueToVariable.find? s.value = some x := by
  have hnone : s.valueToVariable.find? s.value = none := by
    cases hfind : s.valueToVariable.find? s.value with
    | none => rfl
    | some x => exact absurd (hs.owned s.value x hfind) (lt_irrefl _)
  exact ⟨y, OrderedMap.find?_emplace_self _ hnone⟩

theorem State.IsComplete.of_lookup {A : Set ℤ} (h : Lookup cfg name A ∅ s s')
    (hs : s.IsComplete cfg) : s'.IsComplete cfg := by
  intro v phi hphi herased
  by_cases hv : v < s.value
  · have hshape := h.shapes v hv
    rw [hphi, Option.map_some] at hshape
    obtain ⟨phi', hphi', hshape⟩ := Option.map_eq_some_iff.mp hshape.symm
    exact Lookup.isComplete_of_shape hshape.symm
      (hs v phi' hphi' fun hmem => herased ((h.erased v hv).mpr hmem))
  · exact h.complete v phi (Nat.not_lt.mp hv) (Set.notMem_empty v) hphi herased

theorem definition_writeFresh (name n : String) (l : ℤ) (fresh : Variable) (i : Instruction) :
    (writeFresh label name fresh i s).definition n l =
      if n = name ∧ l = label then some s.value else s.definition n l := by
  unfold writeFresh
  rw [definition_writeVariable]
  rfl

namespace Visited

theorem refl (hs : s.Live) (hcomplete : s.IsComplete cfg) : Visited cfg label s s where
  filled := rfl
  isSealed := rfl
  live := hs
  complete := hcomplete
  kept _ _ h := h
  new _ _ h := Or.inl h

theorem found {v : ℕ} (h : Visited cfg label s s₁) (hfound : Found cfg name label s₁ v s') :
    Visited cfg label s s' where
  filled := hfound.lookup.filled.trans h.filled
  isSealed := hfound.lookup.isSealed.trans h.isSealed
  live := hfound.live
  complete := h.complete.of_lookup hfound.lookup
  kept n l hdef := by
    obtain ⟨v, hv⟩ := Option.ne_none_iff_exists'.mp (h.kept n l hdef)
    rw [definition_of_lookup hfound.lookup hv]
    exact Option.some_ne_none v
  new n l hdef := by
    rcases hfound.lookup.definitions n l with hsame | ⟨rfl, -, -⟩
    · exact h.new n l (hsame ▸ hdef)
    · rcases hfound.new l hdef with hold | ⟨hsealed, -⟩
      · exact h.new n l hold
      · exact Or.inr (Or.inr (h.isSealed ▸ hsealed))

theorem insertInstruction (h : Visited cfg label s s₁) (i : SsaInstruction) :
    Visited cfg label s (s₁.insertInstruction i label false) where
  filled := h.filled
  isSealed := h.isSealed
  live := ⟨h.live.defined, h.live.owned, h.live.candidates, h.live.erased⟩
  complete := h.complete
  kept := h.kept
  new := h.new

theorem writeFresh (h : Visited cfg label s s₁) (name : String) (fresh : Variable)
    (i : Instruction) : Visited cfg label s (writeFresh label name fresh i s₁) where
  filled := h.filled
  isSealed := h.isSealed
  live := by
    have hlive := h.live.define fresh
    exact .writeVariable (h.live.exists_define fresh) hlive.owned hlive.candidates hlive.erased
      fun n l v _ hv => hlive.defined n l v hv
  complete := h.complete
  kept n l hdef := by
    rw [definition_writeFresh]
    split_ifs
    · exact Option.some_ne_none _
    · exact h.kept n l hdef
  new n l hdef := by
    rw [definition_writeFresh] at hdef
    split_ifs at hdef with heq
    · exact Or.inr (Or.inl heq.2)
    · exact h.new n l hdef

end Visited

/-- The names of the variables that hold constants. -/
def IsConstantName (name : String) : Prop := ∃ value, name = constantName value

/-- What a visit has done so far, given what it has written. -/
structure Visiting (cfg : TypedUnit) (label : ℤ) (s : State) (w : Known) (s' : State) : Prop
    extends Visited cfg label s s' where
  known : ∀ n ∈ w.2, s'.definition n label ≠ none
  origin : ∀ n l, s'.definition n l ≠ none →
    s.Reaches cfg n l ∨ l = label ∧ (n ∈ w.2 ∨ IsConstantName n)

namespace Visiting

theorem refl (hs : s.Live) (hcomplete : s.IsComplete cfg) (value : ℕ) :
    Visiting cfg label s (value, []) s where
  toVisited := .refl hs hcomplete
  known := nofun
  origin _ _ h := Or.inl (.here h)

theorem reaches_before (hcfg : cfg.LoopFree) (h : Visiting cfg label s w s₁) {p l : ℤ}
    (hp : cfg.Precedes p label) (hl : l ∈ before cfg p) (hreaches : s₁.Reaches cfg name l) :
    s.Reaches cfg name l := by
  refine hreaches.of_reaches fun l' hl' hdef => ?_
  refine (h.origin name l' hdef).resolve_right ?_
  rintro ⟨rfl, -⟩
  exact notMem_before hcfg hp (Relation.ReflTransGen.trans hl' hl)

theorem reaches (hcfg : cfg.LoopFree) (h : Visiting cfg label s w s₁)
    (hreaches : s₁.Reaches cfg name label) :
    s.Reaches cfg name label ∨ name ∈ w.2 ∨ IsConstantName name := by
  cases hreaches with
  | here hdef => exact (h.origin name label hdef).imp_right And.right
  | before hne hjoin hpreceding =>
    exact Or.inl (.before hne hjoin fun p hp => h.reaches_before hcfg hp .refl (hpreceding p hp))

theorem found (hcfg : cfg.LoopFree) (h : Visiting cfg label s w s₁) {v : ℕ}
    (hfound : Found cfg name label s₁ v s') : Visiting cfg label s w s' where
  toVisited := h.toVisited.found hfound
  known n hn := by
    obtain ⟨v', hv'⟩ := Option.ne_none_iff_exists'.mp (h.known n hn)
    rw [definition_of_lookup hfound.lookup hv']
    exact Option.some_ne_none v'
  origin n l hdef := by
    rcases hfound.lookup.definitions n l with hsame | ⟨rfl, hl, -⟩
    · exact h.origin n l (hsame ▸ hdef)
    · have hreaches := hfound.of_new hdef
      rcases Relation.ReflTransGen.cases_tail hl with rfl | ⟨p, hlp, hp⟩
      · exact (h.reaches hcfg hreaches).imp_right fun hn => ⟨rfl, hn⟩
      · exact Or.inl (h.reaches_before hcfg hp hlp hreaches)

theorem writeFresh (h : Visiting cfg label s w s₁) (name : String) (fresh : Variable)
    (i : Instruction) {w' : Known} (hkept : ∀ n ∈ w.2, n ∈ w'.2)
    (hknown : ∀ n ∈ w'.2, n = name ∨ n ∈ w.2) (hname : name ∈ w'.2 ∨ IsConstantName name) :
    Visiting cfg label s w' (SsaPass.writeFresh label name fresh i s₁) where
  toVisited := h.toVisited.writeFresh name fresh i
  known n hn := by
    rw [definition_writeFresh]
    split_ifs with heq
    · exact Option.some_ne_none _
    · exact h.known n ((hknown n hn).resolve_left fun hname => heq ⟨hname, rfl⟩)
  origin n l hdef := by
    rw [definition_writeFresh] at hdef
    split_ifs at hdef with heq
    · obtain ⟨rfl, rfl⟩ := heq
      exact Or.inr ⟨rfl, hname⟩
    · exact (h.origin n l hdef).imp_right fun ⟨hl, hn⟩ => ⟨hl, hn.imp_left (hkept n)⟩

theorem keeps : Keeps label (fun _ => []) (Visiting cfg label s) where
  constant {_ s₁} _ _ hK := hK.writeFresh (constantName s₁.value) _ _ (fun _ hn => hn)
    (fun _ hn => Or.inr hn) (Or.inr ⟨s₁.value, rfl⟩)
  write name fresh i hK := hK.writeFresh name fresh i (fun _ hn => List.mem_cons_of_mem name hn)
    (fun _ hn => List.mem_cons.mp hn) (Or.inl List.mem_cons_self)
  insert i hK := ⟨hK.toVisited.insertInstruction i, hK.known, hK.origin⟩

theorem carries (hcfg : cfg.LoopFree) (hfuel : distance cfg label < fuel)
    (hsealed : ∀ l ∈ before cfg label, l ∈ s.sealedBasicBlocks) {outer : String → Bool}
    (houter : ∀ name, outer name = true → s.Reaches cfg name label) :
    Carries cfg fuel label outer (fun _ => []) (Visiting cfg label s) where
  toKeeps := keeps
  read := by
    intro name w s₁ hK hname
    have hreaches : s₁.Reaches cfg name label := by
      rcases hname with hname | hname
      · exact .here (hK.known name hname)
      · exact (houter name hname).mono fun l hdef => hK.kept name l hdef
    obtain ⟨v, s₂, hv⟩ := exists_readVariable hcfg hfuel (hK.isSealed ▸ hsealed) hreaches hK.live
    have hfound := readVariable_found hcfg hK.live hv
    exact ⟨v, s₂, hv, hK.found hcfg hfound, hfound.result⟩

theorem follows (hcfg : cfg.LoopFree) {P : String → Prop} {outer : String → Bool}
    (houter : ∀ name, P name → s.Reaches cfg name label ∨ IsConstantName name →
      outer name = true) :
    Follows cfg fuel label P outer (fun _ => []) (Visiting cfg label s) where
  toKeeps := keeps
  read := by
    intro name w s₁ v s₂ hK hP hv
    have hfound := readVariable_found hcfg hK.live hv
    refine ⟨?_, hK.found hcfg hfound⟩
    rcases hK.reaches hcfg hfound.reaches with hreaches | hmem | hconstant
    · exact Or.inr (houter name hP (Or.inl hreaches))
    · exact Or.inl hmem
    · exact Or.inr (houter name hP (Or.inr hconstant))

end Visiting

theorem definition_iff {n : String} {fresh : Variable} {i : Instruction} {ns : List String}
    (h : s.definition n label ≠ none ↔ n ∈ ns) :
    (writeFresh label name fresh i s).definition n label ≠ none ↔ n ∈ name :: ns := by
  rw [definition_writeFresh, List.mem_cons]
  split_ifs with heq
  · exact iff_of_true (Option.some_ne_none _) (Or.inl heq.1)
  · rw [h, or_iff_right fun hname => heq ⟨hname, rfl⟩]

/-- A block that is not sealed has written what it can read. -/
def OwnVisit (cfg : TypedUnit) (label : ℤ) (s : State) (w : Known) (s' : State) : Prop :=
  Visited cfg label s s' ∧ s'.value = w.1 ∧ ∀ name, s'.definition name label ≠ none ↔ name ∈ w.2

theorem OwnVisit.refl (hs : s.Live) (hcomplete : s.IsComplete cfg)
    (hnew : ∀ name, s.definition name label = none) : OwnVisit cfg label s (s.value, []) s :=
  ⟨.refl hs hcomplete, rfl, fun name => iff_of_false (not_not.mpr (hnew name)) List.not_mem_nil⟩

theorem OwnVisit.keeps : Keeps label (fun n => [constantName n]) (OwnVisit cfg label s) where
  constant := by
    intro w s₁ t e hK
    refine ⟨hK.1.writeFresh _ _ _, congrArg Nat.succ hK.2.1, fun n => ?_⟩
    change (writeFresh label _ _ _ s₁).definition n label ≠ none ↔ _
    rw [← hK.2.1]
    exact definition_iff (hK.2.2 n)
  write := by
    intro w s₁ name fresh i hK
    exact ⟨hK.1.writeFresh name fresh i, congrArg Nat.succ hK.2.1, fun n =>
      definition_iff (hK.2.2 n)⟩
  insert := by
    intro w s₁ i hK
    exact ⟨hK.1.insertInstruction i, hK.2⟩

theorem OwnVisit.carries (hfuel : 0 < fuel) : Carries cfg fuel label (fun _ => false)
    (fun n => [constantName n]) (OwnVisit cfg label s) where
  toKeeps := keeps
  read := by
    intro name w s₁ hK hname
    have hmem : name ∈ w.2 := hname.resolve_right nofun
    obtain ⟨v, hv⟩ := Option.ne_none_iff_exists'.mp ((hK.2.2 name).mpr hmem)
    obtain ⟨fuel, rfl⟩ := Nat.exists_eq_add_of_lt hfuel
    exact ⟨v, s₁, readVariable_defined hv, hK, hK.1.live.defined _ _ _ hv⟩

theorem OwnVisit.follows (hsealed : label ∉ s.sealedBasicBlocks) : Follows cfg fuel label
    (fun _ => True) (fun _ => false) (fun n => [constantName n]) (OwnVisit cfg label s) where
  toKeeps := keeps
  read := by
    intro name w s₁ v s₂ hK _ hv
    cases fuel with
    | zero => cases hv
    | succ fuel =>
      cases hdef : s₁.definition name label with
      | some v' =>
        rw [readVariable_defined hdef] at hv
        cases hv
        refine ⟨Or.inl ((hK.2.2 name).mp ?_), hK⟩
        rw [hdef]
        exact Option.some_ne_none _
      | none => exact absurd (hK.1.isSealed ▸ (readVariable_undefined_ok hdef hv).1) hsealed

variable (names) in
theorem visitBlock_readable (hcfg : cfg.LoopFree) (hfuel : distance cfg label < fuel)
    (hsealed : ∀ l ∈ before cfg label, l ∈ s.sealedBasicBlocks) (hs : s.Live)
    (hcomplete : s.IsComplete cfg) {v : BlockVertex} (hlabel : v.label = label)
    {outer : String → Bool} (houter : ∀ name, outer name = true → s.Reaches cfg name label)
    (hv : (readsBlock outer (fun _ => []) v.instructions (0, [])).isSome) :
    ∃ s', visitBlock cfg names fuel v s = .ok s' := by
  obtain ⟨w, hw⟩ := Option.isSome_iff_exists.mp hv
  obtain ⟨s', hs', -⟩ := visitAll_ok names (Visiting.carries hcfg hfuel hsealed houter)
    (.refl hs hcomplete 0) hw
  refine ⟨s', ?_⟩
  unfold visitBlock
  rw [hlabel]
  exact hs'

theorem visitBlock_reads (hcfg : cfg.LoopFree) (hs : s.Live) (hcomplete : s.IsComplete cfg)
    {v : BlockVertex} (hlabel : v.label = label)
    (hcallFree : ∀ i ∈ v.instructions, i.isCallFree = true)
    (P : String → Prop) (outer : String → Bool)
    (houter : ∀ name, P name → s.Reaches cfg name label ∨ IsConstantName name →
      outer name = true) (hP : ∀ i ∈ v.instructions, ∀ n ∈ i.readNames, P n)
    (hok : visitBlock cfg names fuel v s = .ok s') :
    (readsBlock outer (fun _ => []) v.instructions (0, [])).isSome = true ∧
      Visiting cfg label s (0, writtenNames v.instructions) s' := by
  unfold visitBlock at hok
  rw [hlabel] at hok
  obtain ⟨w, hw, hK⟩ := visitAll_reads (Visiting.follows hcfg houter) hcallFree
    (.refl hs hcomplete 0) hP hok
  rw [hw]
  refine ⟨rfl, hK.toVisited, fun n hn => hK.known n ((mem_readsBlock hw).mpr (Or.inl hn)),
    fun n l hdef => (hK.origin n l hdef).imp_right fun ⟨hl, hn⟩ => ⟨hl, hn.imp_left fun hn => ?_⟩⟩
  exact ((mem_readsBlock hw).mp hn).resolve_right List.not_mem_nil

theorem visitBlock_visiting (hcfg : cfg.LoopFree) (hs : s.Live) (hcomplete : s.IsComplete cfg)
    {v : BlockVertex} (hlabel : v.label = label)
    (hcallFree : ∀ i ∈ v.instructions, i.isCallFree = true)
    (hok : visitBlock cfg names fuel v s = .ok s') :
    Visiting cfg label s (0, writtenNames v.instructions) s' :=
  (visitBlock_reads hcfg hs hcomplete hlabel hcallFree (fun _ => True) (fun _ => true)
    (fun _ _ _ => rfl) (fun _ _ _ _ => trivial) hok).2

/-- The instructions of a block read only what the block has written before. -/
def readsOwn (v : BlockVertex) (value : ℕ) : Bool :=
  (readsBlock (fun _ => false) (fun n => [constantName n]) v.instructions (value, [])).isSome

variable (names) in
theorem visitBlock_own (hfuel : 0 < fuel) (hs : s.Live) (hcomplete : s.IsComplete cfg)
    (hnew : ∀ name, s.definition name label = none) {v : BlockVertex} (hlabel : v.label = label)
    (hv : readsOwn v s.value = true) : ∃ s', visitBlock cfg names fuel v s = .ok s' := by
  obtain ⟨w, hw⟩ := Option.isSome_iff_exists.mp hv
  obtain ⟨s', hs', -⟩ := visitAll_ok names (OwnVisit.carries hfuel) (.refl hs hcomplete hnew) hw
  refine ⟨s', ?_⟩
  unfold visitBlock
  rw [hlabel]
  exact hs'

theorem readsOwn_of_visitBlock (hs : s.Live) (hcomplete : s.IsComplete cfg)
    (hnew : ∀ name, s.definition name label = none) (hsealed : label ∉ s.sealedBasicBlocks)
    {v : BlockVertex} (hlabel : v.label = label)
    (hcallFree : ∀ i ∈ v.instructions, i.isCallFree = true)
    (h : visitBlock cfg names fuel v s = .ok s') : readsOwn v s.value = true := by
  unfold visitBlock at h
  rw [hlabel] at h
  obtain ⟨w, hw, -⟩ := visitAll_reads (OwnVisit.follows hsealed) hcallFree
    (.refl hs hcomplete hnew) (fun _ _ _ _ => trivial) h
  unfold readsOwn
  rw [hw]
  rfl

end Blocks

end SsaPass

end Ahorn
