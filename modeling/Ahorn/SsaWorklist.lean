import Ahorn.AssignedVariables
import Ahorn.Worklists

set_option autoImplicit false

/-!
# The worklist of the pass

A vertex that cannot be sealed yet goes to the end of the queue. The exit is the exception: it is
visited whenever it is taken. In a unit without loops every block is visited once and sealed after
those in front of it, if the exit is not taken too early or does no harm then.
-/
namespace Ahorn.SsaPass

open Relation (ReflTransGen)

section Graph

variable {cfg : TypedUnit} {s s' : State} {l p : ℤ}

theorem isSealable_iff : isSealable cfg l s = true ↔
    ∀ p, cfg.Precedes p l → p ∈ s.filledBasicBlocks := by
  unfold isSealable BlockCfg.Precedes
  rw [List.all_eq_true]
  exact forall₂_congr fun p _ => decide_eq_true_iff

theorem isSealable_of_subset (h : s.filledBasicBlocks ⊆ s'.filledBasicBlocks)
    (hs : isSealable cfg l s = true) : isSealable cfg l s' = true :=
  isSealable_iff.mpr fun p hp => h (isSealable_iff.mp hs p hp)

theorem isVertex_of_precedes (hcfg : cfg.LoopFree) (hp : cfg.Precedes p l) :
    ∃ v, cfg.labelToVertex.find? l = some v := by
  obtain ⟨e, he, -, rfl⟩ := BlockCfg.precedes_iff.mp hp
  exact hcfg.target e he

theorem ne_entry_of_precedes (hcfg : cfg.LoopFree) (hp : cfg.Precedes p l) : l ≠ cfg.entryLabel := by
  rintro rfl
  obtain ⟨e, he, rfl, -⟩ := BlockCfg.precedes_iff.mp hp
  obtain ⟨v, hv⟩ := hcfg.source e he
  exact notMem_before hcfg hp (hcfg.reachable _ v hv)

theorem ne_exit_of_precedes (hcfg : cfg.LoopFree) (hp : cfg.Precedes p l) : p ≠ cfg.exitLabel := by
  obtain ⟨e, he, rfl, -⟩ := BlockCfg.precedes_iff.mp hp
  exact hcfg.last e he

theorem entry_ne_exit (hcfg : cfg.LoopFree) : cfg.entryLabel ≠ cfg.exitLabel := by
  obtain ⟨next, hnext⟩ := hcfg.entry
  have hmem : next ∈ cfg.getSucceedingLabels cfg.entryLabel := hnext ▸ List.mem_singleton_self next
  obtain ⟨e, he, -⟩ := List.mem_map.mp hmem
  obtain ⟨he, hsource⟩ := List.mem_filter.mp he
  exact of_decide_eq_true hsource ▸ hcfg.last e he

theorem mem_getSucceedingLabels : l ∈ cfg.getSucceedingLabels p ↔ cfg.Precedes p l := by
  rw [BlockCfg.precedes_iff]
  unfold BlockCfg.getSucceedingLabels BlockCfg.getOutgoingEdges
  simp only [List.mem_map, List.mem_filter, decide_eq_true_eq, and_assoc]

theorem mem_nextLabels (hcfg : cfg.LoopFree) : l ∈ nextLabels cfg p ↔ cfg.Precedes p l := by
  rw [← mem_getSucceedingLabels]
  unfold nextLabels BlockCfg.getSucceedingLabels
  rw [List.filter_eq_self.mpr]
  intro e he
  have hfree := hcfg.callFree e (List.mem_of_mem_filter he)
  simp [hfree.1, hfree.2.1]

end Graph

def holdsInstruction (cfg : TypedUnit) (label : ℤ) : Bool :=
  match cfg.labelToVertex.find? label with
  | none => false
  | some v => v.instruction.isSome

/-- The block that is visited when a label is taken from the queue. -/
def visits (cfg : TypedUnit) (label : ℤ) (s : State) : List ℤ :=
  let isSealed := isSealable cfg label s = true ∨ label ∈ s.sealedBasicBlocks
  if holdsInstruction cfg label = true ∧ (label = cfg.entryLabel ∨
      if isSealed then label ∉ s.filledBasicBlocks else label = cfg.exitLabel) then [label]
  else []

theorem mem_visits {cfg : TypedUnit} {l label : ℤ} {s : State} : l ∈ visits cfg label s ↔
    l = label ∧ holdsInstruction cfg label = true ∧ (label = cfg.entryLabel ∨
      if isSealable cfg label s = true ∨ label ∈ s.sealedBasicBlocks then
        label ∉ s.filledBasicBlocks
      else label = cfg.exitLabel) := by
  unfold visits
  rw [List.mem_ite_nil_right, List.mem_singleton]
  exact and_comm

/-- The worklist comes to a queue and a state, and has visited the listed blocks. -/
abbrev Comes (cfg : TypedUnit) (names : List String) (fuel : ℕ) (s : State) :
    List ℤ → List ℤ → State → Prop :=
  Worklist.Traces (processLabel cfg names fuel) (visits cfg) [cfg.entryLabel] s

theorem process_eq_run (cfg : TypedUnit) (names : List String) (fuel n : ℕ) (q : List ℤ)
    (s : State) : process cfg names fuel n q s =
      Worklist.run "out of fuel" (processLabel cfg names fuel) n q s := by
  induction n generalizing q s with
  | zero => cases q <;> rfl
  | succ n ih =>
    cases q with
    | nil => rfl
    | cons label q =>
      unfold process Worklist.run
      cases processLabel cfg names fuel label s with
      | error m => rfl
      | ok r => exact ih _ _

section Invariant

variable {cfg : TypedUnit} {names : List String} {fuel : ℕ} {s s₁ s' : State}
variable {t q : List ℤ} {a l : ℤ}

/-- What is known of variables. Only filled blocks define any, besides those that have a value at
the entry. -/
structure Defined (cfg : TypedUnit) (s : State) : Prop where
  live : s.Live
  complete : s.IsComplete cfg
  initial : ∀ name, declared cfg name = true → s.definition name cfg.entryLabel ≠ none
  undefined : ∀ l ∉ s.filledBasicBlocks, ∀ name, s.definition name l ≠ none →
    l = cfg.entryLabel ∧ declared cfg name = true
  written : ∀ l ∈ s.filledBasicBlocks, ∀ v, cfg.labelToVertex.find? l = some v →
    ∀ n ∈ writtenNames v.instructions, s.definition n l ≠ none
  assigned : ∀ n l, s.definition n l ≠ none → IsConstantName n ∨ Assigned cfg n l

theorem Defined.exit_undefined (hcfg : cfg.LoopFree) (h : Defined cfg s)
    (hexit : cfg.exitLabel ∉ s.filledBasicBlocks) (name : String) :
    s.definition name cfg.exitLabel = none :=
  not_not.mp fun hdef => entry_ne_exit hcfg (h.undefined _ hexit name hdef).1.symm

theorem Defined.fill (hcfg : cfg.LoopFree) (h : Defined cfg s) {v : BlockVertex}
    (hv : cfg.labelToVertex.find? a = some v)
    (hsealed : ∀ l ∈ s.sealedBasicBlocks, l = a ∨ l ∈ s.filledBasicBlocks)
    (hvisiting : Visiting cfg a s (0, writtenNames v.instructions) s') :
    Defined cfg (s'.fill a) where
  live := ⟨hvisiting.live.defined, hvisiting.live.owned, hvisiting.live.candidates,
    hvisiting.live.erased⟩
  complete := hvisiting.complete
  initial name hname := hvisiting.kept _ _ (h.initial name hname)
  undefined l hl name hdef := by
    have hnot : l ∉ a :: s.filledBasicBlocks := hvisiting.filled ▸ hl
    rw [List.mem_cons, not_or] at hnot
    rcases hvisiting.new name l hdef with hold | heq | hmem
    · exact h.undefined l hnot.2 name hold
    · exact absurd heq hnot.1
    · exact ((hsealed l hmem).elim hnot.1 hnot.2).elim
  written l hl w hw n hn := by
    by_cases hla : l = a
    · subst hla
      rw [hv] at hw
      cases hw
      exact hvisiting.known n hn
    · have hmem : l ∈ a :: s.filledBasicBlocks := hvisiting.filled ▸ hl
      exact hvisiting.kept n l (h.written l ((List.mem_cons.mp hmem).resolve_left hla) w hw n hn)
  assigned n l hdef := by
    by_cases hconstant : IsConstantName n
    · exact Or.inl hconstant
    · right
      rcases hvisiting.origin n l hdef with hreaches | ⟨rfl, hwritten | hn⟩
      · exact assigned_of_reaches hcfg
          (fun l hold => (h.assigned n l hold).resolve_left hconstant) hreaches
      · exact .of_writes (writes_iff.mpr ⟨v, hv, hwritten⟩)
      · exact absurd hn hconstant

theorem Defined.sealBasicBlock (h : Defined cfg s) (l : ℤ) : Defined cfg (s.sealBasicBlock l) where
  live := ⟨h.live.defined, h.live.owned, h.live.candidates, h.live.erased⟩
  complete := h.complete
  initial := h.initial
  undefined := h.undefined
  written := h.written
  assigned := h.assigned

/-- What is known of blocks. One whose preceding blocks are filled is sealed or stands in the
queue. -/
structure Marked (cfg : TypedUnit) (q : List ℤ) (s : State) : Prop where
  entry : cfg.entryLabel ∈ s.sealedBasicBlocks
  queued : ∀ l ∈ q, (∃ v, cfg.labelToVertex.find? l = some v) ∧ l ≠ cfg.entryLabel
  sealable : ∀ l ∈ s.sealedBasicBlocks, isSealable cfg l s = true
  isFilled : ∀ l ∈ s.sealedBasicBlocks, l ∈ s.filledBasicBlocks
  isSealed : ∀ l ∈ s.filledBasicBlocks, l ≠ cfg.exitLabel → l ∈ s.sealedBasicBlocks
  waiting : ∀ l v, cfg.labelToVertex.find? l = some v → isSealable cfg l s = true →
    l ∈ s.sealedBasicBlocks ∨ l ∈ q
  emptyExit : holdsInstruction cfg cfg.exitLabel = false → cfg.exitLabel ∈ s.filledBasicBlocks

/-- The blocks that have been visited. -/
structure Recorded (cfg : TypedUnit) (t : List ℤ) (s : State) : Prop where
  mem_iff : ∀ l, l ∈ t ↔ l ∈ s.filledBasicBlocks ∧ holdsInstruction cfg l = true
  nodup : t.Nodup

theorem Recorded.fill (h : Recorded cfg t s) (ha : a ∉ s.filledBasicBlocks)
    (hholds : holdsInstruction cfg a = true)
    (hfilled : s'.filledBasicBlocks = a :: s.filledBasicBlocks) : Recorded cfg (t ++ [a]) s' where
  mem_iff l := by
    rw [List.mem_append, List.mem_singleton, h.mem_iff, hfilled, List.mem_cons]
    by_cases hl : l = a
    · subst hl
      simp [hholds]
    · simp [hl]
  nodup := by
    refine List.nodup_append.mpr ⟨h.nodup, List.nodup_singleton a, ?_⟩
    rintro x hx y hy rfl
    rw [List.mem_singleton.mp hy] at hx
    exact ha ((h.mem_iff a).mp hx).1

theorem Recorded.refill (h : Recorded cfg t s) (hempty : holdsInstruction cfg a = false)
    (hfilled : s'.filledBasicBlocks = a :: s.filledBasicBlocks) : Recorded cfg t s' where
  mem_iff l := by
    rw [h.mem_iff, hfilled, List.mem_cons]
    by_cases hl : l = a
    · subst hl
      simp [hempty]
    · simp [hl]
  nodup := h.nodup

/-- The invariant of the worklist behind the entry. -/
structure Orderly (cfg : TypedUnit) (t q : List ℤ) (s : State) : Prop where
  defined : Defined cfg s
  marked : Marked cfg q s
  recorded : Recorded cfg t s

theorem Marked.rotate (h : Marked cfg (a :: q) s) : Marked cfg (q ++ [a]) s where
  entry := h.entry
  queued l hl := h.queued l (by simpa [or_comm] using hl)
  sealable := h.sealable
  isFilled := h.isFilled
  isSealed := h.isSealed
  waiting l v hv hl := by simpa [or_comm] using h.waiting l v hv hl
  emptyExit := h.emptyExit

theorem Marked.sealFilled (h : Marked cfg (a :: q) s) (ha : isSealable cfg a s = true)
    (hfilled : a ∈ s.filledBasicBlocks) : Marked cfg q (s.sealBasicBlock a) where
  entry := List.mem_cons_of_mem a h.entry
  queued l hl := h.queued l (List.mem_cons_of_mem a hl)
  sealable := List.forall_mem_cons.mpr ⟨ha, h.sealable⟩
  isFilled := List.forall_mem_cons.mpr ⟨hfilled, h.isFilled⟩
  isSealed l hl hne := List.mem_cons_of_mem a (h.isSealed l hl hne)
  waiting l v hv hl := by
    rcases h.waiting l v hv hl with hmem | hmem
    · exact Or.inl (List.mem_cons_of_mem a hmem)
    · rcases List.mem_cons.mp hmem with rfl | hmem
      · exact Or.inl List.mem_cons_self
      · exact Or.inr hmem
  emptyExit := h.emptyExit

theorem Marked.fillSealed (hcfg : cfg.LoopFree) (h : Marked cfg (a :: q) s)
    (ha : isSealable cfg a s = true) (hfilled : s'.filledBasicBlocks = a :: s.filledBasicBlocks)
    (hsealed : s'.sealedBasicBlocks = a :: s.sealedBasicBlocks) :
    Marked cfg (q ++ nextLabels cfg a) s' := by
  have hsub : s.filledBasicBlocks ⊆ s'.filledBasicBlocks :=
    hfilled ▸ List.subset_cons_self a _
  exact {
    entry := hsealed ▸ List.mem_cons_of_mem a h.entry
    queued := by
      intro l hl
      rcases List.mem_append.mp hl with hl | hl
      · exact h.queued l (List.mem_cons_of_mem a hl)
      · have hp := (mem_nextLabels hcfg).mp hl
        exact ⟨isVertex_of_precedes hcfg hp, ne_entry_of_precedes hcfg hp⟩
    sealable := by
      rw [hsealed]
      exact List.forall_mem_cons.mpr ⟨isSealable_of_subset hsub ha, fun l hl =>
        isSealable_of_subset hsub (h.sealable l hl)⟩
    isFilled := by
      rw [hsealed, hfilled]
      exact List.forall_mem_cons.mpr ⟨List.mem_cons_self, fun l hl =>
        List.mem_cons_of_mem a (h.isFilled l hl)⟩
    isSealed := by
      rw [hsealed, hfilled]
      exact List.forall_mem_cons.mpr ⟨fun _ => List.mem_cons_self, fun l hl hne =>
        List.mem_cons_of_mem a (h.isSealed l hl hne)⟩
    waiting := by
      intro l v hv hl
      by_cases hold : isSealable cfg l s = true
      · rw [hsealed]
        rcases h.waiting l v hv hold with hmem | hmem
        · exact Or.inl (List.mem_cons_of_mem a hmem)
        · rcases List.mem_cons.mp hmem with rfl | hmem
          · exact Or.inl List.mem_cons_self
          · exact Or.inr (List.mem_append_left _ hmem)
      · -- a block in front of it has been filled just now
        obtain ⟨p, hp, hnot⟩ := not_forall₂.mp fun hall => hold (isSealable_iff.mpr hall)
        have hmem := isSealable_iff.mp hl p hp
        rw [hfilled] at hmem
        obtain rfl := (List.mem_cons.mp hmem).resolve_right hnot
        exact Or.inr (List.mem_append_right _ ((mem_nextLabels hcfg).mpr hp))
    emptyExit := fun hempty => hsub (h.emptyExit hempty) }

theorem Marked.fillExit (hcfg : cfg.LoopFree) (h : Marked cfg (cfg.exitLabel :: q) s)
    (hexit : isSealable cfg cfg.exitLabel s = false)
    (hfilled : s'.filledBasicBlocks = cfg.exitLabel :: s.filledBasicBlocks)
    (hsealed : s'.sealedBasicBlocks = s.sealedBasicBlocks) : Marked cfg q s' := by
  have hsub : s.filledBasicBlocks ⊆ s'.filledBasicBlocks :=
    hfilled ▸ List.subset_cons_self _ _
  exact {
    entry := hsealed ▸ h.entry
    queued := fun l hl => h.queued l (List.mem_cons_of_mem _ hl)
    sealable := fun l hl => isSealable_of_subset hsub (h.sealable l (hsealed ▸ hl))
    isFilled := fun l hl => hsub (h.isFilled l (hsealed ▸ hl))
    isSealed := by
      rw [hsealed, hfilled]
      exact List.forall_mem_cons.mpr ⟨fun hne => absurd rfl hne, h.isSealed⟩
    waiting := by
      intro l v hv hl
      have hold : isSealable cfg l s = true := by
        refine isSealable_iff.mpr fun p hp => ?_
        have hmem := isSealable_iff.mp hl p hp
        rw [hfilled] at hmem
        exact (List.mem_cons.mp hmem).resolve_left (ne_exit_of_precedes hcfg hp)
      rw [hsealed]
      rcases h.waiting l v hv hold with hmem | hmem
      · exact Or.inl hmem
      · rcases List.mem_cons.mp hmem with rfl | hmem
        · rw [hexit] at hold
          cases hold
        · exact Or.inr hmem
    emptyExit := fun hempty => hsub (h.emptyExit hempty) }

end Invariant

section Steps

variable {cfg : TypedUnit} {names : List String} {fuel : ℕ} {s s' : State}
variable {t q : List ℤ} {a : ℤ} {v : BlockVertex}

def unfilled (cfg : TypedUnit) (s : State) : ℕ :=
  (cfg.labelToVertex.keys.filter (· ∉ s.filledBasicBlocks)).length

theorem unfilled_lt (hv : cfg.labelToVertex.find? a = some v) (ha : a ∉ s.filledBasicBlocks)
    (hfilled : s'.filledBasicBlocks = a :: s.filledBasicBlocks) :
    unfilled cfg s' < unfilled cfg s := by
  unfold unfilled
  rw [hfilled]
  have hfilter : cfg.labelToVertex.keys.filter (· ∉ a :: s.filledBasicBlocks) =
      (cfg.labelToVertex.keys.filter (· ∉ s.filledBasicBlocks)).filter (· ≠ a) := by
    rw [List.filter_filter]
    apply List.filter_congr
    intro x _
    simp
  rw [hfilter, List.length_filter_lt_length_iff_exists]
  have hkey : a ∈ cfg.labelToVertex.keys := OrderedMap.mem_keys_iff.mpr ⟨v, hv⟩
  exact ⟨a, List.mem_filter.mpr ⟨hkey, by simpa using ha⟩, by simp⟩

theorem unfilled_eq (ha : a ∈ s.filledBasicBlocks)
    (hfilled : s'.filledBasicBlocks = a :: s.filledBasicBlocks) :
    unfilled cfg s' = unfilled cfg s := by
  unfold unfilled
  have hmem : ∀ x, x ∈ s'.filledBasicBlocks ↔ x ∈ s.filledBasicBlocks := by
    intro x
    rw [hfilled, List.mem_cons, or_iff_right_of_imp]
    rintro rfl
    exact ha
  simp only [hmem]

theorem getVertex_eq (hv : cfg.labelToVertex.find? a = some v) : cfg.getVertex a = .ok v := by
  unfold BlockCfg.getVertex
  rw [hv]

theorem holdsInstruction_eq (hv : cfg.labelToVertex.find? a = some v) :
    holdsInstruction cfg a = v.instruction.isSome := by
  unfold holdsInstruction
  rw [hv]

theorem instructions_eq_nil (h : v.instruction.isSome = false) : v.instructions = [] := by
  unfold BlockVertex.instructions
  rw [Option.isSome_eq_false_iff, Option.isNone_iff_eq_none] at h
  rw [h]

theorem processLabel_sealable (hne : a ≠ cfg.entryLabel) (ha : isSealable cfg a s = true) :
    processLabel cfg names fuel a s = processSealed cfg names fuel a (s.sealBasicBlock a) := by
  unfold processLabel
  rw [if_neg hne, if_pos ha]
  exact if_pos List.mem_cons_self

theorem processLabel_unsealed (hne : a ≠ cfg.entryLabel) (ha : isSealable cfg a s = false)
    (hsealed : a ∉ s.sealedBasicBlocks) :
    processLabel cfg names fuel a s = processUnsealed cfg names fuel a s := by
  have hnot : ¬ isSealable cfg a s = true := by
    rw [ha]
    decide
  unfold processLabel
  rw [if_neg hne, if_neg hnot]
  exact if_neg hsealed

theorem Marked.notMem_sealed (h : Marked cfg q s) (ha : isSealable cfg a s = false) :
    a ∉ s.sealedBasicBlocks := by
  intro hmem
  rw [h.sealable a hmem] at ha
  cases ha

theorem visits_sealable (hne : a ≠ cfg.entryLabel) (ha : isSealable cfg a s = true) :
    visits cfg a s =
      if holdsInstruction cfg a = true ∧ a ∉ s.filledBasicBlocks then [a] else [] := by
  unfold visits
  simp [hne, ha]

theorem visits_unsealed (hne : a ≠ cfg.entryLabel) (ha : isSealable cfg a s = false)
    (hsealed : a ∉ s.sealedBasicBlocks) : visits cfg a s =
      if holdsInstruction cfg a = true ∧ a = cfg.exitLabel then [a] else [] := by
  unfold visits
  simp [hne, ha, hsealed]

/-- A block has to wait as long as blocks in front of it are not filled. -/
def Waits (cfg : TypedUnit) (a : ℤ) (s : State) : Prop :=
  a ≠ cfg.exitLabel ∧ isSealable cfg a s = false

variable (names fuel) in
theorem Orderly.wait (h : Orderly cfg t (a :: q) s) (ha : Waits cfg a s) :
    processLabel cfg names fuel a s = .ok ([a], s) ∧ visits cfg a s = [] ∧
      Orderly cfg t (q ++ [a]) s := by
  have hne := (h.marked.queued a List.mem_cons_self).2
  have hsealed := h.marked.notMem_sealed ha.2
  refine ⟨?_, ?_, h.defined, h.marked.rotate, h.recorded⟩
  · rw [processLabel_unsealed hne ha.2 hsealed]
    exact if_neg ha.1
  · rw [visits_unsealed hne ha.2 hsealed]
    exact if_neg fun h => ha.1 h.2

theorem Marked.readable (hcfg : cfg.LoopFree) (h : Marked cfg q s) {s₁ : State}
    (ha : isSealable cfg a s = true) (hsealed : ∀ l ∈ s.sealedBasicBlocks, l ∈ s₁.sealedBasicBlocks)
    (hself : a ∈ s₁.sealedBasicBlocks) : ∀ l ∈ before cfg a, l ∈ s₁.sealedBasicBlocks := by
  have hpreceding : ∀ p l, isSealable cfg l s = true → cfg.Precedes p l →
      p ∈ s.sealedBasicBlocks := fun p l hl hp =>
    h.isSealed p (isSealable_iff.mp hl p hp) (ne_exit_of_precedes hcfg hp)
  intro l hl
  rcases ReflTransGen.cases_tail hl with rfl | ⟨p, hlp, hp⟩
  · exact hself
  · have hmem : ∀ l, ReflTransGen cfg.Precedes l p → l ∈ s.sealedBasicBlocks := by
      intro l hl
      induction hl using ReflTransGen.head_induction_on with
      | refl => exact hpreceding p a ha hp
      | head hstep _ ih => exact hpreceding _ _ (h.sealable _ ih) hstep
    exact hsealed l (hmem l hlp)

theorem Orderly.instruction_isSome (hcfg : cfg.LoopFree) (h : Orderly cfg t (a :: q) s)
    (hv : cfg.labelToVertex.find? a = some v) (hfilled : a ∉ s.filledBasicBlocks) :
    v.instruction.isSome = true := by
  have hne := (h.marked.queued a List.mem_cons_self).2
  by_cases hexit : a = cfg.exitLabel
  · by_contra hnone
    rw [← holdsInstruction_eq hv, Bool.not_eq_true, hexit] at hnone
    exact hfilled (hexit ▸ h.marked.emptyExit hnone)
  · exact Option.isSome_iff_ne_none.mpr (hcfg.regular a v hv hne hexit)

theorem processSealed_unfilled (hv : cfg.labelToVertex.find? a = some v)
    (hfilled : a ∉ s.filledBasicBlocks) (hsome : v.instruction.isSome = true) :
    processSealed cfg names fuel a s =
      (visitBlock cfg names fuel v s >>= fun s => .ok (nextLabels cfg a, s.fill a)) := by
  have hnone : ¬ v.instruction.isNone = true := by
    rw [← Option.not_isSome, hsome]
    decide
  unfold processSealed
  rw [if_neg hfilled, getVertex_eq hv]
  exact if_neg hnone

theorem Orderly.visitSealable (hcfg : cfg.LoopFree) (h : Orderly cfg t (a :: q) s)
    (ha : isSealable cfg a s = true) {l : List ℤ}
    (hnext : processLabel cfg names fuel a s = .ok (l, s')) :
    Orderly cfg (t ++ visits cfg a s) (q ++ l) s' ∧
      (unfilled cfg s' < unfilled cfg s ∨ unfilled cfg s' = unfilled cfg s ∧ l = []) := by
  obtain ⟨⟨v, hv⟩, hne⟩ := h.marked.queued a List.mem_cons_self
  rw [processLabel_sealable hne ha] at hnext
  rw [visits_sealable hne ha]
  by_cases hfilled : a ∈ s.filledBasicBlocks
  · unfold processSealed at hnext
    rw [if_pos (show a ∈ (s.sealBasicBlock a).filledBasicBlocks from hfilled)] at hnext
    cases hnext
    rw [if_neg fun h => h.2 hfilled, List.append_nil, List.append_nil]
    exact ⟨⟨h.defined.sealBasicBlock a, h.marked.sealFilled ha hfilled,
      h.recorded.mem_iff, h.recorded.nodup⟩, Or.inr ⟨rfl, rfl⟩⟩
  · have hsome := h.instruction_isSome hcfg hv hfilled
    have hholds : holdsInstruction cfg a = true := (holdsInstruction_eq hv).trans hsome
    have hdefined := h.defined.sealBasicBlock a
    rw [processSealed_unfilled (s := s.sealBasicBlock a) hv hfilled hsome] at hnext
    obtain ⟨s₁, hvisit, hnext⟩ := bind_eq_ok hnext
    cases hnext
    have hvisiting := visitBlock_visiting hcfg hdefined.live hdefined.complete
      (hcfg.label a v hv) (hcfg.instructions a v hv) hvisit
    have hfill : (s₁.fill a).filledBasicBlocks = a :: s.filledBasicBlocks :=
      congrArg (List.cons a) hvisiting.filled
    have hsealed : ∀ l ∈ (s.sealBasicBlock a).sealedBasicBlocks,
        l = a ∨ l ∈ (s.sealBasicBlock a).filledBasicBlocks := fun l hl =>
      (List.mem_cons.mp hl).imp_right (h.marked.isFilled l)
    rw [if_pos ⟨hholds, hfilled⟩]
    exact ⟨⟨hdefined.fill hcfg hv hsealed hvisiting,
      h.marked.fillSealed hcfg ha hfill hvisiting.isSealed,
      h.recorded.fill hfilled hholds hfill⟩, Or.inl (unfilled_lt hv hfilled hfill)⟩

theorem Orderly.reaches (hcfg : cfg.LoopFree) (h : Orderly cfg t (a :: q) s)
    (ha : isSealable cfg a s = true) {name : String} (hknown : isKnown cfg name a = true) :
    (s.sealBasicBlock a).Reaches cfg name a := by
  have hsub : s.sealedBasicBlocks ⊆ (s.sealBasicBlock a).sealedBasicBlocks := fun l hl =>
    List.mem_cons_of_mem a hl
  have hmarked := h.marked.readable hcfg ha hsub List.mem_cons_self
  have hdefined := h.defined.sealBasicBlock a
  refine reaches_of_comesWith hdefined.initial (fun p hp => ?_) hknown
  refine reaches_of_isAssigned hdefined.initial fun l hl v hv => hdefined.written l ?_ v hv
  have hne : l ≠ a := by
    rintro rfl
    exact notMem_before hcfg hp hl
  have hmem := (List.mem_cons.mp (hmarked l (before_subset hp hl))).resolve_left hne
  exact h.marked.isFilled l hmem

variable (names) in
theorem Orderly.exists_visitSealable (hcfg : cfg.LoopFree) (hreads : ReadsKnown cfg)
    (hfuel : cfg.labelToVertex.entries.length ≤ fuel) (h : Orderly cfg t (a :: q) s)
    (ha : isSealable cfg a s = true) :
    ∃ l s', processLabel cfg names fuel a s = .ok (l, s') := by
  obtain ⟨⟨v, hv⟩, hne⟩ := h.marked.queued a List.mem_cons_self
  rw [processLabel_sealable hne ha]
  by_cases hfilled : a ∈ s.filledBasicBlocks
  · exact ⟨[], s.sealBasicBlock a, if_pos hfilled⟩
  · have hdefined := h.defined.sealBasicBlock a
    have hdistance : distance cfg a < fuel := (distance_lt_length hcfg ⟨v, hv⟩).trans_le hfuel
    obtain ⟨s', hs'⟩ := visitBlock_readable names hcfg hdistance
      (h.marked.readable hcfg ha (fun l hl => List.mem_cons_of_mem a hl) List.mem_cons_self)
      hdefined.live hdefined.complete (hcfg.label a v hv)
      (fun name hknown => h.reaches hcfg ha hknown) (hreads a v hv)
    refine ⟨nextLabels cfg a, s'.fill a, ?_⟩
    rw [processSealed_unfilled (s := s.sealBasicBlock a) hv hfilled
      (h.instruction_isSome hcfg hv hfilled), hs']
    rfl

/-- What the exit needs if it is taken: that the blocks in front of it are filled, or that it is
empty, or that it has not been visited and reads only what it writes itself. -/
def Met (cfg : TypedUnit) (s : State) : Prop :=
  isSealable cfg cfg.exitLabel s = true ∨ holdsInstruction cfg cfg.exitLabel = false ∨
    cfg.exitLabel ∉ s.filledBasicBlocks ∧
      ∀ v, cfg.labelToVertex.find? cfg.exitLabel = some v → readsOwn v s.value = true

theorem processUnsealed_exit (hv : cfg.labelToVertex.find? cfg.exitLabel = some v) :
    processUnsealed cfg names fuel cfg.exitLabel s =
      (visitBlock cfg names fuel v s >>= fun s => .ok ([], s.fill cfg.exitLabel)) := by
  unfold processUnsealed
  rw [if_pos rfl, getVertex_eq hv]
  rfl

theorem Orderly.visitExit (hcfg : cfg.LoopFree) (h : Orderly cfg t (cfg.exitLabel :: q) s)
    (hexit : isSealable cfg cfg.exitLabel s = false) (hmet : Met cfg s) {l : List ℤ}
    (hnext : processLabel cfg names fuel cfg.exitLabel s = .ok (l, s')) :
    Orderly cfg (t ++ visits cfg cfg.exitLabel s) (q ++ l) s' ∧
      (unfilled cfg s' < unfilled cfg s ∨ unfilled cfg s' = unfilled cfg s ∧ l = []) := by
  obtain ⟨⟨v, hv⟩, hne⟩ := h.marked.queued _ List.mem_cons_self
  have hsealed := h.marked.notMem_sealed hexit
  have hunsealable : ¬ isSealable cfg cfg.exitLabel s = true := by
    rw [hexit]
    decide
  rw [processLabel_unsealed hne hexit hsealed, processUnsealed_exit hv] at hnext
  rw [visits_unsealed hne hexit hsealed]
  obtain ⟨s₁, hvisit, hnext⟩ := bind_eq_ok hnext
  cases hnext
  have hvisiting := visitBlock_visiting hcfg h.defined.live h.defined.complete
    (hcfg.label _ v hv) (hcfg.instructions _ v hv) hvisit
  have hdefined := h.defined.fill hcfg hv (fun l hl => Or.inr (h.marked.isFilled l hl)) hvisiting
  have hfill : (s₁.fill cfg.exitLabel).filledBasicBlocks =
      cfg.exitLabel :: s.filledBasicBlocks := congrArg (List.cons _) hvisiting.filled
  have hmarked := h.marked.fillExit hcfg hexit hfill hvisiting.isSealed
  cases hholds : holdsInstruction cfg cfg.exitLabel with
  | false =>
    have hmem := h.marked.emptyExit hholds
    rw [if_neg fun h => Bool.false_ne_true h.1, List.append_nil, List.append_nil]
    exact ⟨⟨hdefined, hmarked, h.recorded.refill hholds hfill⟩,
      Or.inr ⟨unfilled_eq hmem hfill, rfl⟩⟩
  | true =>
    have htaken := (hmet.resolve_left hunsealable).resolve_left fun hempty =>
      Bool.false_ne_true (hempty.symm.trans hholds)
    rw [if_pos ⟨rfl, rfl⟩, List.append_nil]
    exact ⟨⟨hdefined, hmarked, h.recorded.fill htaken.1 hholds hfill⟩,
      Or.inl (unfilled_lt hv htaken.1 hfill)⟩

variable (names) in
theorem Orderly.exists_visitExit (hcfg : cfg.LoopFree)
    (hfuel : cfg.labelToVertex.entries.length ≤ fuel) (h : Orderly cfg t (cfg.exitLabel :: q) s)
    (hexit : isSealable cfg cfg.exitLabel s = false) (hmet : Met cfg s) :
    ∃ l s', processLabel cfg names fuel cfg.exitLabel s = .ok (l, s') := by
  obtain ⟨⟨v, hv⟩, hne⟩ := h.marked.queued _ List.mem_cons_self
  have hunsealable : ¬ isSealable cfg cfg.exitLabel s = true := by
    rw [hexit]
    decide
  rw [processLabel_unsealed hne hexit (h.marked.notMem_sealed hexit), processUnsealed_exit hv]
  rcases hmet.resolve_left hunsealable with hempty | ⟨hnot, hown⟩
  · refine ⟨[], s.fill cfg.exitLabel, ?_⟩
    rw [holdsInstruction_eq hv] at hempty
    unfold visitBlock
    rw [instructions_eq_nil hempty]
    rfl
  · have hpos : 0 < fuel := (Nat.zero_le _).trans_lt
      ((distance_lt_length hcfg ⟨v, hv⟩).trans_le hfuel)
    obtain ⟨s', hs'⟩ := visitBlock_own names hpos h.defined.live h.defined.complete
      (h.defined.exit_undefined hcfg hnot) (hcfg.label _ v hv) (hown v hv)
    refine ⟨[], s'.fill cfg.exitLabel, ?_⟩
    rw [hs']
    rfl

end Steps

section Start

variable {cfg : TypedUnit} {names : List String} {fuel value : ℕ} {s s' : State}

/-- What the initial variables leave behind: they are defined, and at the entry only. -/
structure Initial (cfg : TypedUnit) (vs : List Variable) (s : State) : Prop where
  live : s.Live
  phis : s.valueToPhiCandidate = .empty
  filled : s.filledBasicBlocks = []
  isSealed : s.sealedBasicBlocks = []
  atEntry : ∀ n l, s.definition n l ≠ none → l = cfg.entryLabel ∧ ∃ v ∈ vs, v.name = n
  defined : ∀ v ∈ vs, s.definition v.name cfg.entryLabel ≠ none

theorem initial_start (cfg : TypedUnit) (value : ℕ) : Initial cfg [] (.start value) where
  live := ⟨nofun, nofun, nofun, nofun⟩
  phis := rfl
  filled := rfl
  isSealed := rfl
  atEntry _ _ h := absurd rfl h
  defined := nofun

theorem Initial.defineInitially {vs : List Variable} (h : Initial cfg vs s) (v : Variable) :
    Initial cfg (vs ++ [v]) (defineInitially cfg s v) where
  live := by
    have hlive := h.live.define (initialVariable cfg v s.value)
    exact .writeVariable (h.live.exists_define _) hlive.owned hlive.candidates hlive.erased
      fun n l w _ hw => hlive.defined n l w hw
  phis := h.phis
  filled := h.filled
  isSealed := h.isSealed
  atEntry n l hdef := by
    unfold SsaPass.defineInitially at hdef
    rw [definition_writeVariable] at hdef
    split_ifs at hdef with heq
    · exact ⟨heq.2, v, List.mem_append_right vs (List.mem_singleton_self v), heq.1.symm⟩
    · exact (h.atEntry n l hdef).imp_right fun ⟨w, hw, hname⟩ =>
        ⟨w, List.mem_append_left [v] hw, hname⟩
  defined w hw := by
    unfold SsaPass.defineInitially
    rw [definition_writeVariable]
    split_ifs with heq
    · exact Option.some_ne_none _
    · rcases List.mem_append.mp hw with hw | hw
      · exact h.defined w hw
      · exact absurd ⟨congrArg Variable.name (List.mem_singleton.mp hw), rfl⟩ heq

theorem Initial.foldl {vs : List Variable} (h : Initial cfg vs s) (ws : List Variable) :
    Initial cfg (vs ++ ws) (ws.foldl (SsaPass.defineInitially cfg) s) := by
  induction ws generalizing vs s with
  | nil => rwa [List.append_nil]
  | cons w ws ih =>
    have hnext := ih (h.defineInitially w)
    rwa [List.append_assoc] at hnext

/-- Before the worklist starts, empty blocks are filled and the entry is sealed. -/
structure Prepared (cfg : TypedUnit) (s : State) : Prop where
  defined : Defined cfg s
  isSealed : s.sealedBasicBlocks = [cfg.entryLabel]
  filled : ∀ l ∈ s.filledBasicBlocks,
    (l = cfg.entryLabel ∨ l = cfg.exitLabel) ∧ holdsInstruction cfg l = false
  atEntry : ∀ n l, s.definition n l ≠ none → l = cfg.entryLabel ∧ declared cfg n = true

theorem writtenNames_eq_nil {l : ℤ} {v : BlockVertex} (hv : cfg.labelToVertex.find? l = some v)
    (hempty : holdsInstruction cfg l = false) : writtenNames v.instructions = [] := by
  rw [holdsInstruction_eq hv] at hempty
  rw [instructions_eq_nil hempty]
  rfl

theorem Prepared.fillEmpty {l : ℤ} (h : Prepared cfg s)
    (hl : l = cfg.entryLabel ∨ l = cfg.exitLabel) :
    Prepared cfg (if holdsInstruction cfg l = false then s.fill l else s) := by
  split_ifs with hempty
  · have hdefined := h.defined
    refine {
      defined := ⟨⟨hdefined.live.defined, hdefined.live.owned, hdefined.live.candidates,
        hdefined.live.erased⟩, hdefined.complete, hdefined.initial,
        fun l' hl' => hdefined.undefined l' fun hmem => hl' (List.mem_cons_of_mem l hmem), ?_,
        hdefined.assigned⟩
      isSealed := h.isSealed
      filled := List.forall_mem_cons.mpr ⟨⟨hl, hempty⟩, h.filled⟩
      atEntry := h.atEntry }
    refine List.forall_mem_cons.mpr ⟨fun v hv n hn => ?_, hdefined.written⟩
    rw [writtenNames_eq_nil hv hempty] at hn
    cases hn
  · exact h

theorem exists_entry (hcfg : cfg.LoopFree) :
    ∃ v, cfg.labelToVertex.find? cfg.entryLabel = some v := by
  obtain ⟨next, hnext⟩ := hcfg.entry
  have hp : cfg.Precedes cfg.entryLabel next :=
    mem_getSucceedingLabels.mp (hnext ▸ List.mem_singleton_self next)
  obtain ⟨e, he, hsource, -⟩ := BlockCfg.precedes_iff.mp hp
  exact hsource ▸ hcfg.source e he

theorem fillEmpty_eq {l : ℤ} (hl : ∃ v, cfg.labelToVertex.find? l = some v) (s : State) :
    fillEmpty cfg l s = .ok (if holdsInstruction cfg l = false then s.fill l else s) := by
  obtain ⟨v, hv⟩ := hl
  unfold fillEmpty
  rw [getVertex_eq hv, holdsInstruction_eq hv]
  change Except.ok (if v.instruction.isNone = true then s.fill l else s) = _
  cases v.instruction <;> rfl

theorem returnLabels_eq (hcfg : cfg.LoopFree) : returnLabels cfg = [] := by
  unfold returnLabels
  rw [List.filter_eq_nil_iff.mpr, List.map_nil]
  intro e he
  simpa using (hcfg.callFree e he).2.2

theorem Initial.declared_atEntry
    (h : Initial cfg (cfg.interface.getVariables.filter (·.storageType ≠ .temporary)) s)
    {n : String} {l : ℤ} (hdef : s.definition n l ≠ none) :
    l = cfg.entryLabel ∧ declared cfg n = true := by
  obtain ⟨hl, v, hv, hname⟩ := h.atEntry n l hdef
  exact ⟨hl, List.any_eq_true.mpr ⟨v, hv, decide_eq_true hname⟩⟩

theorem Initial.notMem_filled {vs : List Variable} (h : Initial cfg vs s) (l : ℤ) :
    l ∉ s.filledBasicBlocks := by
  rw [h.filled]
  exact List.not_mem_nil

theorem Initial.toDefined
    (h : Initial cfg (cfg.interface.getVariables.filter (·.storageType ≠ .temporary)) s) :
    Defined cfg s := by
  refine ⟨h.live, ?_, ?_, fun l _ n hdef => h.declared_atEntry hdef,
    fun l hl => absurd hl (h.notMem_filled l), ?_⟩
  · intro v phi hphi
    rw [h.phis] at hphi
    cases hphi
  · intro name hname
    obtain ⟨v, hv, hv'⟩ := List.any_eq_true.mp hname
    exact of_decide_eq_true hv' ▸ h.defined v hv
  · intro n l hdef
    obtain ⟨rfl, hdeclared⟩ := h.declared_atEntry hdef
    exact Or.inr (.of_declared hdeclared)

theorem exists_prepare (hcfg : cfg.LoopFree) (value : ℕ) :
    ∃ s, prepare cfg value = .ok s ∧ Prepared cfg s ∧
      (holdsInstruction cfg cfg.exitLabel = false → cfg.exitLabel ∈ s.filledBasicBlocks) := by
  have hinitial := (initial_start cfg value).foldl
    (cfg.interface.getVariables.filter (·.storageType ≠ .temporary))
  change Initial cfg _ (writeInitialVariables cfg value) at hinitial
  have hstart : Prepared cfg ((writeInitialVariables cfg value).sealBasicBlock cfg.entryLabel) :=
    ⟨hinitial.toDefined.sealBasicBlock _, congrArg (List.cons _) hinitial.isSealed,
      fun l hl => absurd hl (hinitial.notMem_filled l), fun n l => hinitial.declared_atEntry⟩
  unfold prepare
  simp only [fillEmpty_eq (exists_entry hcfg), fillEmpty_eq hcfg.exit, returnLabels_eq hcfg]
  refine ⟨_, rfl, (hstart.fillEmpty (Or.inl rfl)).fillEmpty (Or.inr rfl), fun hempty => ?_⟩
  rw [List.foldl_nil, if_pos hempty]
  exact List.mem_cons_self

theorem Prepared.readable (hcfg : cfg.LoopFree) (h : Prepared cfg s) :
    ∀ l ∈ before cfg cfg.entryLabel, l ∈ s.sealedBasicBlocks := by
  intro l hl
  rcases ReflTransGen.cases_tail hl with rfl | ⟨p, -, hp⟩
  · exact h.isSealed ▸ List.mem_singleton_self _
  · exact absurd rfl (ne_entry_of_precedes hcfg hp)

variable (names) in
theorem Prepared.exists_visitEntry (hcfg : cfg.LoopFree) (hreads : ReadsKnown cfg)
    (hfuel : cfg.labelToVertex.entries.length ≤ fuel) (h : Prepared cfg s) :
    ∃ l s', processLabel cfg names fuel cfg.entryLabel s = .ok (l, s') := by
  obtain ⟨v, hv⟩ := exists_entry hcfg
  obtain ⟨next, hnext⟩ := hcfg.entry
  have hdistance : distance cfg cfg.entryLabel < fuel :=
    (distance_lt_length hcfg ⟨v, hv⟩).trans_le hfuel
  have hreaches : ∀ name, isKnown cfg name cfg.entryLabel = true →
      s.Reaches cfg name cfg.entryLabel := fun name hknown =>
    reaches_of_comesWith h.defined.initial
      (fun p hp => absurd rfl (ne_entry_of_precedes hcfg hp)) hknown
  obtain ⟨s', hs'⟩ := visitBlock_readable names hcfg hdistance (h.readable hcfg) h.defined.live
    h.defined.complete (hcfg.label _ v hv) hreaches (hreads _ v hv)
  refine ⟨[next], s'.fill cfg.entryLabel, ?_⟩
  unfold processLabel processEntry
  rw [if_pos rfl, getVertex_eq hv]
  change (visitBlock cfg names fuel v s >>= _) = _
  rw [hs', hnext]
  rfl

theorem processEntry_ok {next : ℤ} {v : BlockVertex} {l : List ℤ}
    (hv : cfg.labelToVertex.find? cfg.entryLabel = some v)
    (hnext : cfg.getSucceedingLabels cfg.entryLabel = [next])
    (hok : processLabel cfg names fuel cfg.entryLabel s = .ok (l, s')) :
    ∃ s₁, visitBlock cfg names fuel v s = .ok s₁ ∧ l = [next] ∧
      s' = s₁.fill cfg.entryLabel := by
  unfold processLabel processEntry at hok
  rw [if_pos rfl, getVertex_eq hv, hnext] at hok
  obtain ⟨_, hvertex, hok⟩ := bind_eq_ok hok
  cases hvertex
  obtain ⟨s₁, hvisit, hok⟩ := bind_eq_ok hok
  cases hok
  exact ⟨s₁, hvisit, rfl, rfl⟩

theorem Prepared.marked (hcfg : cfg.LoopFree) (h : Prepared cfg s)
    (hexit : holdsInstruction cfg cfg.exitLabel = false → cfg.exitLabel ∈ s.filledBasicBlocks)
    {next : ℤ} (hnext : cfg.getSucceedingLabels cfg.entryLabel = [next])
    (hfill : s'.filledBasicBlocks = cfg.entryLabel :: s.filledBasicBlocks)
    (hsealed : s'.sealedBasicBlocks = [cfg.entryLabel]) : Marked cfg [next] s' where
  entry := hsealed ▸ List.mem_singleton_self _
  queued := by
    intro l hl
    obtain rfl := List.mem_singleton.mp hl
    have hp : cfg.Precedes cfg.entryLabel l :=
      mem_getSucceedingLabels.mp (hnext ▸ List.mem_singleton_self l)
    exact ⟨isVertex_of_precedes hcfg hp, ne_entry_of_precedes hcfg hp⟩
  sealable := by
    intro l hl
    rw [hsealed] at hl
    obtain rfl := List.mem_singleton.mp hl
    exact isSealable_iff.mpr fun p hp => absurd rfl (ne_entry_of_precedes hcfg hp)
  isFilled := by
    rw [hsealed, hfill]
    simp
  isSealed := by
    intro l hl hne
    rw [hfill] at hl
    rw [hsealed, List.mem_singleton]
    rcases List.mem_cons.mp hl with rfl | hl
    · rfl
    · exact (h.filled l hl).1.resolve_right hne
  waiting := by
    intro l w hw hl
    by_cases hentry : l = cfg.entryLabel
    · exact Or.inl (hsealed ▸ List.mem_singleton.mpr hentry)
    · obtain ⟨p, hp⟩ := exists_precedes hcfg ⟨w, hw⟩ hentry
      have hmem := isSealable_iff.mp hl p hp
      rw [hfill] at hmem
      have hpentry : p = cfg.entryLabel := (List.mem_cons.mp hmem).elim id fun hmem =>
        (h.filled p hmem).1.resolve_right (ne_exit_of_precedes hcfg hp)
      exact Or.inr (hnext ▸ mem_getSucceedingLabels.mpr (hpentry ▸ hp))
  emptyExit := fun hempty => hfill ▸ List.mem_cons_of_mem _ (hexit hempty)

theorem Prepared.recorded (h : Prepared cfg s)
    (hfill : s'.filledBasicBlocks = cfg.entryLabel :: s.filledBasicBlocks) :
    Recorded cfg (visits cfg cfg.entryLabel s) s' := by
  have hvisits : visits cfg cfg.entryLabel s =
      if holdsInstruction cfg cfg.entryLabel = true then [cfg.entryLabel] else [] := by
    unfold visits
    simp
  rw [hvisits]
  have hold : ∀ l ∈ s.filledBasicBlocks, ¬ holdsInstruction cfg l = true := fun l hl => by
    rw [(h.filled l hl).2]
    decide
  constructor
  · intro l
    rw [hfill, List.mem_cons]
    by_cases hl : l = cfg.entryLabel
    · subst hl
      split_ifs with hholds <;> simp [hholds]
    · have hnot : ¬(l ∈ s.filledBasicBlocks ∧ holdsInstruction cfg l = true) := fun hboth =>
        hold l hboth.1 hboth.2
      split_ifs <;> simp [hl, hnot]
  · split_ifs
    · exact List.nodup_singleton _
    · exact List.nodup_nil

/-- The entry is visited, and the block behind it comes into the queue. -/
theorem Prepared.visitEntry (hcfg : cfg.LoopFree) (h : Prepared cfg s)
    (hexit : holdsInstruction cfg cfg.exitLabel = false → cfg.exitLabel ∈ s.filledBasicBlocks)
    {l : List ℤ} (hok : processLabel cfg names fuel cfg.entryLabel s = .ok (l, s')) :
    Orderly cfg (visits cfg cfg.entryLabel s) l s' := by
  obtain ⟨v, hv⟩ := exists_entry hcfg
  obtain ⟨next, hnext⟩ := hcfg.entry
  obtain ⟨s₁, hvisit, rfl, rfl⟩ := processEntry_ok hv hnext hok
  have hvisited := visitBlock_visiting hcfg h.defined.live h.defined.complete
    (hcfg.label _ v hv) (hcfg.instructions _ v hv) hvisit
  have hfill : (s₁.fill cfg.entryLabel).filledBasicBlocks =
      cfg.entryLabel :: s.filledBasicBlocks := congrArg (List.cons _) hvisited.filled
  have hsealed : (s₁.fill cfg.entryLabel).sealedBasicBlocks = [cfg.entryLabel] :=
    hvisited.isSealed.trans h.isSealed
  have hsealedFirst : ∀ l ∈ s.sealedBasicBlocks,
      l = cfg.entryLabel ∨ l ∈ s.filledBasicBlocks := fun l hl => by
    rw [h.isSealed] at hl
    exact Or.inl (List.mem_singleton.mp hl)
  exact ⟨h.defined.fill hcfg hv hsealedFirst hvisited,
    h.marked hcfg hexit hnext hfill hsealed, h.recorded hfill⟩

end Start

end Ahorn.SsaPass
