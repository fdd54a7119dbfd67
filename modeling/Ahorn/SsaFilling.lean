import Ahorn.SsaWorklist

set_option autoImplicit false

/-!
# Filling every block once

In a unit without loops whose blocks read only what has a value, the worklist ends with every block
visited once and sealed after those in front of it, exactly if the exit is not taken too early or
does no harm then.
-/
namespace Ahorn.SsaPass

open Relation (ReflTransGen)

section Runs

variable {cfg : TypedUnit} {names : List String} {fuel : ℕ} {s s' : State}
variable {t q : List ℤ} {a : ℤ}

theorem Orderly.step (hcfg : cfg.LoopFree) (h : Orderly cfg t (a :: q) s)
    (ha : ¬ Waits cfg a s) (hmet : a = cfg.exitLabel → Met cfg s) {l : List ℤ}
    (hnext : processLabel cfg names fuel a s = .ok (l, s')) :
    Orderly cfg (t ++ visits cfg a s) (q ++ l) s' ∧
      (unfilled cfg s' < unfilled cfg s ∨ unfilled cfg s' = unfilled cfg s ∧ l = []) := by
  cases hsealable : isSealable cfg a s with
  | true => exact h.visitSealable hcfg hsealable hnext
  | false =>
    have hexit : a = cfg.exitLabel := not_not.mp fun hne => ha ⟨hne, hsealable⟩
    subst hexit
    exact h.visitExit hcfg hsealable (hmet rfl) hnext

variable (names) in
theorem Orderly.exists_step (hcfg : cfg.LoopFree) (hreads : ReadsKnown cfg)
    (hfuel : cfg.labelToVertex.entries.length ≤ fuel) (h : Orderly cfg t (a :: q) s)
    (ha : ¬ Waits cfg a s) (hmet : a = cfg.exitLabel → Met cfg s) :
    ∃ l s', processLabel cfg names fuel a s = .ok (l, s') := by
  cases hsealable : isSealable cfg a s with
  | true => exact h.exists_visitSealable names hcfg hreads hfuel hsealable
  | false =>
    have hexit : a = cfg.exitLabel := not_not.mp fun hne => ha ⟨hne, hsealable⟩
    subst hexit
    exact h.exists_visitExit names hcfg hfuel hsealable (hmet rfl)

theorem exists_sealable (hcfg : cfg.LoopFree) {v : BlockVertex}
    (hv : cfg.labelToVertex.find? a = some v) (ha : a ∉ s.filledBasicBlocks) :
    ∃ l w, cfg.labelToVertex.find? l = some w ∧ l ∉ s.filledBasicBlocks ∧
      isSealable cfg l s = true := by
  induction a using hcfg.acyclic.induction generalizing v with
  | _ a ih =>
    by_cases hsealable : isSealable cfg a s = true
    · exact ⟨a, v, hv, ha, hsealable⟩
    · obtain ⟨p, hp, hnot⟩ := not_forall₂.mp fun hall => hsealable (isSealable_iff.mpr hall)
      obtain ⟨e, he, hsource, -⟩ := BlockCfg.precedes_iff.mp hp
      obtain ⟨w, hw⟩ := hcfg.source e he
      exact ih p hp (hsource ▸ hw) hnot

theorem Marked.exists_queued (hcfg : cfg.LoopFree) (h : Marked cfg q s) {v : BlockVertex}
    (hv : cfg.labelToVertex.find? a = some v) (ha : a ∉ s.filledBasicBlocks) :
    ∃ l ∈ q, isSealable cfg l s = true := by
  obtain ⟨l, w, hw, hl, hsealable⟩ := exists_sealable hcfg hv ha
  rcases h.waiting l w hw hsealable with hmem | hmem
  · exact absurd (h.isFilled l hmem) hl
  · exact ⟨l, hmem, hsealable⟩

theorem Marked.ready (hcfg : cfg.LoopFree) (h : Marked cfg q s) (hq : q ≠ []) :
    ∃ l ∈ q, ¬ Waits cfg l s := by
  obtain ⟨a, ha⟩ := List.exists_mem_of_ne_nil q hq
  cases hsealable : isSealable cfg a s with
  | true => exact ⟨a, ha, fun hwaits => Bool.false_ne_true (hwaits.2.symm.trans hsealable)⟩
  | false =>
    obtain ⟨p, hp, hnot⟩ := not_forall₂.mp fun hall =>
      Bool.false_ne_true (hsealable.symm.trans (isSealable_iff.mpr hall))
    obtain ⟨e, he, hsource, -⟩ := BlockCfg.precedes_iff.mp hp
    obtain ⟨v, hv⟩ := hcfg.source e he
    obtain ⟨l, hl, hsealed⟩ := h.exists_queued hcfg (hsource ▸ hv) hnot
    exact ⟨l, hl, fun hwaits => Bool.false_ne_true (hwaits.2.symm.trans hsealed)⟩

theorem Marked.all_filled (hcfg : cfg.LoopFree) (h : Marked cfg [] s) {v : BlockVertex}
    (hv : cfg.labelToVertex.find? a = some v) : a ∈ s.filledBasicBlocks := by
  by_contra ha
  obtain ⟨l, hl, -⟩ := h.exists_queued hcfg hv ha
  cases hl

theorem Comes.orderly (hcfg : cfg.LoopFree) (hs : Prepared cfg s)
    (hexit : holdsInstruction cfg cfg.exitLabel = false → cfg.exitLabel ∈ s.filledBasicBlocks)
    (hmet : ∀ t q s', Comes cfg names fuel s t (cfg.exitLabel :: q) s' →
      Orderly cfg t (cfg.exitLabel :: q) s' → Met cfg s')
    (h : Comes cfg names fuel s t q s') :
    t = [] ∧ q = [cfg.entryLabel] ∧ s' = s ∨ Orderly cfg t q s' := by
  induction h with
  | start => exact Or.inl ⟨rfl, rfl, rfl⟩
  | @step t a q l s₁ s₂ hcomes hnext ih =>
    right
    rcases ih with ⟨rfl, hq, rfl⟩ | horderly
    · obtain ⟨rfl, rfl⟩ := List.cons_eq_cons.mp hq
      exact hs.visitEntry hcfg hexit hnext
    · by_cases hwaits : Waits cfg a s₁
      · obtain ⟨hwait, hvisits, hrotated⟩ := horderly.wait names fuel hwaits
        rw [hwait] at hnext
        cases hnext
        rw [hvisits, List.append_nil]
        exact hrotated
      · exact (horderly.step hcfg hwaits
          (fun ha => hmet t q s₁ (ha ▸ hcomes) (ha ▸ horderly)) hnext).1

/-- What is expected of the worklist. It ends with all blocks filled, those with instructions each
after one visit; blocks are sealed after those in front of them, and no phi lacks an operand. -/
structure FillsOnce (cfg : TypedUnit) (names : List String) (fuel : ℕ) (s : State) : Prop where
  ends : ∃ n t s', (∀ m, n ≤ m → process cfg names fuel m [cfg.entryLabel] s = .ok s') ∧
    Comes cfg names fuel s t [] s' ∧
    (∀ l v, cfg.labelToVertex.find? l = some v → l ∈ s'.filledBasicBlocks) ∧
    (∀ l, holdsInstruction cfg l = true → l ∈ t) ∧
    ∃ s'', readFinally cfg fuel s' = .ok s'' ∧ s''.IsComplete cfg
  once : ∀ t q s', Comes cfg names fuel s t q s' → t.Nodup
  inOrder : ∀ t q s', Comes cfg names fuel s t q s' → ∀ l ∈ s'.sealedBasicBlocks,
    ∀ p, cfg.Precedes p l → p ∈ s'.filledBasicBlocks

theorem Orderly.readFinally (hcfg : cfg.LoopFree)
    (hfuel : cfg.labelToVertex.entries.length ≤ fuel) (h : Orderly cfg t [] s) :
    ∃ s', SsaPass.readFinally cfg fuel s = .ok s' ∧ s'.IsComplete cfg := by
  obtain ⟨v, hv⟩ := hcfg.exit
  have hsealable : isSealable cfg cfg.exitLabel s = true := isSealable_iff.mpr fun p hp => by
    obtain ⟨e, he, hsource, -⟩ := BlockCfg.precedes_iff.mp hp
    obtain ⟨w, hw⟩ := hcfg.source e he
    exact h.marked.all_filled hcfg (hsource ▸ hw)
  have hsealed : cfg.exitLabel ∈ s.sealedBasicBlocks :=
    (h.marked.waiting _ v hv hsealable).resolve_right List.not_mem_nil
  have hreadable := h.marked.readable hcfg hsealable (fun _ hl => hl) hsealed
  have hdistance := (distance_lt_length hcfg ⟨v, hv⟩).trans_le hfuel
  have hkeeps : ∃ s', SsaPass.readFinally cfg fuel s = .ok s' ∧
      Visited cfg cfg.exitLabel s s' := by
    apply foldlM_keeps
    · intro x hx s₁ hvisited
      obtain ⟨hx, hstorage⟩ := List.mem_filter.mp hx
      have hdeclared : declared cfg x.name = true := by
        refine List.any_eq_true.mpr ⟨x, List.mem_filter.mpr ⟨hx, ?_⟩, decide_eq_true rfl⟩
        exact decide_eq_true (of_decide_eq_true hstorage).1
      have hreaches : s₁.Reaches cfg x.name cfg.exitLabel :=
        reaches_of_declared hcfg (hvisited.kept _ _ (h.defined.initial _ hdeclared)) hdeclared
          ⟨v, hv⟩
      obtain ⟨w, s₂, hw⟩ := exists_readVariable hcfg hdistance
        (hvisited.isSealed ▸ hreadable) hreaches hvisited.live
      exact ⟨s₂, by rw [hw]; rfl, hvisited.found (readVariable_found hcfg hvisited.live hw)⟩
    · exact .refl h.defined.live h.defined.complete
  exact hkeeps.imp fun _ hs' => ⟨hs'.1, hs'.2.complete⟩

/-- If the worklist ends and visits no block twice, the exit is not taken too early, or it does no
harm. -/
theorem Orderly.met (hcfg : cfg.LoopFree) (hfills : FillsOnce cfg names fuel s)
    (hcomes : Comes cfg names fuel s t (cfg.exitLabel :: q) s')
    (h : Orderly cfg t (cfg.exitLabel :: q) s') : Met cfg s' := by
  by_contra hmet
  unfold Met at hmet
  rw [not_or, not_or, Bool.not_eq_true, Bool.not_eq_false] at hmet
  obtain ⟨hsealable, hholds, hnot⟩ := hmet
  obtain ⟨n, -, s₁, hrun, -⟩ := hfills.ends
  have hend := hrun n (le_refl n)
  rw [process_eq_run] at hend
  obtain ⟨m, hm⟩ := hcomes.run_eq hend
  obtain ⟨l, s₂, hnext⟩ := Worklist.exists_next hm
  have hne := (h.marked.queued _ List.mem_cons_self).2
  have hsealed := h.marked.notMem_sealed hsealable
  have hvisits : visits cfg cfg.exitLabel s' = [cfg.exitLabel] := by
    rw [visits_unsealed hne hsealable hsealed, if_pos ⟨hholds, rfl⟩]
  have hfilled : cfg.exitLabel ∉ s'.filledBasicBlocks := by
    -- a second visit
    intro hmem
    have honce := hfills.once _ _ _ (.step hcomes hnext)
    rw [hvisits] at honce
    have hvisited := (h.recorded.mem_iff _).mpr ⟨hmem, hholds⟩
    exact (List.nodup_append.mp honce).2.2 _ hvisited _ (List.mem_singleton_self _) rfl
  refine hnot ⟨hfilled, fun v hv => ?_⟩
  rw [processLabel_unsealed hne hsealable hsealed, processUnsealed_exit hv] at hnext
  obtain ⟨s₃, hvisit, -⟩ := bind_eq_ok hnext
  exact readsOwn_of_visitBlock h.defined.live h.defined.complete
    (h.defined.exit_undefined hcfg hfilled) hsealed (hcfg.label _ v hv)
    (hcfg.instructions _ v hv) hvisit

/-- The invariant with the blocks that have been visited so far. -/
def Reached (cfg : TypedUnit) (names : List String) (fuel : ℕ) (s : State) (q : List ℤ)
    (s' : State) : Prop :=
  ∃ t, Comes cfg names fuel s t q s' ∧ Orderly cfg t q s'

variable (names s) in
theorem progress (hcfg : cfg.LoopFree) (hreads : ReadsKnown cfg)
    (hfuel : cfg.labelToVertex.entries.length ≤ fuel)
    (hmet : ∀ t q s', Comes cfg names fuel s t (cfg.exitLabel :: q) s' → Met cfg s') :
    Worklist.Progress (processLabel cfg names fuel) (Reached cfg names fuel s) (Waits cfg)
      (unfilled cfg) where
  waits := by
    rintro a q s' ⟨t, hcomes, horderly⟩ hwaits
    obtain ⟨hnext, hvisits, hrotated⟩ := horderly.wait names fuel hwaits
    have hstep := hcomes.step hnext
    rw [hvisits, List.append_nil] at hstep
    exact ⟨hnext, t, hstep, hrotated⟩
  works := by
    rintro a q s' ⟨t, hcomes, horderly⟩ hworks
    have hmet' : a = cfg.exitLabel → Met cfg s' := fun ha => hmet t q s' (ha ▸ hcomes)
    obtain ⟨l, s₁, hnext⟩ := horderly.exists_step names hcfg hreads hfuel hworks hmet'
    obtain ⟨hnew, hless⟩ := horderly.step hcfg hworks hmet' hnext
    exact ⟨l, s₁, hnext, ⟨_, hcomes.step hnext, hnew⟩, hless⟩
  ready := by
    rintro q s' ⟨t, -, horderly⟩ hq
    exact horderly.marked.ready hcfg hq

theorem FillsOnce.of_met (hcfg : cfg.LoopFree) (hreads : ReadsKnown cfg)
    (hfuel : cfg.labelToVertex.entries.length ≤ fuel) (hs : Prepared cfg s)
    (hexit : holdsInstruction cfg cfg.exitLabel = false → cfg.exitLabel ∈ s.filledBasicBlocks)
    (hmet : ∀ t q s', Comes cfg names fuel s t (cfg.exitLabel :: q) s' → Met cfg s') :
    FillsOnce cfg names fuel s := by
  have horderly : ∀ t q s', Comes cfg names fuel s t q s' →
      t = [] ∧ q = [cfg.entryLabel] ∧ s' = s ∨ Orderly cfg t q s' := fun t q s' hcomes =>
    hcomes.orderly hcfg hs hexit fun t q s' h _ => hmet t q s' h
  constructor
  · obtain ⟨l, s₁, hnext⟩ := hs.exists_visitEntry names hcfg hreads hfuel
    have hfirst := hs.visitEntry hcfg hexit hnext
    have hprogress := progress names s hcfg hreads hfuel hmet
    obtain ⟨n, s', hrun, t, hcomes, hend⟩ := hprogress.terminates "out of fuel"
      ⟨_, Worklist.Traces.start.step hnext, hfirst⟩
    refine ⟨n + 1, t, s', fun m hm => ?_, hcomes, fun l v hv => hend.marked.all_filled hcfg hv,
      fun l hl => ?_, hend.readFinally hcfg hfuel⟩
    · obtain ⟨k, rfl⟩ := Nat.exists_eq_add_of_le hm
      rw [process_eq_run, Nat.add_right_comm, Worklist.run_cons hnext]
      exact hrun (n + k) (Nat.le_add_right n k)
    · cases hfind : cfg.labelToVertex.find? l with
      | none =>
        unfold holdsInstruction at hl
        rw [hfind] at hl
        cases hl
      | some v => exact (hend.recorded.mem_iff l).mpr ⟨hend.marked.all_filled hcfg hfind, hl⟩
  · intro t q s' hcomes
    rcases horderly t q s' hcomes with ⟨rfl, -, -⟩ | h
    · exact List.nodup_nil
    · exact h.recorded.nodup
  · intro t q s' hcomes l hl p hp
    rcases horderly t q s' hcomes with ⟨-, -, rfl⟩ | h
    · rw [hs.isSealed, List.mem_singleton] at hl
      exact absurd hl (ne_entry_of_precedes hcfg hp)
    · exact isSealable_iff.mp (h.marked.sealable l hl) p hp

theorem FillsOnce.met (hcfg : cfg.LoopFree) (hs : Prepared cfg s)
    (hexit : holdsInstruction cfg cfg.exitLabel = false → cfg.exitLabel ∈ s.filledBasicBlocks)
    (hfills : FillsOnce cfg names fuel s)
    (hcomes : Comes cfg names fuel s t (cfg.exitLabel :: q) s') : Met cfg s' := by
  rcases hcomes.orderly hcfg hs hexit fun t q s' hcomes h => h.met hcfg hfills hcomes with
    ⟨-, hq, -⟩ | h
  · exact absurd (List.cons_eq_cons.mp hq).1.symm (entry_ne_exit hcfg)
  · exact h.met hcfg hfills hcomes

theorem Defined.reads (hcfg : cfg.LoopFree) (h : Defined cfg s) (hnames : NamesApart cfg)
    {v : BlockVertex} (hv : cfg.labelToVertex.find? a = some v)
    (hown : ∀ name, s.definition name a ≠ none → a = cfg.entryLabel ∧ declared cfg name = true)
    (hok : visitBlock cfg names fuel v s = .ok s') :
    (readsBlock (fun name => isKnown cfg name a) (fun _ => []) v.instructions (0, [])).isSome =
      true := by
  refine (visitBlock_reads hcfg h.live h.complete (hcfg.label a v hv) (hcfg.instructions a v hv)
    (fun name => ¬ IsConstantName name) _ (fun name hname hreaches => ?_) (hnames a v hv) hok).1
  exact isKnown_of_reaches hcfg (fun l hdef => (h.assigned name l hdef).resolve_left hname)
    (hown name) (hreaches.resolve_right hname)

theorem FillsOnce.readsKnown (hcfg : cfg.LoopFree) (hs : Prepared cfg s)
    (hexit : holdsInstruction cfg cfg.exitLabel = false → cfg.exitLabel ∈ s.filledBasicBlocks)
    (hnames : NamesApart cfg) (hfills : FillsOnce cfg names fuel s) : ReadsKnown cfg := by
  intro l v hv
  cases hholds : holdsInstruction cfg l with
  | false =>
    rw [holdsInstruction_eq hv] at hholds
    rw [instructions_eq_nil hholds]
    rfl
  | true =>
    obtain ⟨n, t, s', -, hcomes, -, hvisited, -⟩ := hfills.ends
    obtain ⟨t₁, a, q, l', s₁, s₂, hbefore, hnext, hmem⟩ :=
      Worklist.exists_emitted hcomes (hvisited l hholds)
    obtain ⟨rfl, -, hcases⟩ := mem_visits.mp hmem
    have hmet : ∀ {t q s'}, Comes cfg names fuel s t (cfg.exitLabel :: q) s' → Met cfg s' :=
      fun hcomes => hfills.met hcfg hs hexit hcomes
    rcases Comes.orderly hcfg hs hexit (fun t q s' hcomes _ => hmet hcomes) hbefore with
      ⟨-, hq, rfl⟩ | horderly
    · obtain ⟨rfl, -⟩ := List.cons_eq_cons.mp hq
      obtain ⟨next, hentry⟩ := hcfg.entry
      obtain ⟨s₃, hvisit, -, -⟩ := processEntry_ok hv hentry hnext
      exact hs.defined.reads hcfg hnames hv (fun name hdef => hs.atEntry name _ hdef) hvisit
    · have hne := (horderly.marked.queued _ List.mem_cons_self).2
      have hcases := hcases.resolve_left hne
      cases hsealable : isSealable cfg l s₁ with
      | true =>
        rw [if_pos (Or.inl hsealable)] at hcases
        rw [processLabel_sealable hne hsealable, processSealed_unfilled (s := s₁.sealBasicBlock l)
          hv hcases (holdsInstruction_eq hv ▸ hholds)] at hnext
        obtain ⟨s₃, hvisit, -⟩ := bind_eq_ok hnext
        have hdefined := horderly.defined.sealBasicBlock l
        exact hdefined.reads hcfg hnames hv (hdefined.undefined l hcases) hvisit
      | false =>
        have hsealed := horderly.marked.notMem_sealed hsealable
        rw [if_neg (by simp [hsealable, hsealed])] at hcases
        subst hcases
        rw [processLabel_unsealed hne hsealable hsealed, processUnsealed_exit hv] at hnext
        obtain ⟨s₃, hvisit, -⟩ := bind_eq_ok hnext
        have hfilled : cfg.exitLabel ∉ s₁.filledBasicBlocks := by
          rcases hmet hbefore with h | h | h
          · rw [hsealable] at h
            cases h
          · rw [hholds] at h
            cases h
          · exact h.1
        exact horderly.defined.reads hcfg hnames hv (horderly.defined.undefined _ hfilled) hvisit

/-- Where the worklist does what is expected. Only a variable that is named like a constant may be
found by accident without coming with a value. -/
theorem fillsOnce_iff (cfg : TypedUnit) (names : List String) (fuel value : ℕ)
    (hcfg : cfg.LoopFree) (hfuel : cfg.labelToVertex.entries.length ≤ fuel) :
    ∃ s, prepare cfg value = .ok s ∧
      (ReadsKnown cfg ∧ (∀ t q s', Comes cfg names fuel s t (cfg.exitLabel :: q) s' → Met cfg s') →
        FillsOnce cfg names fuel s) ∧
      (FillsOnce cfg names fuel s → (NamesApart cfg → ReadsKnown cfg) ∧
        ∀ t q s', Comes cfg names fuel s t (cfg.exitLabel :: q) s' → Met cfg s') := by
  obtain ⟨s, hprepare, hs, hexit⟩ := exists_prepare hcfg value
  refine ⟨s, hprepare, fun ⟨hreads, hmet⟩ => .of_met hcfg hreads hfuel hs hexit hmet,
    fun hfills => ⟨fun hnames => hfills.readsKnown hcfg hs hexit hnames, fun t q s' hcomes => ?_⟩⟩
  exact hfills.met hcfg hs hexit hcomes

end Runs

section Examples

/-- A function block with nested conditionals: IF a THEN IF a THEN x := 1; END_IF; END_IF; The
values of `a` and `x` are passed on at the entry and at the exit. -/
def nestedBranches : TypedUnit where
  labelToVertex := OrderedMap.empty.emplaceAll [
    (0, ⟨0, .entry, some (.sequenceInstruction [CallTransformationPass.copy ⟨"a", .bool, .input, none⟩
      ⟨"a_input", .bool, .input, none⟩])⟩),
    (1, ⟨1, .regular, some (.instruction (.ifInstruction
      (.reference (.variableAccess ⟨"a", .bool, .input, none⟩)) 2 4))⟩),
    (2, ⟨2, .regular, some (.instruction (.ifInstruction
      (.reference (.variableAccess ⟨"a", .bool, .input, none⟩)) 3 4))⟩),
    (3, ⟨3, .regular, some (.sequenceInstruction [.assignmentInstruction .regular
      (.variableAccess ⟨"x", .int, .output, none⟩) (.integerConstant 1)])⟩),
    (4, ⟨4, .exit, some (.sequenceInstruction [CallTransformationPass.copy
      ⟨"x_output", .int, .output, none⟩ ⟨"x", .int, .output, none⟩])⟩)]
  edges := [⟨0, 1, none, none, .intraprocedural⟩, ⟨1, 2, none, none, .trueBranch⟩,
    ⟨1, 4, none, none, .falseBranch⟩, ⟨2, 3, none, none, .trueBranch⟩,
    ⟨2, 4, none, none, .falseBranch⟩, ⟨3, 4, none, none, .intraprocedural⟩]
  entryLabel := 0
  exitLabel := 4
  interface := VariableMap.empty.emplaceAll [⟨"a", .bool, .input, none⟩,
    ⟨"a_input", .bool, .input, none⟩, ⟨"x", .int, .output, none⟩, ⟨"x_output", .int, .output, none⟩]
  type := .functionBlock
  name := "Nested"
  callees := []

theorem mem_entries {cfg : TypedUnit} {l : ℤ} {v : BlockVertex}
    (h : cfg.labelToVertex.find? l = some v) : (l, v) ∈ cfg.labelToVertex.entries :=
  (OrderedMap.find?_eq_some_iff _ _ _).mp h

theorem loopFree_of_increasing {cfg : TypedUnit}
    (hlabel : ∀ x ∈ cfg.labelToVertex.entries, x.2.label = x.1)
    (hvertices : ∀ e ∈ cfg.edges, (cfg.labelToVertex.find? e.sourceLabel).isSome ∧
      (cfg.labelToVertex.find? e.targetLabel).isSome)
    (hedges : ∀ e ∈ cfg.edges, e.type ≠ .interproceduralCall ∧
      e.type ≠ .interproceduralReturn ∧ e.type ≠ .intraproceduralCallToReturn)
    (hincreasing : ∀ e ∈ cfg.edges, e.sourceLabel.toNat < e.targetLabel.toNat)
    (hlast : ∀ e ∈ cfg.edges, e.sourceLabel ≠ cfg.exitLabel)
    (hinstructions : ∀ x ∈ cfg.labelToVertex.entries, ∀ i ∈ x.2.instructions,
      i.isCallFree = true)
    (hreachable : ∀ x ∈ cfg.labelToVertex.entries, x.1 = cfg.entryLabel ∨
      ∃ e ∈ cfg.edges, e.targetLabel = x.1)
    (hentry : ∃ next, cfg.getSucceedingLabels cfg.entryLabel = [next])
    (hexit : (cfg.labelToVertex.find? cfg.exitLabel).isSome)
    (hregular : ∀ x ∈ cfg.labelToVertex.entries, x.1 ≠ cfg.entryLabel → x.1 ≠ cfg.exitLabel →
      x.2.instruction ≠ none) : cfg.LoopFree := by
  have hacyclic : WellFounded cfg.Precedes := by
    refine Subrelation.wf ?_ (measure Int.toNat).wf
    intro l l' h
    obtain ⟨e, he, rfl, rfl⟩ := BlockCfg.precedes_iff.mp h
    exact hincreasing e he
  refine ⟨fun l v h => hlabel _ (mem_entries h),
    fun e he => Option.isSome_iff_exists.mp (hvertices e he).1,
    fun e he => Option.isSome_iff_exists.mp (hvertices e he).2, hedges,
    fun l v h => hinstructions _ (mem_entries h), hacyclic, fun l v h => ?_, hentry,
    Option.isSome_iff_exists.mp hexit, hlast, fun l v h => hregular _ (mem_entries h)⟩
  induction l using hacyclic.induction generalizing v with
  | _ l ih =>
    rcases hreachable _ (mem_entries h) with rfl | ⟨e, he, rfl⟩
    · exact .refl
    · have hp : cfg.Precedes e.sourceLabel e.targetLabel :=
        BlockCfg.precedes_iff.mpr ⟨e, he, rfl, rfl⟩
      obtain ⟨w, hw⟩ := Option.isSome_iff_exists.mp (hvertices e he).1
      exact (ih _ hp w hw).tail hp

theorem nestedBranches_loopFree : nestedBranches.LoopFree :=
  loopFree_of_increasing (by decide) (by decide) (by decide) (by decide) (by decide) (by decide)
    (by decide) ⟨1, rfl⟩ (by decide) (by decide)

theorem nestedBranches_readsKnown : ReadsKnown nestedBranches := by
  intro l v h
  have hall : ∀ e ∈ nestedBranches.labelToVertex.entries,
    (readsBlock (fun name => isKnown nestedBranches name e.1) (fun _ => []) e.2.instructions
      (0, [])).isSome = true := by decide
  exact hall _ (mem_entries h)

/-- The exit is taken while the last block in front of it waits, and what it reads cannot be looked
up then. -/
theorem nestedBranches_fails : nestedBranches.LoopFree ∧ ReadsKnown nestedBranches ∧
    nestedBranches.labelToVertex.entries.length ≤ 5 ∧
    ¬ ∃ s, prepare nestedBranches 0 = .ok s ∧ FillsOnce nestedBranches [] 5 s := by
  refine ⟨nestedBranches_loopFree, nestedBranches_readsKnown, by decide, ?_⟩
  rintro ⟨s, hs, hfills⟩
  obtain ⟨n, -, s', hrun, -⟩ := hfills.ends
  have hend := hrun (n + 4) (Nat.le_add_right n 4)
  -- the fourth label that is taken is that of the exit
  have herror : (prepare nestedBranches 0 >>= fun s =>
      process nestedBranches [] 5 (n + 4) [0] s) = .error "Not implemented yet." := rfl
  rw [hs] at herror
  change process nestedBranches [] 5 (n + 4) [0] s = _ at herror
  rw [show nestedBranches.entryLabel = 0 from rfl, herror] at hend
  cases hend

/-- A program that reads a temporary variable in later blocks, one of them behind a join:
t := NONDETERMINISTIC_BOOL(); IF a THEN q := t; END_IF; r := t; -/
def laterReads : TypedUnit where
  labelToVertex := OrderedMap.empty.emplaceAll [
    (0, ⟨0, .entry, none⟩),
    (1, ⟨1, .regular, some (.sequenceInstruction [
      .havocInstruction (.variableAccess ⟨"t", .bool, .temporary, none⟩),
      .ifInstruction (.reference (.variableAccess ⟨"a", .bool, .local, none⟩)) 2 3])⟩),
    (2, ⟨2, .regular, some (.sequenceInstruction [.assignmentInstruction .regular
      (.variableAccess ⟨"q", .bool, .local, none⟩)
      (.reference (.variableAccess ⟨"t", .bool, .temporary, none⟩))])⟩),
    (3, ⟨3, .regular, some (.sequenceInstruction [.assignmentInstruction .regular
      (.variableAccess ⟨"r", .bool, .local, none⟩)
      (.reference (.variableAccess ⟨"t", .bool, .temporary, none⟩))])⟩),
    (4, ⟨4, .exit, none⟩)]
  edges := [⟨0, 1, none, none, .intraprocedural⟩, ⟨1, 2, none, none, .trueBranch⟩,
    ⟨1, 3, none, none, .falseBranch⟩, ⟨2, 3, none, none, .intraprocedural⟩,
    ⟨3, 4, none, none, .intraprocedural⟩]
  entryLabel := 0
  exitLabel := 4
  interface := VariableMap.empty.emplaceAll [⟨"a", .bool, .local, none⟩,
    ⟨"q", .bool, .local, none⟩, ⟨"r", .bool, .local, none⟩, ⟨"t", .bool, .temporary, none⟩]
  type := .program
  name := "Later"
  callees := []

theorem laterReads_fillsOnce :
    ∃ s, prepare laterReads 0 = .ok s ∧ FillsOnce laterReads [] 5 s := by
  have hloopFree : laterReads.LoopFree :=
    loopFree_of_increasing (by decide) (by decide) (by decide) (by decide) (by decide) (by decide)
      (by decide) ⟨1, rfl⟩ (by decide) (by decide)
  have hreads : ReadsKnown laterReads := by
    intro l v h
    have hall : ∀ e ∈ laterReads.labelToVertex.entries,
      (readsBlock (fun name => isKnown laterReads name e.1) (fun _ => []) e.2.instructions
        (0, [])).isSome = true := by decide
    exact hall _ (mem_entries h)
  obtain ⟨s, hs, hfills, -⟩ := fillsOnce_iff laterReads [] 5 0 hloopFree (by decide)
  exact ⟨s, hs, hfills ⟨hreads, fun _ _ _ _ => Or.inr (Or.inl rfl)⟩⟩

end Examples

end Ahorn.SsaPass
