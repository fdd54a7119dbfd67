import Ahorn.EtfaApply
import Ahorn.EtfaMergeInvariant

set_option autoImplicit false

/-!
# What holds in every reachable state of the engine

All contexts of a reachable state satisfy the invariant under the versions of the executor. A
context at the exit of the program is explored only once it is the last one of its cycle, since the
versions are reset then.
-/
namespace Ahorn.Etfa

variable {p : Program} {versions versions' : Versions} {k : ℕ} {c c' m : Context} {frame : Frame}
  {simplifier : Simplifier String} {solver : Solver String}
  {findApplicableSummaries : Context → Except String (List Summary)}

/-- All summaries that are chosen at a call fit the program. -/
def Program.FindsFitting (p : Program)
    (findApplicableSummaries : Context → Except String (List Summary)) : Prop :=
  ∀ c summaries, findApplicableSummaries c = .ok summaries → ∀ s ∈ summaries, p.Fits s

/-- The context stands at the exit of the program. -/
def Context.AtExit (c : Context) : Prop := c.callStack.length = 1 ∧ c.state.vertex.type = .exit

namespace Context

theorem Placed.of_eq {vertex : Vertex} {frames : List Frame} {l : ℤ}
    (h : p.Stack (frame :: frames)) (hstack : c.callStack = frame :: frames)
    (hl : frame.cfg.labelToVertex.find? l = some vertex) (hvertex : c.state.vertex = vertex) :
    c.Placed p where
  stack := hstack ▸ h
  atVertex := by
    intro frame' frames' h'
    rw [hstack] at h'
    cases h'
    exact ⟨l, hvertex ▸ hl⟩

end Context

namespace Executor

theorem Leads.placed {frames : List Frame} (hplaced : c.Placed p)
    (hstack : c.callStack = frame :: frames) (h : Leads frame c c') : c'.Placed p := by
  obtain ⟨hcall, edge, -, hedge⟩ := h
  exact Context.Placed.of_eq (hstack ▸ hplaced.stack) (hcall.trans hstack) hedge rfl

/-- Every step leads to a vertex of the unit in front of the call stack. -/
theorem execute_placed {successors : Successors} (hplaced : c.Placed p)
    (h : (Engine.executor p simplifier solver findApplicableSummaries).execute versions c =
      .ok (versions', successors)) :
    ∀ c' ∈ successors.contexts ++ successors.forked.toList, c'.Placed p := by
  obtain ⟨frame, frames, hstack, hexecutes⟩ := execute_cases h
  have hframes := hstack ▸ hplaced.stack
  obtain ⟨l, hl⟩ := hplaced.atVertex frame frames hstack
  intro c' hc'
  cases hexecutes with
  | move _ hnext =>
    obtain rfl : c' = _ := List.mem_singleton.mp (by simpa using hc')
    exact (moveTo_leads hnext).placed hplaced hstack
  | assignment _ _ hstep =>
    obtain rfl : c' = _ := List.mem_singleton.mp (by simpa using hc')
    exact (visitAssignment_leads hstep).placed hplaced hstack
  | call _ hinstruction hstep =>
    obtain ⟨typeName, callee, edge, summaries, htype, hcallee, -, -, -, hor⟩ := visitCall_cases hstep
    rcases hor with ⟨-, -, l', next, hnext, rfl⟩ | ⟨-, next, cs, hnext, happly, rfl⟩
    · obtain rfl : c' = _ := List.mem_singleton.mp (by simpa using hc')
      exact Context.Placed.of_eq (.call (.called hframes.instance_of_head hl hinstruction htype
        hcallee) hplaced.stack) rfl hnext rfl
    · obtain ⟨hcall, hvertex⟩ := applySummaries_returns happly c' (by simpa using hc')
      exact Context.Placed.of_eq hframes (hcall.trans hstack) hnext hvertex
  | branch _ _ hstep => exact (visitIf_leads hstep c' hc').placed hplaced hstack
  | programExit _ hstep =>
    obtain rfl : c' = _ := List.mem_singleton.mp (by simpa using hc')
    obtain ⟨-, hcall, hvertex⟩ := handleProgramExitVertex_returns hstep
    exact Context.Placed.of_eq hframes (hcall.trans hstack) hvertex rfl
  | functionBlockExit _ hstep =>
    obtain rfl : c' = _ := List.mem_singleton.mp (by simpa using hc')
    obtain ⟨callee, caller, callers, next, hcallers, hnext, rfl⟩ :=
      handleFunctionBlockExitVertex_returns hstep
    have hcaller : p.Stack (caller :: callers) := by
      have h' := hplaced.stack
      rw [hcallers] at h'
      cases h' with
      | call _ h' => exact h'
    exact Context.Placed.of_eq hcaller rfl hnext rfl

/-- One step of a context away from the exit of the program stays in the cycle; the step at the exit
leads to the next one. -/
theorem execute_invariant {successors : Successors} (hp : p.WellFormed)
    (hfits : p.FindsFitting findApplicableSummaries) (hc : c.Invariant p versions k)
    (hplaced : c.Placed p)
    (h : (Engine.executor p simplifier solver findApplicableSummaries).execute versions c =
      .ok (versions', successors)) :
    (versions.Le versions' ∧ ∀ c' ∈ successors.contexts ++ successors.forked.toList,
      c'.Invariant p versions' k) ∨
    (c.AtExit ∧ ∃ c', successors = ⟨[c'], none⟩ ∧ c'.Invariant p versions' (k + 1)) := by
  obtain ⟨frame, frames, hstack, hexecutes⟩ := execute_cases h
  have hframes := hstack ▸ hplaced.stack
  obtain ⟨l, hl⟩ := hplaced.atVertex frame frames hstack
  have hsingle : ∀ {c' : Context}, c'.Invariant p versions' k →
      ∀ c'' ∈ [c'] ++ none.toList, c''.Invariant p versions' k := by
    intro c' hinv c'' hc''
    obtain rfl : c'' = c' := List.mem_singleton.mp (by simpa using hc'')
    exact hinv
  cases hexecutes with
  | move _ _ => exact Or.inl ⟨Versions.Le.refl _, hsingle (moveTo_invariant hc _)⟩
  | assignment _ hinstruction hstep =>
    obtain ⟨hinv, hle⟩ := visitAssignment_invariant hc
      (hp.sorted hframes.instance_of_head hl hinstruction) hstep
    exact Or.inl ⟨hle, hsingle hinv⟩
  | @call called _ _ _ _ _ hinstruction hstep =>
    obtain ⟨typeName, callee, edge, summaries, -, -, -, -, hsummaries, hor⟩ := visitCall_cases hstep
    have hinside : (inside frame called callee edge.targetLabel c).Invariant p versions k :=
      hc.of_eq rfl rfl hc.closed rfl
    rcases hor with ⟨-, rfl, -, next, -, rfl⟩ | ⟨-, next, cs, -, happly, rfl⟩
    · exact Or.inl ⟨Versions.Le.refl _, hsingle (moveTo_invariant hinside next)⟩
    · obtain ⟨hle, hcs⟩ := applySummaries_invariant (hfits _ _ hsummaries) hinside happly
      exact Or.inl ⟨hle, fun c' hc' => hcs c' (by simpa using hc')⟩
  | branch _ hinstruction hstep =>
    exact Or.inl ⟨Versions.Le.refl _, visitIf_invariant hc
      (hp.sorted hframes.instance_of_head hl hinstruction) hstep⟩
  | programExit htype hstep =>
    have hdepth := (handleProgramExitVertex_returns hstep).1
    have hmain := hplaced.stack.of_length_one hdepth
    rw [hstack] at hmain
    have hcfg : frame.cfg = p.main := by
      obtain ⟨rfl, -⟩ := List.cons.inj hmain
      rfl
    exact Or.inr ⟨⟨hdepth, htype⟩, _, rfl, handleProgramExitVertex_invariant hp hc hcfg hstep⟩
  | functionBlockExit _ hstep =>
    obtain ⟨callee, caller, callers, next, -, -, rfl⟩ := handleFunctionBlockExitVertex_returns hstep
    exact Or.inl ⟨Versions.Le.refl _, hsingle ((moveTo_invariant hc next).of_eq rfl rfl hc.closed rfl)⟩

end Executor

namespace Merger

theorem mergePointOf_eq {frames : List Frame} (h : c.callStack = frame :: frames) :
    mergePointOf c = some ⟨frame.scope, c.callStack.length, c.state.vertex.label,
      frame.returnLabel⟩ := by
  unfold mergePointOf
  rw [h]

theorem mem_vertexMergePoints {cfg : UnitCfg} {scope : String} {depth : ℕ} {returnLabel : ℤ}
    {entry : ℤ × Vertex} {point : MergePoint} (hentry : entry ∈ cfg.labelToVertex.entries)
    (h : point ∈ vertexMergePoints cfg scope depth returnLabel entry) :
    point.depth = depth ∧ (point.label = cfg.exitLabel ∨
      ∃ v, cfg.labelToVertex.find? point.label = some v ∧ joins cfg.toCfg point.label = true) := by
  unfold vertexMergePoints at h
  split at h
  · cases h
  · obtain rfl := List.mem_singleton.mp h
    exact ⟨rfl, Or.inl rfl⟩
  · split_ifs at h with hjoins
    · obtain rfl := List.mem_singleton.mp h
      exact ⟨rfl, Or.inr ⟨entry.2, (OrderedMap.find?_eq_some_iff _ _ _).mpr hentry, hjoins⟩⟩
    · cases h

theorem mem_initializeMergePoints {getCfg : String → Option UnitCfg} {nesting : ℕ} {cfg : UnitCfg}
    {scope : String} {depth : ℕ} {returnLabel : ℤ} {point : MergePoint}
    (h : point ∈ initializeMergePoints getCfg nesting cfg scope depth returnLabel) :
    depth < point.depth ∨ (point.depth = depth ∧ (point.label = cfg.exitLabel ∨
      ∃ v, cfg.labelToVertex.find? point.label = some v ∧ joins cfg.toCfg point.label = true)) := by
  induction nesting generalizing cfg scope depth returnLabel with
  | zero =>
    unfold initializeMergePoints at h
    obtain ⟨entry, hentry, h⟩ := List.mem_flatMap.mp h
    exact Or.inr (mem_vertexMergePoints hentry h)
  | succ nesting ih =>
    unfold initializeMergePoints at h
    obtain ⟨entry, hentry, h⟩ := List.mem_flatMap.mp h
    rcases List.mem_append.mp h with h | h
    · exact Or.inr (mem_vertexMergePoints hentry h)
    · split at h
      · rcases ih h with hlt | ⟨heq, -⟩
        · exact Or.inl (by omega)
        · exact Or.inl (by omega)
      · cases h

theorem exit_mem_initializeMergePoints {getCfg : String → Option UnitCfg} {cfg : UnitCfg} {l : ℤ}
    {v : Vertex} (hl : cfg.labelToVertex.find? l = some v) (hv : v.type = .exit) (nesting : ℕ)
    (scope : String) (depth : ℕ) (returnLabel : ℤ) :
    ⟨scope, depth, cfg.exitLabel, returnLabel⟩ ∈
      initializeMergePoints getCfg nesting cfg scope depth returnLabel := by
  have hentry := (OrderedMap.find?_eq_some_iff _ _ _).mp hl
  have hpoint : ⟨scope, depth, cfg.exitLabel, returnLabel⟩ ∈
      vertexMergePoints cfg scope depth returnLabel (l, v) := by
    unfold vertexMergePoints
    rw [hv]
    exact List.mem_singleton.mpr rfl
  cases nesting with
  | zero => exact List.mem_flatMap.mpr ⟨_, hentry, hpoint⟩
  | succ nesting => exact List.mem_flatMap.mpr ⟨_, hentry, List.mem_append_left _ hpoint⟩

theorem mergeAll_place {cs : List Context}
    (h : mergeAll simplifier versions c cs = .ok (versions', m)) :
    m.cycle = c.cycle ∧ m.callStack = c.callStack ∧ m.state.vertex = c.state.vertex := by
  induction cs generalizing versions c with
  | nil =>
    cases h
    exact ⟨rfl, rfl, rfl⟩
  | cons c' cs ih =>
    obtain ⟨⟨versions₁, m₁⟩, hm₁, h⟩ := bind_eq_ok h
    obtain ⟨hcycle, hstack, hvertex⟩ := ih h
    unfold merge at hm₁
    split_ifs at hm₁
    obtain ⟨valuations, -, hm₁⟩ := bind_eq_ok hm₁
    obtain ⟨frame, -, hm₁⟩ := bind_eq_ok hm₁
    obtain ⟨merging, -, hm₁⟩ := bind_eq_ok hm₁
    cases hm₁
    exact ⟨hcycle, hstack, hvertex⟩

theorem mergeAll_placed {cs : List Context} (hplaced : c.Placed p)
    (h : mergeAll simplifier versions c cs = .ok (versions', m)) : m.Placed p := by
  obtain ⟨-, hstack, hvertex⟩ := mergeAll_place h
  refine ⟨hstack ▸ hplaced.stack, ?_⟩
  unfold Context.AtVertex
  rw [hstack, hvertex]
  exact hplaced.atVertex

theorem mergeAll_merged {cs : List Context} (hp : p.WellFormed)
    (hc : c.Invariant p versions k ∧ c.Placed p)
    (hcs : ∀ c' ∈ cs, c'.Invariant p versions k ∧ c'.Placed p)
    (h : mergeAll simplifier versions c cs = .ok (versions', m)) :
    MergedAll p simplifier k versions versions' c cs m := by
  induction cs generalizing versions c with
  | nil =>
    cases h
    exact .nil _ _
  | cons c' cs ih =>
    obtain ⟨⟨versions₁, m₁⟩, hm₁, h⟩ := bind_eq_ok h
    obtain ⟨hc', hplaced'⟩ := hcs c' List.mem_cons_self
    have hmerged := merge_spec hp hc.1 hc' hc.2 hplaced' hm₁
    have hplaced₁ : m₁.Placed p := mergeAll_placed hc.2
      (show mergeAll simplifier versions c [c'] = .ok (versions₁, m₁) by
        unfold mergeAll
        rw [hm₁]
        rfl)
    exact .cons hmerged (ih ⟨hmerged.invariant, hplaced₁⟩ (fun c'' hc'' =>
      ⟨(hcs c'' (List.mem_cons_of_mem _ hc'')).1.mono hmerged.le,
        (hcs c'' (List.mem_cons_of_mem _ hc'')).2⟩) h)

theorem mergeAll_invariant {cs : List Context} (hp : p.WellFormed) (hc : c.Invariant p versions k)
    (hplaced : c.Placed p) (hcs : ∀ c' ∈ cs, c'.Invariant p versions k ∧ c'.Placed p)
    (h : mergeAll simplifier versions c cs = .ok (versions', m)) :
    m.Invariant p versions' k ∧ versions.Le versions' := by
  have hmerged := mergeAll_merged hp ⟨hc, hplaced⟩ hcs h
  clear h hcs hplaced
  induction hmerged with
  | nil => exact ⟨hc, Versions.Le.refl _⟩
  | cons hfirst _ ih =>
    obtain ⟨hinvariant, hle⟩ := ih hfirst.invariant
    exact ⟨hinvariant, hfirst.le.trans hle⟩

end Merger

namespace Engine

def exitPoint (p : Program) : MergePoint := ⟨p.main.name, 1, p.main.exitLabel, p.main.entryLabel⟩

/-- Whether the context waits for a merge once it has been pushed. -/
def Merges (p : Program) (c : Context) : Prop :=
  ∃ point, Merger.mergePointOf c = some point ∧ point ∈ p.mergePoints

/-- What holds of every context under the versions of the executor in a cycle. -/
abbrev ContextProperty := Versions → ℕ → Context → Prop

/-- All contexts of a state have the property. A context at the exit of the program is explored only
as the last one of its cycle. -/
structure Keeps (p : Program) (P : ContextProperty) (g : Engine) : Prop where
  explorer : ∀ c ∈ g.explorer, P g.versions g.cycle c ∧ c.Placed p
  merger : ∀ c ∈ g.merger, P g.versions g.cycle c ∧ c.Placed p
  merges : ∀ c ∈ g.merger, Merges p c
  exit : ∀ c ∈ g.explorer, c.AtExit → g.explorer = [c] ∧ g.merger = []
  succeeding : ∀ c, g.succeedingCycle = some c →
    P g.versions (g.cycle + 1) c ∧ c.Placed p ∧ g.explorer = [] ∧ g.merger = []

/-- What holds of the contexts of a reachable state. -/
abbrev Invariant (p : Program) (g : Engine) : Prop :=
  Keeps p (fun versions k c => c.Invariant p versions k) g

/-- What an execution does to a property: it keeps it within the cycle, or establishes it for the
one context that leaves the program. -/
def Executed (P : ContextProperty) (k : ℕ) (c : Context) (versions versions' : Versions)
    (successors : Executor.Successors) : Prop :=
  (versions.Le versions' ∧ ∀ c' ∈ successors.contexts ++ successors.forked.toList,
    P versions' k c') ∨
  (c.AtExit ∧ ∃ c', successors = ⟨[c'], none⟩ ∧ P versions' (k + 1) c')

theorem mergePointOf_exit (hp : p.WellFormed) (hplaced : c.Placed p) (hexit : c.AtExit) :
    Merger.mergePointOf c = some (exitPoint p) ∧ exitPoint p ∈ p.mergePoints := by
  have hstack := hplaced.stack.of_length_one hexit.1
  obtain ⟨l, hl⟩ := hplaced.atVertex _ _ hstack
  obtain ⟨hlabel, hexitLabel⟩ := hp.labels hl
  refine ⟨?_, Merger.exit_mem_initializeMergePoints hl hexit.2 _ _ _ _⟩
  rw [Merger.mergePointOf_eq hstack, hexit.1, hlabel, hexitLabel hexit.2]
  rfl

theorem eq_exitPoint (hp : p.WellFormed) (hplaced : c.Placed p) {point : MergePoint}
    (hpoint : Merger.mergePointOf c = some point) (hmem : point ∈ p.mergePoints)
    (hbefore : Merger.before point (exitPoint p) = false) : point = exitPoint p := by
  obtain ⟨frame, frames, hstack⟩ : ∃ frame frames, c.callStack = frame :: frames := by
    cases hs : c.callStack with
    | nil => exact nomatch hs ▸ hplaced.stack
    | cons frame frames => exact ⟨frame, frames, rfl⟩
  rw [Merger.mergePointOf_eq hstack] at hpoint
  cases hpoint
  simp only [Merger.before, exitPoint, Bool.or_eq_false_iff, Bool.and_eq_false_iff] at hbefore
  obtain ⟨⟨hdepth, -⟩, hlabel⟩ := hbefore
  have hone : c.callStack.length = 1 := by
    have hdepth := of_decide_eq_false hdepth
    rw [hstack, List.length_cons] at hdepth ⊢
    omega
  have hmain := hplaced.stack.of_length_one hone
  rw [hstack] at hmain
  obtain ⟨rfl, -⟩ := List.cons.inj hmain
  have hle : c.state.vertex.label ≤ p.main.exitLabel := by
    rcases Merger.mem_initializeMergePoints hmem with hlt | ⟨-, h | ⟨v, hv, hjoins⟩⟩
    · dsimp only at hlt
      omega
    · exact h.le
    · exact hp.exitLast hv hjoins
  have hge : p.main.exitLabel ≤ c.state.vertex.label := by
    rcases hlabel with (h | h) | h
    · exact absurd hone (of_decide_eq_false h)
    · exact absurd rfl (of_decide_eq_false h)
    · exact not_lt.mp (of_decide_eq_false h)
  rw [hone, le_antisymm hle hge]
  rfl

/-- Whether a context that is pushed waits for a merge. -/
def waits (p : Program) (c : Context) : Bool :=
  match Merger.mergePointOf c with
  | some point => point ∈ p.mergePoints
  | none => false

theorem foldl_push_eq {g : Engine} {cs : List Context} (hcs : ∀ c ∈ cs, c.cycle = g.cycle) :
    cs.foldl (push p) g = { g with
      explorer := g.explorer ++ cs.filter fun c => !waits p c
      merger := g.merger ++ cs.filter (waits p) } := by
  induction cs generalizing g with
  | nil => simp
  | cons c cs ih =>
    have hpush : push p g c = { g with
        explorer := g.explorer ++ [c].filter fun c => !waits p c
        merger := g.merger ++ [c].filter (waits p) } := by
      unfold push waits
      rw [if_pos (hcs c List.mem_cons_self).symm]
      cases hpoint : Merger.mergePointOf c with
      | none => simp [hpoint]
      | some point => by_cases hmem : point ∈ p.mergePoints <;> simp [hpoint, hmem]
    rw [List.foldl_cons, hpush]
    refine (ih ?_).trans ?_
    · exact fun x hx => hcs x (List.mem_cons_of_mem _ hx)
    have hcons : c :: cs = [c] ++ cs := rfl
    rw [hcons, List.filter_append, List.filter_append, List.append_assoc, List.append_assoc]

theorem waits_iff : waits p c = true ↔ Merges p c := by
  unfold waits Merges
  cases Merger.mergePointOf c with
  | none => simp
  | some point => simp

theorem foldl_push {g : Engine} {cs : List Context} (hcs : ∀ c ∈ cs, c.cycle = g.cycle) :
    (cs.foldl (push p) g).cycle = g.cycle ∧ (cs.foldl (push p) g).versions = g.versions ∧
      (cs.foldl (push p) g).succeedingCycle = g.succeedingCycle ∧
      (∀ c ∈ (cs.foldl (push p) g).explorer, c ∈ g.explorer ∨ (c ∈ cs ∧ ¬ Merges p c)) ∧
      ∀ c ∈ (cs.foldl (push p) g).merger, c ∈ g.merger ∨ (c ∈ cs ∧ Merges p c) := by
  rw [foldl_push_eq hcs]
  refine ⟨rfl, rfl, rfl, fun c hc => ?_, fun c hc => ?_⟩
  · rcases List.mem_append.mp hc with hc | hc
    · exact Or.inl hc
    · obtain ⟨hmem, hnot⟩ := List.mem_filter.mp hc
      refine Or.inr ⟨hmem, fun hm => ?_⟩
      rw [waits_iff.mpr hm] at hnot
      cases hnot
  · rcases List.mem_append.mp hc with hc | hc
    · exact Or.inl hc
    · obtain ⟨hmem, hwaits⟩ := List.mem_filter.mp hc
      exact Or.inr ⟨hmem, waits_iff.mp hwaits⟩

theorem Keeps.explore {P : ContextProperty} {g : Engine} {rest rest' : List Context}
    {versions : Versions} {successors : Executor.Successors} (hp : p.WellFormed)
    (hcycle : ∀ {versions k c}, P versions k c → c.cycle = k)
    (hmono : ∀ {versions versions' k c}, Versions.Le versions versions' → P versions k c →
      P versions' k c)
    (hg : Keeps p P g) (hexplorer : g.explorer = rest ++ c :: rest')
    (h : (executor p simplifier solver findApplicableSummaries).execute g.versions c =
      .ok (versions, successors))
    (hstep : Executed P g.cycle c g.versions versions successors) :
    Keeps p P ((successors.contexts ++ successors.forked.toList).foldl (push p)
      { g with versions := versions, explorer := rest ++ rest' }) := by
  have hmem : c ∈ g.explorer := by
    rw [hexplorer]
    exact List.mem_append_right _ List.mem_cons_self
  have hsub : ∀ x ∈ rest ++ rest', x ∈ g.explorer := by
    intro x hx
    rw [hexplorer]
    rcases List.mem_append.mp hx with hx | hx
    · exact List.mem_append_left _ hx
    · exact List.mem_append_right _ (List.mem_cons_of_mem _ hx)
  have hnone : g.succeedingCycle = none := by
    cases hs : g.succeedingCycle with
    | none => rfl
    | some x =>
      rw [(hg.succeeding x hs).2.2.1] at hmem
      cases hmem
  have hplaced := Executor.execute_placed (hg.explorer c hmem).2 h
  rcases hstep with ⟨hle, hcs⟩ | ⟨hexit, c', rfl, hc'⟩
  · obtain ⟨hgcycle, hversions, hnext, hexplorer', hmerger'⟩ := foldl_push (p := p)
      (g := { g with versions := versions, explorer := rest ++ rest' })
      fun x hx => hcycle (hcs x hx)
    constructor
    · intro x hx
      rw [hgcycle, hversions]
      rcases hexplorer' x hx with hx | ⟨hx, -⟩
      · exact (hg.explorer x (hsub x hx)).imp (hmono hle) id
      · exact ⟨hcs x hx, hplaced x hx⟩
    · intro x hx
      rw [hgcycle, hversions]
      rcases hmerger' x hx with hx | ⟨hx, -⟩
      · exact (hg.merger x hx).imp (hmono hle) id
      · exact ⟨hcs x hx, hplaced x hx⟩
    · intro x hx
      rcases hmerger' x hx with hx | ⟨-, hx⟩
      · exact hg.merges x hx
      · exact hx
    · intro x hx hxexit
      rcases hexplorer' x hx with hx | ⟨hx, hnot⟩
      · -- the step has taken a context next to one at the exit of the program
        have hlength := congrArg List.length ((hg.exit x (hsub x hx) hxexit).1.symm.trans hexplorer)
        have hpos := List.length_pos_of_mem hx
        simp only [List.length_append, List.length_cons, List.length_nil] at hlength hpos
        omega
      · exact absurd ⟨_, mergePointOf_exit hp (hplaced x hx) hxexit⟩ hnot
    · intro x hx
      rw [hnext] at hx
      change g.succeedingCycle = some x at hx
      rw [hnone] at hx
      cases hx
  · obtain ⟨hall, hmerger⟩ := hg.exit c hmem hexit
    have hempty : rest ++ rest' = [] := by
      have hlength := congrArg List.length (hall.symm.trans hexplorer)
      apply List.length_eq_zero_iff.mp
      simp only [List.length_append, List.length_cons, List.length_nil] at hlength ⊢
      omega
    have hpush : push p { g with versions := versions, explorer := rest ++ rest' } c' =
        { g with versions := versions, explorer := rest ++ rest', succeedingCycle := some c' } := by
      unfold push
      rw [if_neg]
      rw [hcycle hc']
      exact Nat.ne_of_lt (Nat.lt_succ_self _)
    rw [hempty] at hpush
    have hplaced' := hplaced c' (by simp)
    simp only [Option.toList_none, List.append_nil, List.foldl_cons, List.foldl_nil, hempty, hpush]
    constructor
    · exact fun x hx => absurd hx List.not_mem_nil
    · intro x hx
      rw [hmerger] at hx
      cases hx
    · exact hg.merges
    · exact fun x hx => absurd hx List.not_mem_nil
    · rintro x ⟨⟩
      exact ⟨hc', hplaced', rfl, hmerger⟩

theorem mem_waiting {g : Engine} {point : MergePoint} {cs : List Context}
    (h : g.waiting point = cs) : ∀ x ∈ cs, x ∈ g.merger ∧ Merger.mergePointOf x = some point := by
  intro x hx
  rw [← h] at hx
  exact ⟨List.mem_of_mem_filter hx, of_decide_eq_true (List.mem_filter.mp hx).2⟩

theorem Keeps.merge {P : ContextProperty} {g : Engine} {point : MergePoint} {cs : List Context}
    {versions : Versions} (hp : p.WellFormed)
    (hmono : ∀ {versions versions' k c}, Versions.Le versions versions' → P versions k c →
      P versions' k c)
    (hg : Keeps p P g) (hwaiting : g.waiting point = c :: cs)
    (hfirst : ∀ c' ∈ g.merger, ∀ point', Merger.mergePointOf c' = some point' →
      Merger.before point' point = false)
    (h : Merger.mergeAll simplifier g.versions c cs = .ok (versions, m))
    (hstep : P versions g.cycle m ∧ g.versions.Le versions) :
    Keeps p P { g with
      versions := versions
      explorer := [m]
      merger := g.merger.filter (Merger.mergePointOf · ≠ some point) } := by
  obtain ⟨hcmem, hcpoint⟩ := mem_waiting hwaiting c List.mem_cons_self
  have hplaced := Merger.mergeAll_placed (hg.merger c hcmem).2 h
  obtain ⟨-, hstack, hvertex⟩ := Merger.mergeAll_place h
  constructor
  · intro x hx
    obtain rfl := List.mem_singleton.mp hx
    exact ⟨hstep.1, hplaced⟩
  · intro x hx
    exact (hg.merger x (List.mem_of_mem_filter hx)).imp (hmono hstep.2) id
  · exact fun x hx => hg.merges x (List.mem_of_mem_filter hx)
  · intro x hx hexit
    obtain rfl := List.mem_singleton.mp hx
    refine ⟨rfl, List.filter_eq_nil_iff.mpr fun x hx => ?_⟩
    have hpoint : point = exitPoint p := by
      have h' := (mergePointOf_exit hp hplaced hexit).1
      unfold Merger.mergePointOf at h' hcpoint
      rw [hstack, hvertex, hcpoint] at h'
      exact Option.some.inj h'
    obtain ⟨point', hpoint', hmem'⟩ := hg.merges x hx
    have heq := eq_exitPoint hp (hg.merger x hx).2 hpoint' hmem'
      (hpoint ▸ hfirst x hx point' hpoint')
    simp [hpoint', heq, hpoint]
  · intro x hx
    rw [(hg.succeeding x hx).2.2.2] at hcmem
    cases hcmem

theorem Keeps.nextCycle {P : ContextProperty} {g : Engine} (hg : Keeps p P g)
    (hmerger : g.merger = []) (hnext : g.succeedingCycle = some c) :
    Keeps p P { g with cycle := g.cycle + 1, explorer := [c], succeedingCycle := none } := by
  obtain ⟨hinv, hplaced, -, -⟩ := hg.succeeding _ hnext
  constructor
  · intro x hx
    obtain rfl := List.mem_singleton.mp hx
    exact ⟨hinv, hplaced⟩
  · intro x hx
    rw [hmerger] at hx
    cases hx
  · intro x hx
    rw [hmerger] at hx
    cases hx
  · intro x hx _
    obtain rfl := List.mem_singleton.mp hx
    exact ⟨rfl, hmerger⟩
  · intro x hx
    cases hx

theorem initialValuation_eq {inputs : List String} {x : String} {v : Variable} {s : SmtSort}
    {e : SortedTerm String} (hs : v.dataType.sort = .ok s)
    (hinitial : ∀ value, v.initialization = some value → (makeValue value).1 = s)
    (h : initialValuation inputs x v = .ok e) :
    e.1 = s ∧ (e.2 = .constant e.1 (contextualized x 0 0) ∨ e.2.occurrences = []) := by
  unfold initialValuation at h
  split_ifs at h
  · obtain ⟨s', hs', rfl⟩ := makeConstant_eq h
    rw [hs] at hs'
    cases hs'
    exact ⟨rfl, Or.inl rfl⟩
  · split at h
    · rename_i value hvalue
      cases h
      refine ⟨hinitial value hvalue, Or.inr ?_⟩
      cases value <;> rfl
    · unfold makeDefaultValue at h
      rw [hs] at h
      cases s <;> cases h <;> exact ⟨rfl, Or.inr rfl⟩

theorem initialState_spec {inputs : List String} {entries : List (String × Variable)}
    {versions versions' : Versions} {st st' : State}
    (hsorts : ∀ x v, (x, v) ∈ entries → ∃ s, v.dataType.sort = .ok s ∧
      ∀ value, v.initialization = some value → (makeValue value).1 = s)
    (hdistinct : entries.Pairwise fun x y => x.1 < y.1)
    (hacyclic : Definitions.Acyclic st.symbolicValuations.find?)
    (hdone : ∀ n e, st.symbolicValuations.find? n = some e → ∃ x, n = contextualized x 0 0 ∧
      versions.find? x = some 0 ∧ st.flattenedNameToVersion.find? x = some 0 ∧
      x ∉ entries.map Prod.fst)
    (hversions : ∀ x v, st.flattenedNameToVersion.find? x = some v →
      versions.find? x = some 0 ∧ x ∉ entries.map Prod.fst)
    (hglobal : ∀ x ∈ entries.map Prod.fst, versions.find? x = none)
    (h : initialState inputs entries (versions, st) = .ok (versions', st')) :
    st'.vertex = st.vertex ∧ st'.pathConstraint = st.pathConstraint ∧
      Definitions.Acyclic st'.symbolicValuations.find? ∧
      (∀ n e, st'.symbolicValuations.find? n = some e → st.symbolicValuations.find? n = some e ∨
        ∃ x, n = contextualized x 0 0 ∧ versions'.find? x = some 0) ∧
      (∀ n e, st.symbolicValuations.find? n = some e → st'.symbolicValuations.find? n = some e) ∧
      (∀ x, versions.find? x = some 0 → versions'.find? x = some 0) ∧
      (∀ x v, st'.flattenedNameToVersion.find? x = some v →
        st.flattenedNameToVersion.find? x = some v ∨ x ∈ entries.map Prod.fst) ∧
      (∀ x, st.flattenedNameToVersion.find? x = some 0 →
        st'.flattenedNameToVersion.find? x = some 0) ∧
      ∀ x v, (x, v) ∈ entries → ∃ s t, v.dataType.sort = .ok s ∧
        st'.flattenedNameToVersion.find? x = some 0 ∧
        st'.symbolicValuations.find? (contextualized x 0 0) = some ⟨s, t⟩ := by
  induction entries generalizing versions st with
  | nil =>
    cases h
    exact ⟨rfl, rfl, hacyclic, fun _ _ h => Or.inl h, fun _ _ h => h, fun _ h => h,
      fun _ _ h => Or.inl h, fun _ h => h, fun _ _ h => absurd h List.not_mem_nil⟩
  | cons entry entries ih =>
    obtain ⟨x, v⟩ := entry
    obtain ⟨⟨s, t⟩, ht, h⟩ := bind_eq_ok h
    obtain ⟨s', hs', hinitial⟩ := hsorts x v List.mem_cons_self
    obtain ⟨rfl, hterm⟩ := initialValuation_eq hs' hinitial ht
    have hnot : x ∉ entries.map Prod.fst := by
      intro hmem
      obtain ⟨y, hy, hyx⟩ := List.mem_map.mp hmem
      exact absurd hyx (ne_of_gt (List.rel_of_pairwise_cons hdistinct hy))
    have hfresh : st.symbolicValuations.find? (contextualized x 0 0) = none := by
      cases hd : st.symbolicValuations.find? (contextualized x 0 0) with
      | none => rfl
      | some e =>
        obtain ⟨y, hy, -, -, hmem⟩ := hdone _ e hd
        obtain ⟨rfl, -, -⟩ := contextualized_injective hy
        exact absurd List.mem_cons_self hmem
    have hlocal : st.flattenedNameToVersion.find? x = none := by
      cases hd : st.flattenedNameToVersion.find? x with
      | none => rfl
      | some u => exact absurd List.mem_cons_self (hversions x u hd).2
    have hx := hglobal x List.mem_cons_self
    have hdef := find?_emplace_eq_union (m := st.symbolicValuations)
      (n := contextualized x 0 0) ⟨s, t⟩
    have hclosed : t = .constant s (contextualized x 0 0) ∨
        Definitions.Closed st.symbolicValuations.find? t := by
      refine hterm.imp id fun hnil q hq => ?_
      dsimp only at hnil
      rw [hnil] at hq
      cases hq
    have hversion := OrderedMap.find?_emplace_self 0 hx
    have hversionLocal := OrderedMap.find?_emplace_self 0 hlocal
    have hnew := OrderedMap.find?_emplace_self (⟨s, t⟩ : SortedTerm String) hfresh
    obtain ⟨hvertex, hpc, hacy, hback, hkeep, hkeepv, hbackv, hkeepl, hmem⟩ := ih
      (fun y u hy => hsorts y u (List.mem_cons_of_mem _ hy)) hdistinct.of_cons
      (by
        rw [hdef]
        exact hacyclic.define hfresh hclosed)
      (by
        intro n e hn
        by_cases hname : n = contextualized x 0 0
        · exact ⟨x, hname, hversion, hversionLocal, hnot⟩
        · dsimp only at hn
          rw [OrderedMap.find?_emplace_ne _ _ hname] at hn
          obtain ⟨y, hy, hyv, hyl, hyn⟩ := hdone n e hn
          have hyx : y ≠ x := fun h => hyn (h ▸ List.mem_cons_self)
          refine ⟨y, hy, ?_, ?_, fun hm => hyn (List.mem_cons_of_mem _ hm)⟩
          · rw [OrderedMap.find?_emplace_ne _ _ hyx, hyv]
          · dsimp only
            rw [OrderedMap.find?_emplace_ne _ _ hyx, hyl])
      (by
        intro y u hy
        by_cases hyx : y = x
        · exact ⟨hyx ▸ hversion, hyx ▸ hnot⟩
        · dsimp only at hy
          rw [OrderedMap.find?_emplace_ne _ _ hyx] at hy ⊢
          exact ⟨(hversions y u hy).1, fun hm => (hversions y u hy).2 (List.mem_cons_of_mem _ hm)⟩)
      (by
        intro y hy
        have hyx : y ≠ x := fun h => hnot (h ▸ hy)
        rw [OrderedMap.find?_emplace_ne _ _ hyx]
        exact hglobal y (List.mem_cons_of_mem _ hy)) h
    refine ⟨hvertex, hpc, hacy, ?_, ?_, ?_, ?_, ?_, ?_⟩
    · intro n e hn
      rcases hback n e hn with hn | hn
      · by_cases hname : n = contextualized x 0 0
        · exact Or.inr ⟨x, hname, hkeepv x hversion⟩
        · dsimp only at hn
          rw [OrderedMap.find?_emplace_ne _ _ hname] at hn
          exact Or.inl hn
      · exact Or.inr hn
    · intro n e hn
      refine hkeep n e ?_
      dsimp only
      rw [OrderedMap.find?_emplace_ne _ _ fun hname => by rw [hname, hfresh] at hn; cases hn]
      exact hn
    · intro y hy
      apply hkeepv
      rw [OrderedMap.find?_emplace_ne _ _ fun hyx => by rw [hyx, hx] at hy; cases hy]
      exact hy
    · intro y u hy
      rcases hbackv y u hy with hy | hy
      · by_cases hyx : y = x
        · exact Or.inr (hyx ▸ List.mem_cons_self)
        · dsimp only at hy
          rw [OrderedMap.find?_emplace_ne _ _ hyx] at hy
          exact Or.inl hy
      · exact Or.inr (List.mem_cons_of_mem _ hy)
    · intro y hy
      apply hkeepl
      dsimp only
      rw [OrderedMap.find?_emplace_ne _ _ fun hyx => by rw [hyx, hlocal] at hy; cases hy]
      exact hy
    · intro y u hy
      rcases List.mem_cons.mp hy with hy | hy
      · cases hy
        exact ⟨s, t, hs', hkeepl x hversionLocal, hkeep _ _ hnew⟩
      · exact hmem y u hy

theorem initialState_place {inputs : List String} {entries : List (String × Variable)}
    {st st' : State} (h : initialState inputs entries (versions, st) = .ok (versions', st')) :
    st'.vertex = st.vertex ∧ st'.pathConstraint = st.pathConstraint := by
  induction entries generalizing versions st with
  | nil =>
    cases h
    exact ⟨rfl, rfl⟩
  | cons entry entries ih =>
    obtain ⟨e, -, h⟩ := bind_eq_ok h
    apply ih h

theorem initialState_values {inputs : List String} {entries : List (String × Variable)}
    {st st' : State} (h : initialState inputs entries (versions, st) = .ok (versions', st')) {n : String}
    {e : SortedTerm String} (hn : st'.symbolicValuations.find? n = some e) :
    st.symbolicValuations.find? n = some e ∨
      ∃ x v, (x, v) ∈ entries ∧ n = contextualized x 0 0 ∧ initialValuation inputs x v = .ok e := by
  induction entries generalizing versions st with
  | nil =>
    cases h
    exact Or.inl hn
  | cons entry entries ih =>
    obtain ⟨x, v⟩ := entry
    obtain ⟨e₀, he₀, h⟩ := bind_eq_ok h
    rcases ih h with hold | ⟨y, u, hy, hname, hu⟩
    · dsimp only at hold
      rw [OrderedMap.find?_emplace] at hold
      split_ifs at hold with hname
      · subst hname
        cases hd : st.symbolicValuations.find? (contextualized x 0 0) with
        | some e' =>
          rw [hd, Option.some_or] at hold
          exact Or.inl hold
        | none =>
          rw [hd, Option.none_or] at hold
          cases hold
          exact Or.inr ⟨x, v, List.mem_cons_self, rfl, he₀⟩
      · exact Or.inl hold
    · exact Or.inr ⟨y, u, List.mem_cons_of_mem _ hy, hname, hu⟩

/-- The first context meets the invariant, at the entry of the program. -/
theorem initial_explorer {g : Engine} (hp : p.WellSorted) (h : Engine.initial p = .ok g) :
    ∀ c ∈ g.explorer, c.Invariant p g.versions g.cycle ∧ c.Placed p := by
  obtain ⟨vertex, hvertex, h⟩ := bind_eq_ok h
  obtain ⟨⟨versions, st⟩, hst, h⟩ := bind_eq_ok h
  cases h
  have hsorts : ∀ x v, (x, v) ∈ p.main.flattenedInterface.entries →
      ∃ s, v.dataType.sort = .ok s ∧
        ∀ value, v.initialization = some value → (makeValue value).1 = s :=
    fun x v hx => hp.encodable ((OrderedMap.find?_eq_some_iff _ _ _).mpr hx)
  obtain ⟨hvertex', hpc, hacyclic, hback, -, -, hlocal, -, hmem⟩ := initialState_spec hsorts
    p.main.flattenedInterface.sorted
    Definitions.acyclic_none (fun _ _ h => (Option.some_ne_none _ h.symm).elim)
    (fun _ _ h => (Option.some_ne_none _ h.symm).elim) (fun _ _ => rfl) hst
  have hsortOf : ∀ {x s}, p.sortOf x = some s → ∃ v, (x, v) ∈ p.main.flattenedInterface.entries ∧
      v.dataType.sort = .ok s := by
    intro x s hx
    obtain ⟨v, hv, hs⟩ := Option.bind_eq_some_iff.mp hx
    obtain ⟨s', hs', -⟩ := hp.encodable hv
    rw [hs'] at hs
    cases hs
    exact ⟨v, (OrderedMap.find?_eq_some_iff _ _ _).mp hv, hs'⟩
  intro c hc
  obtain rfl := List.mem_singleton.mp hc
  refine ⟨⟨rfl, hacyclic, ?_, ?_, ?_, ?_⟩, Context.Placed.of_eq .main rfl
    (Executor.getVertex_eq hvertex) hvertex'⟩
  · intro t ht
    dsimp only at ht
    rw [hpc] at ht
    obtain rfl := List.mem_singleton.mp ht
    exact fun q hq => absurd hq List.not_mem_nil
  · intro x s hx
    obtain ⟨v, hv, hs⟩ := hsortOf hx
    obtain ⟨s', t, hs', hversion, ht⟩ := hmem x v hv
    rw [hs] at hs'
    cases hs'
    exact ⟨0, hversion, t, ht⟩
  · intro x v hx
    rcases hlocal x v hx with hx | hx
    · cases hx
    · obtain ⟨⟨y, u⟩, hu, rfl⟩ := List.mem_map.mp hx
      obtain ⟨s, hs, -⟩ := hsorts y u hu
      refine ⟨s, ?_⟩
      rw [Program.sortOf, (OrderedMap.find?_eq_some_iff _ _ _).mpr hu, Option.bind_some, hs]
      rfl
  · intro x v d e hd
    rcases hback _ e hd with hd | ⟨y, hy, hversion⟩
    · cases hd
    · obtain ⟨rfl, rfl, rfl⟩ := contextualized_injective hy
      exact ⟨le_rfl, fun _ => ⟨0, hversion, le_rfl⟩⟩

theorem Invariant.initial {g : Engine} (hp : p.WellFormed) (h : Engine.initial p = .ok g) :
    Invariant p g := by
  have hexplorer := initial_explorer hp.toWellSorted h
  obtain ⟨vertex, -, h⟩ := bind_eq_ok h
  obtain ⟨⟨versions, st⟩, -, h⟩ := bind_eq_ok h
  cases h
  constructor
  · exact hexplorer
  · exact fun c hc => absurd hc List.not_mem_nil
  · exact fun c hc => absurd hc List.not_mem_nil
  · intro c hc _
    obtain rfl := List.mem_singleton.mp hc
    exact ⟨rfl, rfl⟩
  · intro c hc
    cases hc

theorem Reachable.invariant {g : Engine} (hp : p.WellFormed)
    (hfits : p.FindsFitting findApplicableSummaries)
    (hg : Reachable p simplifier solver findApplicableSummaries g) : Invariant p g := by
  obtain ⟨g₀, hg₀, hrun⟩ := hg
  induction hrun with
  | refl => exact .initial hp hg₀
  | tail _ hstep ih =>
    cases hstep with
    | @explore c _ _ _ _ hexplorer hexecute =>
      obtain ⟨hc, hplaced⟩ := ih.explorer c (by
        rw [hexplorer]
        exact List.mem_append_right _ List.mem_cons_self)
      exact ih.explore hp (fun h => h.cycle) (fun hle h => h.mono hle) hexplorer hexecute
        (Executor.execute_invariant hp hfits hc hplaced hexecute)
    | @merge _ c _ cs _ _ hwaiting hfirst hmerge =>
      have hmem := mem_waiting hwaiting
      obtain ⟨hc, hplaced⟩ := ih.merger c (hmem c List.mem_cons_self).1
      exact ih.merge hp (fun hle h => h.mono hle) hwaiting hfirst hmerge
        (Merger.mergeAll_invariant hp hc hplaced
          (fun x hx => ih.merger x (hmem x (List.mem_cons_of_mem _ hx)).1) hmerge)
    | nextCycle _ hmerger hnext => exact ih.nextCycle hmerger hnext

end Engine

end Ahorn.Etfa
