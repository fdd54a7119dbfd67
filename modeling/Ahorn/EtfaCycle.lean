import Mathlib.Data.Set.Finite.Lemmas
import Ahorn.EtfaAssertions
import Ahorn.IncreasingGraphs

set_option autoImplicit false

/-!
# One cycle of the engine

In a program without loops whose calls are answered by summaries, all contexts of a cycle stay in
the frame of the program. The merge points are then taken in the order of their labels, and all
contexts end up in the one that starts the next cycle.
-/
namespace Ahorn

/-- An edge within a unit. -/
def Edge.Intraprocedural (e : Edge) : Prop :=
  e.type ≠ .interproceduralCall ∧ e.type ≠ .interproceduralReturn

end Ahorn

namespace Ahorn.Etfa

open Relation

variable {p : Program} {versions versions' : Versions} {k : ℕ} {c c' m : Context}
  {simplifier : Simplifier String} {solver : Solver String}
  {findApplicableSummaries : Context → Except String (List Summary)}

namespace Program

/-- An edge of the program leads from one label to the other. -/
def Flows (p : Program) (l l' : ℤ) : Prop :=
  ∃ e ∈ p.main.edges, e.Intraprocedural ∧ e.sourceLabel = l ∧ e.targetLabel = l'

/-- A vertex without an instruction between a branch and its target. -/
def Decision (p : Program) (l : ℤ) : Prop :=
  ∃ v, p.main.labelToVertex.find? l = some v ∧ v.type = .regular ∧ v.instruction = none

/-- A program without loops: its labels increase along the edges within it, the intermediate
decision vertices excepted. -/
structure Increasing (p : Program) : Prop where
  increasing : IncreasingBut p.Flows p.Decision
  interprocedural : ∀ e ∈ p.main.edges, ¬ e.Intraprocedural → ∀ v,
    p.main.labelToVertex.find? e.sourceLabel = some v → v.type = .exit ∨
      (v.type = .regular ∧ ∃ f t₁ t₂, v.instruction = some (.callInstruction f t₁ t₂))
  decision : ∀ l, p.Decision l → Merger.joins p.main.toCfg l = false
  exit : ¬ p.Decision p.main.exitLabel

theorem increasing_of_edges
    (hedges : ∀ e ∈ p.main.edges, e.sourceLabel < e.targetLabel ∧ e.Intraprocedural)
    (hinstruction : ∀ l v, p.main.labelToVertex.find? l = some v → v.type = .regular →
      v.instruction ≠ none) : p.Increasing := by
  have hdecision : ∀ l, ¬ p.Decision l := fun l ⟨v, hv, htype, hnone⟩ =>
    hinstruction l v hv htype hnone
  refine ⟨⟨?_, ?_, ?_⟩, ?_, fun l hl => absurd hl (hdecision l), hdecision _⟩
  · rintro l l' ⟨e, he, -, rfl, rfl⟩ - -
    exact (hedges e he).1
  · exact fun _ hd => absurd hd (hdecision _)
  · exact fun _ _ _ hd => absurd hd (hdecision _)
  · exact fun e he hinter => absurd (hedges e he).2 hinter

/-- The calls of the program, if any, are answered by summaries. -/
def AnswersCalls (p : Program)
    (findApplicableSummaries : Context → Except String (List Summary)) : Prop :=
  ∀ l v f t₁ t₂, p.main.labelToVertex.find? l = some v →
    v.instruction = some (.callInstruction f t₁ t₂) →
      ∀ c summaries, findApplicableSummaries c = .ok summaries → summaries ≠ []

def frame (p : Program) : Frame := ⟨p.main, p.main.name, p.main.entryLabel⟩

end Program

namespace Executor

/-- The step of a context in the frame of the program stays in it, and follows an edge of the
program or leaves its exit for its entry. -/
theorem execute_flows {successors : Successors} (hp : p.WellFormed) (hlabels : p.Increasing)
    (hcalls : p.AnswersCalls findApplicableSummaries) (hc : c.Bounded versions k)
    (hplaced : c.Placed p) (hstack : c.callStack = [p.frame])
    (h : (Engine.executor p simplifier solver findApplicableSummaries).execute versions c =
      .ok (versions', successors)) :
    ∀ c' ∈ successors.contexts ++ successors.forked.toList, c'.callStack = [p.frame] ∧
      ((c'.cycle = k ∧ p.Flows c.state.vertex.label c'.state.vertex.label) ∨
        (c'.cycle = k + 1 ∧ c'.state.vertex.label = p.main.entryLabel)) := by
  obtain ⟨frame, frames, hframes, hexecutes⟩ := execute_cases h
  rw [hstack] at hframes
  obtain ⟨rfl, rfl⟩ := List.cons.inj hframes
  obtain ⟨l, hl⟩ := hplaced.atVertex _ _ hstack
  have hlabel := (hp.labels hl).1
  -- an edge out of the vertex, unless that is a call or the exit
  have hflows : ∀ {c' : Context}, Leads p.frame c c' → c.state.vertex.type ≠ .exit →
      (c.state.vertex.type = .regular → ∀ f t₁ t₂,
        c.state.vertex.instruction ≠ some (.callInstruction f t₁ t₂)) →
      c'.callStack = [p.frame] ∧ p.Flows c.state.vertex.label c'.state.vertex.label := by
    rintro c' ⟨hcall, edge, hedge, htarget⟩ hnotExit hnotCall
    obtain ⟨hmem, hsource⟩ := List.mem_filter.mp hedge
    have hsource := of_decide_eq_true hsource
    refine ⟨hcall.trans hstack, edge, hmem, ?_, hsource, ((hp.labels htarget).1).symm⟩
    by_contra hinter
    rw [hlabel] at hsource
    rcases hlabels.interprocedural edge hmem hinter _ (hsource ▸ hl) with
      hexit | ⟨hregular, f, t₁, t₂, hi⟩
    · exact hnotExit hexit
    · exact hnotCall hregular f t₁ t₂ hi
  intro c' hc'
  cases hexecutes with
  | move hkind hnext =>
    obtain rfl : c' = _ := List.mem_singleton.mp (by simpa using hc')
    refine (hflows (moveTo_leads hnext) ?_ ?_).imp id fun h => Or.inl ⟨hc.cycle, h⟩
    · intro hexit
      rcases hkind with hentry | ⟨hregular, -⟩
      · rw [hentry] at hexit
        cases hexit
      · rw [hregular] at hexit
        cases hexit
    · intro hregular f t₁ t₂ hi
      rcases hkind with hentry | ⟨-, hnone⟩
      · rw [hentry] at hregular
        cases hregular
      · rw [hnone] at hi
        cases hi
  | assignment htype hinstruction hstep =>
    obtain rfl : c' = _ := List.mem_singleton.mp (by simpa using hc')
    refine (hflows (visitAssignment_leads hstep) ?_ ?_).imp id fun h =>
      Or.inl ⟨(visitAssignment_bounded hc hstep).2.1.cycle, h⟩
    · rw [htype]
      exact fun h => nomatch h
    · intro _ f t₁ t₂ hi
      rw [hinstruction] at hi
      cases hi
  | @call called t₁ t₂ _ _ _ hinstruction hstep =>
    obtain ⟨typeName, callee, edge, summaries, -, -, hedge, hedgeType, hsummaries, hor⟩ :=
      visitCall_cases hstep
    have hanswered := hcalls l _ called t₁ t₂ hl hinstruction _ _ hsummaries
    rcases hor with ⟨hnone, -⟩ | ⟨-, next, cs, hnext, happly, rfl⟩
    · exact absurd hnone hanswered
    · obtain ⟨hcall, hvertex⟩ := applySummaries_returns happly c' (by simpa using hc')
      obtain ⟨hmem, hsource⟩ := List.mem_filter.mp hedge
      have hinside : Context.Bounded versions k (inside p.frame called callee edge.targetLabel c) :=
        hc.of_eq rfl rfl rfl
      have hcycle := ((applySummaries_bounded hinside happly).2.1 c' (by simpa using hc')).1.cycle
      refine ⟨hcall.trans hstack, Or.inl ⟨hcycle, edge, hmem, ?_, of_decide_eq_true hsource, ?_⟩⟩
      · unfold Edge.Intraprocedural
        rw [hedgeType]
        exact ⟨fun h => (nomatch h), fun h => (nomatch h)⟩
      · rw [hvertex, (hp.labels hnext).1]
  | branch htype hinstruction hstep =>
    have hcycle : c'.cycle = k := by
      obtain ⟨t, positive, negative, -, -, -, hboth⟩ := visitIf_cases hstep
      rcases hboth c' hc' with rfl | rfl
      · exact hc.cycle
      · exact hc.cycle
    refine (hflows (visitIf_leads hstep c' hc') ?_ ?_).imp id fun h => Or.inl ⟨hcycle, h⟩
    · rw [htype]
      exact fun h => nomatch h
    · intro _ f t₁ t₂ hi
      rw [hinstruction] at hi
      cases hi
  | programExit _ hstep =>
    obtain rfl : c' = _ := List.mem_singleton.mp (by simpa using hc')
    obtain ⟨-, hcall, hvertex⟩ := handleProgramExitVertex_returns hstep
    exact ⟨hcall.trans hstack, Or.inr ⟨(handleProgramExitVertex_bounded hc hstep).cycle,
      (hp.labels hvertex).1⟩⟩
  | functionBlockExit _ hstep =>
    obtain ⟨callee, caller, callers, next, hcallers, -, -⟩ :=
      handleFunctionBlockExitVertex_returns hstep
    rw [hstack] at hcallers
    cases hcallers

theorem applySummaries_length {returnVertex : Vertex} {callStack : List Frame}
    {summaries : List Summary} {cs : List Context}
    (h : applySummaries returnVertex callStack c summaries versions = .ok (versions', cs)) :
    cs.length = summaries.length := by
  induction summaries generalizing versions cs with
  | nil =>
    cases h
    rfl
  | cons summary summaries ih =>
    obtain ⟨⟨versions₁, c₁⟩, -, h⟩ := bind_eq_ok h
    obtain ⟨⟨versions₂, cs₂⟩, h₂, h⟩ := bind_eq_ok h
    cases h
    exact congrArg (· + 1) (ih h₂)

theorem visitIf_ne_nil {ex : Executor} {frame : Frame} {e : Expression} {successors : Successors}
    (h : ex.visitIf frame e c = .ok successors) : successors.contexts ≠ [] := by
  obtain ⟨⟨s, t⟩, -, h⟩ := bind_eq_ok h
  cases s with
  | int => cases h
  | bool =>
    obtain ⟨_, -, h⟩ := bind_eq_ok h
    obtain ⟨_, -, h⟩ := bind_eq_ok h
    obtain ⟨_, -, h⟩ := bind_eq_ok h
    obtain ⟨_, -, h⟩ := bind_eq_ok h
    dsimp only at h
    split_ifs at h <;> cases h <;> exact List.cons_ne_nil _ _

theorem execute_ne_nil {ex : Executor} {successors : Successors}
    (h : ex.execute versions c = .ok (versions', successors)) : successors.contexts ≠ [] := by
  obtain ⟨frame, frames, -, hexecutes⟩ := execute_cases h
  cases hexecutes with
  | move _ _ | assignment _ _ _ | programExit _ _ | functionBlockExit _ _ =>
    exact List.cons_ne_nil _ _
  | call _ _ hstep =>
    obtain ⟨typeName, callee, edge, summaries, -, -, -, -, -, hor⟩ := visitCall_cases hstep
    rcases hor with ⟨-, -, l, next, -, rfl⟩ | ⟨hne, next, cs, -, happly, rfl⟩
    · exact List.cons_ne_nil _ _
    · intro hnil
      have hlength := applySummaries_length happly
      dsimp only at hnil
      rw [hnil] at hlength
      exact hne (List.length_eq_zero_iff.mp hlength.symm)
  | branch _ _ hstep => exact visitIf_ne_nil hstep

end Executor

namespace Engine

/-- What becomes of the contexts of a cycle: each is consumed once, by its execution or in a merge
that holds what it has held, until there is only one left. -/
inductive Gathers (p : Program) (k : ℕ) (ex : Executor) : Multiset Context → Context → Prop where
  | done (c : Context) : Gathers p k ex {c} c
  | explore {c c' : Context} {rest : Multiset Context} {versions versions' : Versions}
      {successors : Executor.Successors}
      (hexecute : ex.execute versions c = .ok (versions', successors))
      (hrest : Gathers p k ex (↑(successors.contexts ++ successors.forked.toList) + rest) c') :
      Gathers p k ex (c ::ₘ rest) c'
  | merge {c merged c' : Context} {cs : List Context} {rest : Multiset Context}
      {versions versions' : Versions}
      (hmerged : Merger.MergedAll p ex.simplifier k versions versions' c cs merged)
      (hrest : Gathers p k ex (merged ::ₘ rest) c') :
      Gathers p k ex (↑(c :: cs) + rest) c'

/-- One iteration of the loop that makes up a cycle. -/
def CycleStep (p : Program) (simplifier : Simplifier String) (solver : Solver String)
    (findApplicableSummaries : Context → Except String (List Summary)) (g g' : Engine) : Prop :=
  Step p simplifier solver findApplicableSummaries g g' ∧ g'.cycle = g.cycle

/-- An execution within the cycle distributes its successors, and the one at the exit of the program
hands over the last context of the cycle. -/
theorem explore_cases {g : Engine} {rest rest' : List Context} {versions : Versions}
    {successors : Executor.Successors} (hg : Named p g) (hexplorer : g.explorer = rest ++ c :: rest')
    (h : (executor p simplifier solver findApplicableSummaries).execute g.versions c =
      .ok (versions, successors)) :
    g.succeedingCycle = none ∧
    (((∀ c' ∈ successors.contexts ++ successors.forked.toList, c'.cycle = g.cycle) ∧
        (successors.contexts ++ successors.forked.toList).foldl (push p)
          { g with versions := versions, explorer := rest ++ rest' } = { g with
            versions := versions
            explorer := rest ++ rest' ++ (successors.contexts ++ successors.forked.toList).filter
              fun c => !waits p c
            merger := g.merger ++ (successors.contexts ++ successors.forked.toList).filter
              (waits p) }) ∨
      ∃ c', successors = ⟨[c'], none⟩ ∧ c'.cycle = g.cycle + 1 ∧ rest = [] ∧ rest' = [] ∧
        g.merger = [] ∧ (successors.contexts ++ successors.forked.toList).foldl (push p)
          { g with versions := versions, explorer := rest ++ rest' } = { g with
            versions := versions
            explorer := []
            succeedingCycle := some c' }) := by
  have hmem : c ∈ g.explorer := by
    rw [hexplorer]
    exact List.mem_append_right _ List.mem_cons_self
  refine ⟨?_, ?_⟩
  · cases hs : g.succeedingCycle with
    | none => rfl
    | some x =>
      rw [(hg.bounded.succeeding x hs).2.2.1] at hmem
      cases hmem
  · rcases Executor.execute_bounded (hg.bounded.explorer c hmem).1 h with
      ⟨-, hcs, -⟩ | ⟨hexit, c', rfl, hc'⟩
    · have hcycle := fun x hx => (hcs x hx).1.cycle
      exact Or.inl ⟨hcycle, foldl_push_eq hcycle⟩
    · obtain ⟨hall, hmerger⟩ := hg.bounded.exit c hmem hexit
      have hempty : rest = [] ∧ rest' = [] := by
        have hlength := congrArg List.length (hall.symm.trans hexplorer)
        simp only [List.length_append, List.length_cons, List.length_nil] at hlength
        exact ⟨List.length_eq_zero_iff.mp (by omega), List.length_eq_zero_iff.mp (by omega)⟩
      obtain ⟨rfl, rfl⟩ := hempty
      refine Or.inr ⟨c', rfl, hc'.cycle, rfl, rfl, hmerger, ?_⟩
      simp only [Option.toList_none, List.append_nil, List.foldl_cons, List.foldl_nil]
      unfold push
      rw [if_neg]
      rw [hc'.cycle]
      exact Nat.ne_of_lt (Nat.lt_succ_self _)

/-- All contexts stand in the frame of the program, and the one of the next cycle at its entry. -/
structure Shallow (p : Program) (g : Engine) : Prop where
  live : ∀ c ∈ g.live, c.callStack = [p.frame]
  next : ∀ c, g.succeedingCycle = some c → c.state.vertex.label = p.main.entryLabel

theorem Shallow.explore {g : Engine} {rest rest' : List Context} {versions : Versions}
    {successors : Executor.Successors} (hp : p.WellFormed) (hlabels : p.Increasing)
    (hcalls : p.AnswersCalls findApplicableSummaries) (hg : Named p g) (hs : Shallow p g)
    (hexplorer : g.explorer = rest ++ c :: rest')
    (h : (executor p simplifier solver findApplicableSummaries).execute g.versions c =
      .ok (versions, successors)) :
    Shallow p ((successors.contexts ++ successors.forked.toList).foldl (push p)
      { g with versions := versions, explorer := rest ++ rest' }) := by
  have hmem : c ∈ g.explorer := by
    rw [hexplorer]
    exact List.mem_append_right _ List.mem_cons_self
  have hc := hg.bounded.explorer c hmem
  have hflows := Executor.execute_flows hp hlabels hcalls hc.1 hc.2
    (hs.live c (mem_live.mpr (Or.inl (List.mem_append_left _ hmem)))) h
  obtain ⟨hnone, ⟨hcycle, hpush⟩ | ⟨c', rfl, hcycle, rfl, rfl, hmerger, hpush⟩⟩ :=
    explore_cases hg hexplorer h
  · rw [hpush]
    constructor
    · intro x hx
      have hx : x ∈ g.live ∨ x ∈ successors.contexts ++ successors.forked.toList := by
        simp only [Engine.live, hnone, hexplorer, Option.toList_none, List.append_nil, List.mem_append,
          List.mem_filter, List.mem_cons] at hx ⊢
        tauto
      exact hx.elim (hs.live x) fun hx => (hflows x hx).1
    · intro x hx
      rw [hnone] at hx
      cases hx
  · rw [hpush]
    have hc' := hflows c' (by simp)
    constructor
    · intro x hx
      simp only [Engine.live, hmerger, Option.toList_some, List.nil_append, List.mem_singleton] at hx
      exact hx ▸ hc'.1
    · rintro x ⟨⟩
      rcases hc'.2 with ⟨hcycle', -⟩ | ⟨-, hentry⟩
      · omega
      · exact hentry

theorem Shallow.merge {g : Engine} {point : MergePoint} {cs : List Context} {versions : Versions}
    (hs : Shallow p g) (hwaiting : g.waiting point = c :: cs)
    (h : Merger.mergeAll simplifier g.versions c cs = .ok (versions, m)) :
    Shallow p { g with
      versions := versions
      explorer := [m]
      merger := g.merger.filter (Merger.mergePointOf · ≠ some point) } := by
  constructor
  · intro x hx
    rcases mem_live.mp hx with hx | hx
    · rcases List.mem_append.mp hx with hx | hx
      · obtain rfl := List.mem_singleton.mp hx
        rw [(Merger.mergeAll_place h).2.1]
        apply hs.live
        exact mem_live.mpr (Or.inl (List.mem_append_right _
          (mem_waiting hwaiting c List.mem_cons_self).1))
      · exact hs.live x (mem_live.mpr (Or.inl (List.mem_append_right _ (List.mem_of_mem_filter hx))))
    · exact hs.live x (mem_live.mpr (Or.inr hx))
  · exact hs.next

theorem Reachable.shallow {g : Engine} (hp : p.WellFormed) (hlabels : p.Increasing)
    (hcalls : p.AnswersCalls findApplicableSummaries)
    (hg : Reachable p simplifier solver findApplicableSummaries g) : Shallow p g := by
  obtain ⟨g₀, hg₀, hrun⟩ := hg
  induction hrun with
  | refl =>
    obtain ⟨vertex, -, hg₀⟩ := bind_eq_ok hg₀
    obtain ⟨⟨versions, st⟩, -, hg₀⟩ := bind_eq_ok hg₀
    cases hg₀
    constructor
    · intro x hx
      simp only [Engine.live, Option.toList_none, List.append_nil, List.mem_singleton] at hx
      exact hx ▸ rfl
    · intro x hx
      cases hx
  | tail hrun hstep ih =>
    cases hstep with
    | explore hexplorer hexecute =>
      exact ih.explore hp hlabels hcalls (Reachable.named hp ⟨g₀, hg₀, hrun⟩) hexplorer hexecute
    | merge _ hwaiting _ hmerge => exact ih.merge hwaiting hmerge
    | @nextCycle x hexplorer hmerger hnext =>
      constructor
      · intro y hy
        simp only [Engine.live, hmerger, Option.toList_none, List.append_nil,
          List.mem_singleton] at hy
        exact hy ▸ ih.live x (mem_live.mpr (Or.inr hnext))
      · intro y hy
        cases hy

theorem not_decision_of_merges (hlabels : p.Increasing) (hstack : c.callStack = [p.frame])
    (hmerges : Merges p c) :
    ¬ p.Decision c.state.vertex.label := by
  obtain ⟨point, hpoint, hmem⟩ := hmerges
  rw [Merger.mergePointOf_eq hstack] at hpoint
  cases hpoint
  intro hdecision
  rcases Merger.mem_initializeMergePoints hmem with hlt | ⟨-, hexit | ⟨v, -, hjoins⟩⟩
  · rw [hstack] at hlt
    exact absurd hlt (lt_irrefl 1)
  · dsimp only at hexit
    rw [hexit] at hdecision
    exact hlabels.exit hdecision
  · dsimp only at hjoins
    rw [hlabels.decision _ hdecision] at hjoins
    cases hjoins

/-- Where a merge point is taken, the other contexts wait at greater labels. -/
theorem not_reaches_point {g : Engine} {point : MergePoint} {cs : List Context}
    (hlabels : p.Increasing) (hg : Named p g) (hs : Shallow p g) (hexplorer : g.explorer = [])
    (hwaiting : g.waiting point = c :: cs)
    (hfirst : ∀ c' ∈ g.merger, ∀ point', Merger.mergePointOf c' = some point' →
      Merger.before point' point = false)
    (hc' : c' ∈ g.live) (hother : Merger.mergePointOf c' ≠ some point) :
    ¬ ReflTransGen p.Flows c'.state.vertex.label point.label := by
  have hmem : ∀ x ∈ g.merger, x ∈ g.live := fun x hx =>
    mem_live.mpr (Or.inl (List.mem_append_right _ hx))
  obtain ⟨hcmem, hcpoint⟩ := mem_waiting hwaiting c List.mem_cons_self
  have hmerger : c' ∈ g.merger := by
    rcases mem_live.mp hc' with h | h
    · simpa [hexplorer] using h
    · rw [(hg.bounded.succeeding c' h).2.2.2] at hcmem
      cases hcmem
  have hstack := hs.live c (hmem c hcmem)
  have hstack' := hs.live c' hc'
  have hpoint := Merger.mergePointOf_eq hstack
  have hpoint' := Merger.mergePointOf_eq hstack'
  rw [hcpoint] at hpoint
  cases hpoint
  have hbefore := hfirst c' hmerger _ hpoint'
  have hne : c'.state.vertex.label ≠ c.state.vertex.label := by
    intro heq
    apply hother
    rw [hpoint', heq, hstack, hstack']
  have hlt : c.state.vertex.label < c'.state.vertex.label := by
    apply lt_of_le_of_ne _ hne.symm
    simp only [Merger.before, hstack, hstack', lt_irrefl, decide_false, Bool.and_false,
      Bool.false_or, decide_true, Bool.and_self, Bool.true_and, Bool.or_self,
      decide_eq_false_iff_not, not_lt] at hbefore
    exact hbefore
  exact hlabels.increasing.not_reflTransGen
    (not_decision_of_merges hlabels hstack' (hg.bounded.merges c' hmerger))
    (not_decision_of_merges hlabels hstack (hg.bounded.merges c hcmem)) hlt

theorem coe_filter_add (f : Context → Bool) (cs : List Context) :
    (↑(cs.filter f) + ↑(cs.filter fun c => !f c) : Multiset Context) = ↑cs :=
  Multiset.coe_eq_coe.mpr (List.filter_append_perm f cs)

/-- One iteration consumes every context at most once and drops none. -/
theorem CycleStep.gathers {g g' : Engine} (hp : p.WellFormed) (hg : Named p g)
    (hinvariant : Invariant p g)
    (h : CycleStep p simplifier solver findApplicableSummaries g g')
    (hrest : Gathers p g.cycle (executor p simplifier solver findApplicableSummaries) ↑g'.live c') :
    Gathers p g.cycle (executor p simplifier solver findApplicableSummaries) ↑g.live c' := by
  obtain ⟨hstep, hcycle⟩ := h
  cases hstep with
  | @explore c rest rest' versions successors hexplorer hexecute =>
    obtain ⟨hnone, ⟨-, hpush⟩ | ⟨next, rfl, -, rfl, rfl, hmerger, hpush⟩⟩ :=
      explore_cases hg hexplorer hexecute
    · have hlive : (↑g.live : Multiset Context) = c ::ₘ ↑(rest ++ rest' ++ g.merger) := by
        simp only [live, hnone, hexplorer, Option.toList_none, List.append_nil, List.append_assoc,
          List.cons_append]
        exact Multiset.coe_eq_coe.mpr List.perm_middle
      rw [hlive]
      refine .explore hexecute ?_
      rw [hpush] at hrest
      have hsplit := coe_filter_add (waits p) (successors.contexts ++ successors.forked.toList)
      rw [← hsplit]
      simp only [live, hnone, Option.toList_none, List.append_nil, ← Multiset.coe_add] at hrest ⊢
      convert hrest using 1
      ac_rfl
    · rw [hpush] at hrest
      have hlive : (↑g.live : Multiset Context) = c ::ₘ 0 := by
        simp only [live, hnone, hexplorer, hmerger, Option.toList_none, List.append_nil,
          List.nil_append]
        rfl
      rw [hlive]
      refine .explore hexecute ?_
      simp only [live, hmerger, Option.toList_some, Option.toList_none, List.append_nil,
        List.nil_append, add_zero] at hrest ⊢
      exact hrest
  | @merge point c m cs versions hexplorer hwaiting hfirst hmerge =>
    have hcmem := (mem_waiting hwaiting c List.mem_cons_self).1
    have hnone : g.succeedingCycle = none := by
      cases hs : g.succeedingCycle with
      | none => rfl
      | some x =>
        rw [(hg.bounded.succeeding x hs).2.2.2] at hcmem
        cases hcmem
    have hsplit := coe_filter_add (fun c => Merger.mergePointOf c = some point) g.merger
    have hlive : (↑g.live : Multiset Context) =
        ↑(c :: cs) + ↑(g.merger.filter (Merger.mergePointOf · ≠ some point)) := by
      simp only [live, hnone, hexplorer, Option.toList_none, List.append_nil, List.nil_append]
      rw [← hsplit]
      unfold waiting at hwaiting
      rw [hwaiting]
      simp only [ne_eq, decide_not]
    rw [hlive]
    have hboth := fun y hy => hinvariant.merger y (mem_waiting hwaiting y hy).1
    refine .merge (Merger.mergeAll_merged hp (hboth c List.mem_cons_self)
      (fun y hy => hboth y (List.mem_cons_of_mem _ hy)) hmerge) ?_
    simp only [live, hnone, Option.toList_none, List.append_nil] at hrest
    exact hrest
  | nextCycle => exact absurd hcycle (Nat.succ_ne_self _)

theorem gathers_of_finished {g : Engine} (hexplorer : g.explorer = []) (hmerger : g.merger = [])
    (hnext : g.succeedingCycle = some c') (k : ℕ) (ex : Executor) : Gathers p k ex ↑g.live c' := by
  simp only [live, hexplorer, hmerger, hnext, List.nil_append, Option.toList_some]
  exact .done c'

theorem Reachable.live_ne_nil {g : Engine} (hp : p.WellFormed)
    (hg : Reachable p simplifier solver findApplicableSummaries g) : g.live ≠ [] := by
  obtain ⟨g₀, hg₀, hrun⟩ := hg
  cases hrun with
  | refl =>
    obtain ⟨vertex, -, hg₀⟩ := bind_eq_ok hg₀
    obtain ⟨⟨versions, st⟩, -, hg₀⟩ := bind_eq_ok hg₀
    cases hg₀
    exact List.cons_ne_nil _ _
  | tail hrun hstep =>
    cases hstep with
    | @explore c rest rest' versions successors hexplorer hexecute =>
      have hne := Executor.execute_ne_nil hexecute
      obtain ⟨-, ⟨-, hpush⟩ | ⟨next, -, -, -, -, -, hpush⟩⟩ :=
        explore_cases (Reachable.named hp ⟨g₀, hg₀, hrun⟩) hexplorer hexecute
      · obtain ⟨x, hx⟩ := List.exists_mem_of_ne_nil _ hne
        rw [hpush]
        apply List.ne_nil_of_mem (a := x)
        apply mem_live.mpr
        cases hwaits : waits p x <;> simp [hx, hwaits]
      · rw [hpush]
        exact List.ne_nil_of_mem (mem_live.mpr (Or.inr rfl))
    | merge _ _ _ _ => exact List.cons_ne_nil _ _
    | nextCycle _ _ _ => exact List.cons_ne_nil _ _

/-- The work of a cycle: the labels of the contexts, and whether they wait. -/
def positions (g : Engine) : Multiset (ℤ × Bool) :=
  ↑(g.explorer.map fun c => (c.state.vertex.label, false)) +
    ↑(g.merger.map fun c => (c.state.vertex.label, true))

/-- A position behind another one: at a later label, or at the same one after the merge. -/
def Behind (p : Program) : ℤ × Bool → ℤ × Bool → Prop :=
  Prod.Lex (fun l' l => p.Flows l l') (· < ·)

theorem behind_wellFounded (hlabels : p.Increasing) : WellFounded (Behind p) := by
  refine WellFounded.prod_lex ?_ wellFounded_lt
  apply hlabels.increasing.wellFounded (p.main.edges.map Edge.targetLabel).toFinset
  rintro l l' ⟨e, he, -, -, rfl⟩
  exact List.mem_toFinset.mpr (List.mem_map_of_mem he)

theorem CycleStep.positions_cutExpand {g g' : Engine} (hp : p.WellFormed) (hlabels : p.Increasing)
    (hcalls : p.AnswersCalls findApplicableSummaries) (hg : Named p g) (hs : Shallow p g)
    (h : CycleStep p simplifier solver findApplicableSummaries g g') :
    TransGen (CutExpand (Behind p)) g'.positions g.positions := by
  obtain ⟨hstep, hcycle⟩ := h
  cases hstep with
  | @explore c rest rest' versions successors hexplorer hexecute =>
    have hmem : c ∈ g.explorer := by
      rw [hexplorer]
      exact List.mem_append_right _ List.mem_cons_self
    have hc := hg.bounded.explorer c hmem
    have hflows := Executor.execute_flows hp hlabels hcalls hc.1 hc.2
      (hs.live c (mem_live.mpr (Or.inl (List.mem_append_left _ hmem)))) hexecute
    obtain ⟨-, ⟨hcycles, hpush⟩ | ⟨next, rfl, -, rfl, rfl, hmerger, hpush⟩⟩ :=
      explore_cases hg hexplorer hexecute
    · have hbehind : ∀ x ∈ successors.contexts ++ successors.forked.toList, ∀ b,
          Behind p (x.state.vertex.label, b) (c.state.vertex.label, false) := by
        intro x hx b
        rcases (hflows x hx).2 with ⟨-, hflow⟩ | ⟨hnext, -⟩
        · exact Prod.Lex.left _ _ hflow
        · rw [hcycles x hx] at hnext
          omega
      let rest₀ : Multiset (ℤ × Bool) :=
        ↑((rest ++ rest').map fun c => (c.state.vertex.label, false)) +
          ↑(g.merger.map fun c => (c.state.vertex.label, true))
      have hbefore : g.positions = (c.state.vertex.label, false) ::ₘ rest₀ := by
        unfold positions
        rw [hexplorer, List.map_append, List.map_cons, ← Multiset.cons_add]
        congr 1
        rw [List.map_append]
        exact Multiset.coe_eq_coe.mpr List.perm_middle
      rw [hpush, hbefore]
      have hafter : ∀ F T : List Context, positions { g with
          versions := versions, explorer := rest ++ rest' ++ F, merger := g.merger ++ T } =
          (↑(F.map fun c => (c.state.vertex.label, false)) +
            ↑(T.map fun c => (c.state.vertex.label, true))) + rest₀ := by
        intro F T
        simp only [positions, rest₀, List.map_append, ← Multiset.coe_add]
        ac_rfl
      rw [hafter]
      refine TransGen.single (cutExpand_cons fun b hb => ?_)
      simp only [Multiset.mem_add, Multiset.mem_coe, List.mem_map, List.mem_filter] at hb
      rcases hb with ⟨x, ⟨hx, -⟩, rfl⟩ | ⟨x, ⟨hx, -⟩, rfl⟩
      · exact hbehind x hx false
      · exact hbehind x hx true
    · rw [hpush]
      have hbefore : g.positions = (c.state.vertex.label, false) ::ₘ 0 := by
        unfold positions
        rw [hexplorer, hmerger]
        rfl
      have hafter : positions { g with
          versions := versions, explorer := [], succeedingCycle := some next } = 0 + 0 := by
        unfold positions
        rw [hmerger]
        rfl
      rw [hbefore, hafter]
      exact TransGen.single (cutExpand_cons fun b hb => absurd hb (Multiset.notMem_zero b))
  | @merge point c m cs versions hexplorer hwaiting hfirst hmerge =>
    let rest₀ : Multiset (ℤ × Bool) :=
      ↑((g.merger.filter (Merger.mergePointOf · ≠ some point)).map
        fun c => (c.state.vertex.label, true))
    let merged : Multiset (ℤ × Bool) := ↑(cs.map fun c => (c.state.vertex.label, true))
    have hlabel : m.state.vertex.label = c.state.vertex.label := by
      rw [(Merger.mergeAll_place hmerge).2.2]
    have hafter : positions { g with
        versions := versions
        explorer := [m]
        merger := g.merger.filter (Merger.mergePointOf · ≠ some point) } =
          {(c.state.vertex.label, false)} + rest₀ := by
      rw [← hlabel]
      rfl
    have hbefore : g.positions = (c.state.vertex.label, true) ::ₘ (merged + rest₀) := by
      have hsplit := coe_filter_add (fun c => Merger.mergePointOf c = some point) g.merger
      unfold waiting at hwaiting
      rw [hwaiting] at hsplit
      have hmap := congrArg (Multiset.map fun c => (c.state.vertex.label, true)) hsplit.symm
      simp only [positions, hexplorer, List.map_nil, Multiset.coe_nil, zero_add]
      refine hmap.trans ?_
      simp only [Multiset.map_add, Multiset.map_coe, List.map_cons, rest₀, merged, ne_eq, decide_not]
      rfl
    rw [hafter, hbefore]
    -- the first context stops waiting, the others are dropped
    have hdrop := reflTransGen_cutExpand_add (r := Behind p) merged
      ({(c.state.vertex.label, false)} + rest₀)
    refine TransGen.tail' hdrop ?_
    rw [add_left_comm]
    apply cutExpand_cons
    intro b hb
    obtain rfl := Multiset.mem_singleton.mp hb
    exact Prod.Lex.right _ Bool.false_lt_true
  | nextCycle => exact absurd hcycle (Nat.succ_ne_self _)

theorem Reachable.acc_cycleStep {g : Engine} (hp : p.WellFormed) (hlabels : p.Increasing)
    (hcalls : p.AnswersCalls findApplicableSummaries)
    (hg : Reachable p simplifier solver findApplicableSummaries g) :
    Acc (fun g₂ g₁ => CycleStep p simplifier solver findApplicableSummaries g₁ g₂) g := by
  have hwf := InvImage.wf positions (behind_wellFounded hlabels).cutExpand.transGen
  induction g using hwf.induction with
  | _ g ih =>
    refine Acc.intro g fun g' hstep => ih g' ?_ ?_
    · exact hstep.positions_cutExpand hp hlabels hcalls (hg.named hp) (hg.shallow hp hlabels hcalls)
    · obtain ⟨g₀, hg₀, hrun⟩ := hg
      exact ⟨g₀, hg₀, hrun.tail hstep.1⟩

end Engine

namespace Merger

variable (simplifier) in
theorem mergeAll_total {cs : List Context} (hp : p.WellFormed) (hc : c.Invariant p versions k)
    (hb : c.Bounded versions k) (hstack : c.callStack = [p.frame])
    (hcs : ∀ c' ∈ cs, c'.Invariant p versions k ∧ c'.Bounded versions k ∧
      c'.callStack = [p.frame] ∧ c'.state.vertex.label = c.state.vertex.label)
    (hagrees : ∀ c' ∈ cs, c'.Agrees c) (hpairs : ∀ c' ∈ cs, ∀ c'' ∈ cs, c'.Agrees c'') :
    ∃ versions' m, mergeAll simplifier versions c cs = .ok (versions', m) := by
  induction cs generalizing versions c with
  | nil => exact ⟨versions, c, rfl⟩
  | cons c₂ cs ih =>
    obtain ⟨hc₂, hb₂, hstack₂, hlabel₂⟩ := hcs c₂ List.mem_cons_self
    obtain ⟨valuations, hvaluations⟩ := mergeValuations_total c.state.symbolicValuations
      c₂.state.symbolicValuations.sorted fun x hx e he =>
        (hagrees c₂ List.mem_cons_self x.1 x.2 e
          ((OrderedMap.find?_eq_some_iff _ _ _).mpr hx) he).symm
    obtain ⟨versions₁, m₁, hm₁, hmerged⟩ := merge_of_valuations simplifier hp hc hc₂ hlabel₂.symm
      hstack hstack₂ hvaluations
    obtain ⟨hle, hb₁, hagrees₁⟩ := merge_bounded hb hb₂ hm₁
    have hrest : ∀ c' ∈ cs, c' ∈ c₂ :: cs := fun _ => List.mem_cons_of_mem _
    obtain ⟨versions₂, m, hm⟩ := ih hmerged.invariant hb₁ (hmerged.callStack.trans hstack)
      (fun c' hc' => by
        obtain ⟨hinv, hbounded, hframe, hlabel⟩ := hcs c' (hrest c' hc')
        exact ⟨hinv.mono hle, hbounded.mono hle, hframe,
          hlabel.trans (congrArg Vertex.label hmerged.vertex).symm⟩)
      (fun c' hc' => hagrees₁ c' (hcs c' (hrest c' hc')).2.1 (hagrees c' (hrest c' hc'))
        (hpairs c' (hrest c' hc') c₂ List.mem_cons_self))
      (fun c' hc' c'' hc'' => hpairs c' (hrest c' hc') c'' (hrest c'' hc''))
    refine ⟨versions₂, m, ?_⟩
    unfold mergeAll
    rw [hm₁]
    exact hm

end Merger

namespace Engine

/-- The contexts at one merge point can be merged. -/
theorem Reachable.mergeAll_waiting {g : Engine} (hp : p.WellFormed) (hlabels : p.Increasing)
    (hcalls : p.AnswersCalls findApplicableSummaries)
    (hfits : p.FindsFitting findApplicableSummaries)
    (hg : Reachable p simplifier solver findApplicableSummaries g) {point : MergePoint}
    {cs : List Context} (hwaiting : g.waiting point = c :: cs) :
    ∃ versions m, Merger.mergeAll simplifier g.versions c cs = .ok (versions, m) := by
  have hnamed := hg.named hp
  have hinvariant := hg.invariant hp hfits
  have hs := hg.shallow hp hlabels hcalls
  have hlive : ∀ x ∈ g.merger, x ∈ g.explorer ++ g.merger := fun x => List.mem_append_right _
  have hstack : ∀ x ∈ g.merger, x.callStack = [p.frame] := fun x hx =>
    hs.live x (mem_live.mpr (Or.inl (hlive x hx)))
  have hmem := mem_waiting hwaiting
  have hlabel : ∀ y ∈ c :: cs, y.state.vertex.label = point.label := by
    intro y hy
    have h := (hmem y hy).2
    rw [Merger.mergePointOf_eq (hstack y (hmem y hy).1)] at h
    exact congrArg MergePoint.label (Option.some.inj h)
  have hcs : ∀ y ∈ c :: cs, y.Invariant p g.versions g.cycle ∧ y.Bounded g.versions g.cycle ∧
      y.callStack = [p.frame] ∧ y.state.vertex.label = c.state.vertex.label := by
    intro y hy
    have hy' := (hmem y hy).1
    exact ⟨(hinvariant.merger y hy').1, (hnamed.bounded.merger y hy').1, hstack y hy',
      (hlabel y hy).trans (hlabel c List.mem_cons_self).symm⟩
  have hagrees : ∀ y ∈ c :: cs, ∀ z ∈ c :: cs, y.Agrees z := fun y hy z hz =>
    hnamed.agrees y (hlive y (hmem y hy).1) z (hlive z (hmem z hz).1)
  obtain ⟨hc, hb, hframe, -⟩ := hcs c List.mem_cons_self
  have hrest : ∀ y ∈ cs, y ∈ c :: cs := fun _ => List.mem_cons_of_mem _
  exact Merger.mergeAll_total simplifier hp hc hb hframe
    (fun y hy => hcs y (hrest y hy)) (fun y hy => hagrees y (hrest y hy) c List.mem_cons_self)
    (fun y hy z hz => hagrees y (hrest y hy) z (hrest z hz))

theorem Reachable.exists_first {g : Engine} (hp : p.WellFormed) (hlabels : p.Increasing)
    (hcalls : p.AnswersCalls findApplicableSummaries)
    (hg : Reachable p simplifier solver findApplicableSummaries g) (hmerger : g.merger ≠ []) :
    ∃ point c cs, g.waiting point = c :: cs ∧ ∀ c' ∈ g.merger, ∀ point',
      Merger.mergePointOf c' = some point' → Merger.before point' point = false := by
  have hs := hg.shallow hp hlabels hcalls
  have hstack : ∀ x ∈ g.merger, x.callStack = [p.frame] := fun x hx =>
    hs.live x (mem_live.mpr (Or.inl (List.mem_append_right _ hx)))
  obtain ⟨x, hx⟩ := List.exists_mem_of_ne_nil _ hmerger
  obtain ⟨first, hfirst, hmin⟩ := Set.exists_min_image {x | x ∈ g.merger}
    (fun x => x.state.vertex.label) (List.finite_toSet g.merger) ⟨x, hx⟩
  have hpoint := Merger.mergePointOf_eq (hstack first hfirst)
  obtain ⟨c, cs, hwaiting⟩ : ∃ c cs, g.waiting ⟨p.frame.scope, first.callStack.length,
      first.state.vertex.label, p.frame.returnLabel⟩ = c :: cs := by
    apply List.exists_cons_of_ne_nil
    exact List.ne_nil_of_mem (List.mem_filter.mpr ⟨hfirst, decide_eq_true hpoint⟩)
  refine ⟨_, c, cs, hwaiting, ?_⟩
  intro y hy point' hpoint'
  rw [Merger.mergePointOf_eq (hstack y hy)] at hpoint'
  cases hpoint'
  have hle := hmin y hy
  simp [Merger.before, hstack y hy, hstack first hfirst, hle]

theorem Reachable.of_cycleSteps {g g' : Engine}
    (hg : Reachable p simplifier solver findApplicableSummaries g)
    (hrun : ReflTransGen (CycleStep p simplifier solver findApplicableSummaries) g g') :
    Reachable p simplifier solver findApplicableSummaries g' ∧ g'.cycle = g.cycle := by
  induction hrun with
  | refl => exact ⟨hg, rfl⟩
  | tail _ hstep ih =>
    obtain ⟨⟨g₀, hg₀, hrun₀⟩, hcycle⟩ := ih
    exact ⟨⟨g₀, hg₀, hrun₀.tail hstep.1⟩, hstep.2.trans hcycle⟩

/-- The context that a cycle hands over. -/
structure HandsOver (p : Program) (ex : Executor) (g : Engine) (c' : Context) : Prop where
  cycle : c'.cycle = g.cycle + 1
  entry : c'.state.vertex.label = p.main.entryLabel
  callStack : c'.callStack = [p.frame]
  gathers : Gathers p g.cycle ex ↑g.live c'

/-- A cycle of which nothing is left to explore or to merge hands over one context, which all its
contexts have been gathered in. -/
theorem Reachable.handsOver {g g' : Engine} (hp : p.WellFormed) (hlabels : p.Increasing)
    (hcalls : p.AnswersCalls findApplicableSummaries)
    (hfits : p.FindsFitting findApplicableSummaries)
    (hg : Reachable p simplifier solver findApplicableSummaries g)
    (hrun : ReflTransGen (CycleStep p simplifier solver findApplicableSummaries) g g')
    (hexplorer : g'.explorer = []) (hmerger : g'.merger = []) :
    ∃ c', g'.succeedingCycle = some c' ∧
      HandsOver p (executor p simplifier solver findApplicableSummaries) g c' := by
  obtain ⟨hg', hcycle⟩ := hg.of_cycleSteps hrun
  have hnext : ∃ c', g'.succeedingCycle = some c' := by
    obtain ⟨x, hx⟩ := List.exists_mem_of_ne_nil _ (hg'.live_ne_nil hp)
    rcases mem_live.mp hx with hx | hx
    · rw [hexplorer, hmerger] at hx
      cases hx
    · exact ⟨x, hx⟩
  obtain ⟨c', hnext⟩ := hnext
  have hs := hg'.shallow hp hlabels hcalls
  refine ⟨c', hnext, ?_, hs.next c' hnext, hs.live c' (mem_live.mpr (Or.inr hnext)), ?_⟩
  · rw [← hcycle]
    exact ((hg'.named hp).bounded.succeeding c' hnext).1.cycle
  · clear hcycle
    induction hrun using ReflTransGen.head_induction_on with
    | refl => exact gathers_of_finished hexplorer hmerger hnext _ _
    | head hstep hrun ih =>
      have hg₁ := hg
      obtain ⟨g₀, hg₀, hrun₀⟩ := hg
      have hrest := ih ⟨g₀, hg₀, hrun₀.tail hstep.1⟩
      rw [hstep.2] at hrest
      exact hstep.gathers hp (hg₁.named hp) (hg₁.invariant hp hfits) hrest

end Engine

end Ahorn.Etfa
