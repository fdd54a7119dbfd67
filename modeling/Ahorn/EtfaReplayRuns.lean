import Ahorn.EtfaCycle
import Ahorn.EtfaReplay

set_option autoImplicit false

/-!
# Runs in which contexts keep standing for executions

The contexts of a state are feasible and replay, and together they leave out no inputs. A context at
the exit of the program is the only one of its cycle, so it admits all inputs, and clearing its path
constraint adds none.
-/
namespace Ahorn.Etfa

variable {p : Program} {simplifier : Simplifier String} {solver : Solver String}
  {findApplicableSummaries : Context → Except String (List Summary)} {versions versions' : Versions}
  {c : Context} {k : ℕ}

/-- A context of a cycle that stands for executions. -/
structure Context.Replayable (p : Program) (versions : Versions) (k : ℕ) (c : Context) : Prop where
  invariant : c.Invariant p versions k
  opens : c.Opens p
  feasible : c.Feasible
  replays : c.Replays p

theorem Context.Replayable.mono (h : c.Replayable p versions k) (hle : versions.Le versions') :
    c.Replayable p versions' k :=
  ⟨h.invariant.mono hle, h.opens, h.feasible, h.replays⟩

namespace Engine

/-- The states of the engine in the runs on a program in which every context that is executed meets
a condition, and so do the contexts of every merge. -/
inductive ReachableUnder (p : Program) (simplifier : Simplifier String) (solver : Solver String)
    (findApplicableSummaries : Context → Except String (List Summary)) (P : Context → Prop)
    (Q : Versions → Context → List Context → Prop) : Engine → Prop where
  | initial {g : Engine} (h : initial p = .ok g) :
      ReachableUnder p simplifier solver findApplicableSummaries P Q g
  | explore {g : Engine} {c : Context} {rest rest' : List Context} {versions : Versions}
      {successors : Executor.Successors}
      (hg : ReachableUnder p simplifier solver findApplicableSummaries P Q g)
      (h : g.explorer = rest ++ c :: rest') (hP : P c)
      (hexecute : (executor p simplifier solver findApplicableSummaries).execute g.versions c =
        .ok (versions, successors)) :
      ReachableUnder p simplifier solver findApplicableSummaries P Q
        ((successors.contexts ++ successors.forked.toList).foldl (push p)
          { g with versions := versions, explorer := rest ++ rest' })
  | merge {g : Engine} {point : MergePoint} {c merged : Context} {cs : List Context}
      {versions : Versions}
      (hg : ReachableUnder p simplifier solver findApplicableSummaries P Q g)
      (hexplorer : g.explorer = []) (hwaiting : g.waiting point = c :: cs)
      (hfirst : ∀ c' ∈ g.merger, ∀ point', Merger.mergePointOf c' = some point' →
        Merger.before point' point = false)
      (hQ : Q g.versions c cs)
      (hmerge : Merger.mergeAll simplifier g.versions c cs = .ok (versions, merged)) :
      ReachableUnder p simplifier solver findApplicableSummaries P Q
        { g with
          versions := versions
          explorer := [merged]
          merger := g.merger.filter (Merger.mergePointOf · ≠ some point) }
  | nextCycle {g : Engine} {c : Context}
      (hg : ReachableUnder p simplifier solver findApplicableSummaries P Q g)
      (hexplorer : g.explorer = []) (hmerger : g.merger = [])
      (hnext : g.succeedingCycle = some c) :
      ReachableUnder p simplifier solver findApplicableSummaries P Q
        { g with cycle := g.cycle + 1, explorer := [c], succeedingCycle := none }

variable {P : Context → Prop} {Q : Versions → Context → List Context → Prop} {g : Engine}

theorem ReachableUnder.reachable
    (hg : ReachableUnder p simplifier solver findApplicableSummaries P Q g) :
    Reachable p simplifier solver findApplicableSummaries g := by
  induction hg with
  | initial h => exact ⟨_, h, .refl⟩
  | explore _ h _ hexecute ih =>
    obtain ⟨g₀, hg₀, hrun⟩ := ih
    exact ⟨g₀, hg₀, hrun.tail (.explore h hexecute)⟩
  | merge _ hexplorer hwaiting hfirst _ hmerge ih =>
    obtain ⟨g₀, hg₀, hrun⟩ := ih
    exact ⟨g₀, hg₀, hrun.tail (.merge hexplorer hwaiting hfirst hmerge)⟩
  | nextCycle _ hexplorer hmerger hnext ih =>
    obtain ⟨g₀, hg₀, hrun⟩ := ih
    exact ⟨g₀, hg₀, hrun.tail (.nextCycle hexplorer hmerger hnext)⟩

/-- What holds of the states of these runs. -/
structure Replayed (p : Program) (g : Engine) : Prop where
  keeps : Keeps p (fun versions k c => c.Replayable p versions k) g
  exhaustive : ∀ I : Model String, ∃ c ∈ g.live, ∃ M, c.Holds I M

theorem initial_opens (hp : p.WellSorted) (h : initial p = .ok g) (hc : c ∈ g.explorer) :
    c.Opens p := by
  obtain ⟨vertex, hvertex, h⟩ := bind_eq_ok h
  obtain ⟨⟨versions, st⟩, hst, h⟩ := bind_eq_ok h
  cases h
  obtain rfl := List.mem_singleton.mp hc
  have hmem := (initialState_spec
    (fun x v hx => hp.encodable ((OrderedMap.find?_eq_some_iff _ _ _).mpr hx))
    p.main.flattenedInterface.sorted
    Definitions.acyclic_none (fun _ _ h => (Option.some_ne_none _ h.symm).elim)
    (fun _ _ h => (Option.some_ne_none _ h.symm).elim) (fun _ _ => rfl) hst).2.2.2.2.2.2.2.2
  have hinitial : ∀ {x v e}, (x, v) ∈ p.main.flattenedInterface.entries →
      initialValuation p.wholeProgramInputs x v = .ok e →
      st.symbolicValuations.find? (contextualized x 0 0) = some e := by
    intro x v e hx he
    obtain ⟨s, t, -, -, ht⟩ := hmem x v hx
    rcases initialState_values hst ht with hold | ⟨y, u, hy, hname, hu⟩
    · cases hold
    · obtain ⟨rfl, -, -⟩ := contextualized_injective hname
      have hfind := (OrderedMap.find?_eq_some_iff _ _ _).mpr hx
      rw [(OrderedMap.find?_eq_some_iff _ _ _).mpr hy] at hfind
      cases hfind
      rw [he] at hu
      cases hu
      exact ht
  refine ⟨hinitial, fun k hk x hx s hs => ?_⟩
  obtain rfl := Nat.le_zero.mp hk
  obtain ⟨v, hv⟩ := Program.entry_of_sortOf hs
  obtain ⟨s', hs', hsort⟩ := hp.sortOf_entry hv
  rw [hs] at hsort
  cases hsort
  apply hinitial hv
  unfold initialValuation makeConstant
  rw [if_pos hx, hs']
  rfl

/-- The path constraint of the first context is true. -/
theorem Replayed.initial (hp : p.WellFormed) (h : initial p = .ok g) : Replayed p g := by
  have hinvariant := Invariant.initial hp h
  have hconstraint : ∃ c, g.explorer = [c] ∧ g.merger = [] ∧ g.succeedingCycle = none ∧
      ∀ M : Model String, ∀ t ∈ c.state.pathConstraint, t.Holds M := by
    obtain ⟨vertex, -, h⟩ := bind_eq_ok h
    obtain ⟨⟨versions, st⟩, hst, h⟩ := bind_eq_ok h
    cases h
    refine ⟨_, rfl, rfl, rfl, fun M t ht => ?_⟩
    rw [(initialState_place hst).2] at ht
    obtain rfl := List.mem_singleton.mp ht
    rfl
  obtain ⟨c, hexplorer, hmerger, hnext, hconstraint⟩ := hconstraint
  have hmem : c ∈ g.explorer := by
    rw [hexplorer]
    exact List.mem_cons_self
  obtain ⟨hc, hplaced⟩ := hinvariant.explorer c hmem
  have hholds : ∀ I : Model String, ∃ M, c.Holds I M := by
    intro I
    obtain ⟨M, hM⟩ := hc.acyclic.exists_reads I
    exact ⟨M, hM, hconstraint M⟩
  have hreplayable : c.Replayable p g.versions g.cycle := by
    refine ⟨hc, initial_opens hp.toWellSorted h hmem, ?_, ?_⟩
    · exact Context.feasible_iff.mpr ⟨PartialModel.complete [], hholds _⟩
    · intro inputs M hM
      obtain ⟨conf, hstart, hfollows, -⟩ := initial_follows hp.toWellSorted h hmem hM.respects
        (hM.inputs 0 (Nat.zero_le _))
      exact ⟨conf, conf, hstart, .refl, hfollows⟩
  refine ⟨⟨?_, ?_, hinvariant.merges, hinvariant.exit, ?_⟩, fun I => ?_⟩
  · intro x hx
    rw [hexplorer] at hx
    obtain rfl := List.mem_singleton.mp hx
    exact ⟨hreplayable, hplaced⟩
  · intro x hx
    rw [hmerger] at hx
    cases hx
  · intro x hx
    rw [hnext] at hx
    cases hx
  · exact ⟨c, mem_live.mpr (Or.inl (List.mem_append_left _ hmem)), hholds I⟩

theorem Replayed.valid (hg : Replayed p g) (hnone : g.succeedingCycle = none) (hc : c ∈ g.explorer)
    (hexit : c.AtExit) {M : Model String} (hM : c.definitions.Respects M) :
    ∀ t ∈ c.state.pathConstraint, t.Holds M := by
  obtain ⟨hall, hmerger⟩ := hg.keeps.exit c hc hexit
  obtain ⟨c', hc', M', hM'⟩ := hg.exhaustive M
  have heq : c' = c := by
    rcases mem_live.mp hc' with hc' | hc'
    · rw [hall, hmerger] at hc'
      exact List.mem_singleton.mp hc'
    · rw [hnone] at hc'
      cases hc'
  subst heq
  exact ((hg.keeps.explorer c' hc).1.invariant.constraint_iff hM'.reads
    ⟨hM, fun _ _ _ => rfl⟩).mp hM'.pathConstraint

theorem Replayed.executed {rest rest' : List Context} {versions : Versions}
    {successors : Executor.Successors} (hp : p.WellFormed)
    (hfits : p.FindsFitting findApplicableSummaries) (hg : Replayed p g)
    (hnone : g.succeedingCycle = none) (hexplorer : g.explorer = rest ++ c :: rest')
    (hkeeps : KeepsReplays p findApplicableSummaries c)
    (h : (executor p simplifier solver findApplicableSummaries).execute g.versions c =
      .ok (versions, successors)) :
    Executed (fun versions k c => c.Replayable p versions k) g.cycle c g.versions versions
      successors := by
  have hmem : c ∈ g.explorer := by
    rw [hexplorer]
    exact List.mem_append_right _ List.mem_cons_self
  obtain ⟨hc, hplaced⟩ := hg.keeps.explorer c hmem
  have hopens := Executor.execute_opens hfits hc.invariant hplaced hc.opens h
  have hfeasible := (Executor.execute_feasible hp hfits hc.invariant hplaced hc.feasible hkeeps h).1
  have hreplays := Executor.execute_replays hp hfits hc.invariant hplaced hc.replays hkeeps
    (fun hexit M hM => hg.valid hnone hmem hexit hM) h
  rcases Executor.execute_invariant hp hfits hc.invariant hplaced h with
    ⟨hle, hcs⟩ | ⟨hexit, c', rfl, hc'⟩
  · exact Or.inl ⟨hle, fun x hx => ⟨hcs x hx, hopens x hx, hfeasible x hx, hreplays x hx⟩⟩
  · have hmem' : c' ∈ [c'] ++ (none : Option Context).toList := List.mem_cons_self
    exact Or.inr ⟨hexit, c', rfl, hc', hopens c' hmem', hfeasible c' hmem', hreplays c' hmem'⟩

theorem Replayed.explore {rest rest' : List Context} {versions : Versions}
    {successors : Executor.Successors} (hp : p.WellFormed)
    (hfits : p.FindsFitting findApplicableSummaries) (hnamed : Named p g) (hg : Replayed p g)
    (hexplorer : g.explorer = rest ++ c :: rest') (hkeeps : KeepsReplays p findApplicableSummaries c)
    (h : (executor p simplifier solver findApplicableSummaries).execute g.versions c =
      .ok (versions, successors)) :
    Replayed p ((successors.contexts ++ successors.forked.toList).foldl (push p)
      { g with versions := versions, explorer := rest ++ rest' }) := by
  have hmem : c ∈ g.explorer := by
    rw [hexplorer]
    exact List.mem_append_right _ List.mem_cons_self
  obtain ⟨hc, hplaced⟩ := hg.keeps.explorer c hmem
  obtain ⟨hnone, hcases⟩ := explore_cases hnamed hexplorer h
  have hholds := (Executor.execute_feasible hp hfits hc.invariant hplaced hc.feasible hkeeps h).2
  refine ⟨hg.keeps.explore hp (fun h => h.invariant.cycle) (fun hle h => h.mono hle) hexplorer h
    (hg.executed hp hfits hnone hexplorer hkeeps h), fun I => ?_⟩
  have hlive : ∀ x, x ∈ successors.contexts ++ successors.forked.toList ∨ (x ∈ g.live ∧ x ≠ c) →
      x ∈ ((successors.contexts ++ successors.forked.toList).foldl (push p)
        { g with versions := versions, explorer := rest ++ rest' }).live := by
    intro x hx
    rcases hcases with ⟨-, hpush⟩ | ⟨c', rfl, -, rfl, rfl, hmerger, hpush⟩
    · rw [hpush]
      refine mem_live.mpr (Or.inl ?_)
      rcases hx with hx | ⟨hx, hne⟩
      · by_cases hwaits : waits p x = true
        · exact List.mem_append_right _ (List.mem_append_right _ (List.mem_filter.mpr ⟨hx, hwaits⟩))
        · refine List.mem_append_left _ (List.mem_append_right _ (List.mem_filter.mpr ⟨hx, ?_⟩))
          exact Bool.not_eq_true' _ ▸ Bool.eq_false_iff.mpr hwaits
      · rcases mem_live.mp hx with hx | hx
        · rw [hexplorer] at hx
          simp only [List.mem_append, List.mem_cons] at hx ⊢
          tauto
        · rw [hnone] at hx
          cases hx
    · rw [hpush]
      simp only [Engine.live, hnone, hexplorer, hmerger, Option.toList_none, List.append_nil,
        List.nil_append, List.mem_singleton] at hx ⊢
      rcases hx with hx | ⟨hx, hne⟩
      · simp [hx]
      · exact absurd hx hne
  obtain ⟨x, hx, M, hM⟩ := hg.exhaustive I
  by_cases heq : x = c
  · subst heq
    obtain ⟨x', hx', hM'⟩ := hholds I M hM
    exact ⟨x', hlive x' (Or.inl hx'), hM'⟩
  · exact ⟨x, hlive x (Or.inr ⟨hx, heq⟩), M, hM⟩

theorem Replayed.merge {point : MergePoint} {m : Context} {cs : List Context} {versions : Versions}
    (hp : p.WellFormed) (hg : Replayed p g) (hexplorer : g.explorer = [])
    (hwaiting : g.waiting point = c :: cs)
    (hfirst : ∀ c' ∈ g.merger, ∀ point', Merger.mergePointOf c' = some point' →
      Merger.before point' point = false)
    (hkeeps : Merger.KeepsConstraints simplifier g.versions c cs)
    (h : Merger.mergeAll simplifier g.versions c cs = .ok (versions, m)) :
    Replayed p { g with
      versions := versions
      explorer := [m]
      merger := g.merger.filter (Merger.mergePointOf · ≠ some point) } := by
  have hmem := mem_waiting hwaiting
  have hcs : ∀ x ∈ c :: cs, x.Replayable p g.versions g.cycle ∧ x.Placed p :=
    fun x hx => hg.keeps.merger x (hmem x hx).1
  obtain ⟨hc, hplaced⟩ := hcs c List.mem_cons_self
  have hrest : ∀ x ∈ cs, x.Invariant p g.versions g.cycle ∧ x.Placed p := by
    intro x hx
    obtain ⟨hx, hplaced⟩ := hcs x (List.mem_cons_of_mem _ hx)
    exact ⟨hx.invariant, hplaced⟩
  obtain ⟨hinvariant, hle⟩ := Merger.mergeAll_invariant hp hc.invariant hplaced hrest h
  obtain ⟨hreplays, hopens, hholds⟩ := Merger.mergeAll_replays hp hc.invariant hplaced hrest hkeeps
    (fun x hx => (hcs x hx).1.replays) hc.opens h
  have hfeasible : m.Feasible := by
    obtain ⟨I, M, hM⟩ := Context.feasible_iff.mp hc.feasible
    exact Context.feasible_iff.mpr ⟨I, (hholds I).mpr ⟨c, List.mem_cons_self, M, hM⟩⟩
  refine ⟨hg.keeps.merge hp (fun hle h => h.mono hle) hwaiting hfirst h
    ⟨⟨hinvariant, hopens, hfeasible, hreplays⟩, hle⟩, fun I => ?_⟩
  obtain ⟨x, hx, M, hM⟩ := hg.exhaustive I
  by_cases hpoint : x ∈ c :: cs
  · obtain ⟨M', hM'⟩ := (hholds I).mpr ⟨x, hpoint, M, hM⟩
    exact ⟨m, mem_live.mpr (Or.inl List.mem_cons_self), M', hM'⟩
  · refine ⟨x, mem_live.mpr ?_, M, hM⟩
    rcases mem_live.mp hx with hx | hx
    · rw [hexplorer, List.nil_append] at hx
      refine Or.inl (List.mem_append_right _ (List.mem_filter.mpr ⟨hx, ?_⟩))
      rw [← hwaiting] at hpoint
      exact decide_eq_true fun hsame => hpoint (List.mem_filter.mpr ⟨hx, decide_eq_true hsame⟩)
    · exact Or.inr hx

theorem ReachableUnder.replayed (hp : p.WellFormed)
    (hfits : p.FindsFitting findApplicableSummaries)
    (hg : ReachableUnder p simplifier solver findApplicableSummaries
      (KeepsReplays p findApplicableSummaries) (Merger.KeepsConstraints simplifier) g) :
    Replayed p g := by
  induction hg with
  | initial h => exact .initial hp h
  | explore hg hexplorer hkeeps hexecute ih =>
    exact ih.explore hp hfits (hg.reachable.named hp) hexplorer hkeeps hexecute
  | merge _ hexplorer hwaiting hfirst hkeeps hmerge ih =>
    exact ih.merge hp hexplorer hwaiting hfirst hkeeps hmerge
  | @nextCycle g c _ hexplorer hmerger hnext ih =>
    refine ⟨ih.keeps.nextCycle hmerger hnext, fun I => ?_⟩
    obtain ⟨x, hx, hM⟩ := ih.exhaustive I
    refine ⟨x, mem_live.mpr (Or.inl ?_), hM⟩
    rcases mem_live.mp hx with hx | hx
    · rw [hexplorer, hmerger] at hx
      cases hx
    · rw [hnext] at hx
      cases hx
      exact List.mem_cons_self

end Engine

end Ahorn.Etfa
