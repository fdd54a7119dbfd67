import Mathlib.Algebra.Order.Field.Rat
import Ahorn.EtfaCycle
import Ahorn.SimulatedSuites

set_option autoImplicit false

/-!
# How a step of the engine ends

A step explores and merges until nothing is left and hands over the last context. Where the time is up
or everything is covered, it ends earlier: the context that has been taken from the exploration is
destroyed, and nothing is handed over.
-/
namespace Ahorn.Etfa

open Relation

inductive TerminationCriteria where
  | timeOut
  | coverage
  deriving DecidableEq, Repr

namespace Coverage

/-- The share of what is covered, in exact arithmetic. It is no number where there is nothing to
cover. -/
def share (covered total : ℕ) : Option ℚ := if total = 0 then none else some (covered / total)

def statementCoverage (coverage : Coverage) : Option ℚ :=
  share coverage.countStatements coverage.coveredStatements.entries.length

def branchCoverage (coverage : Coverage) : Option ℚ :=
  share coverage.countBranches (2 * coverage.coveredBranches.entries.length)

/-- The float next to 0.0001. -/
def epsilon : ℚ := 13743895 / 2 ^ 37

end Coverage

namespace Engine

/-- Nothing that is no number is within the bound, or beyond it. -/
def isLocalTerminationCriteriaMet (timeOut : Bool) (coverage : Coverage) :
    Option TerminationCriteria :=
  if timeOut then some .timeOut
  else if coverage.branchCoverage.any (|1 - ·| ≤ Coverage.epsilon) &&
    coverage.statementCoverage.any (|1 - ·| ≤ Coverage.epsilon) then some .coverage
  else none

def isTerminationCriteriaMet (cycleBound cycle : ℕ) (timeOut : Bool) (coverage : Coverage) : Bool :=
  timeOut || !decide (cycle < cycleBound) ||
    !(coverage.branchCoverage.any (Coverage.epsilon < |1 - ·|) ||
      coverage.statementCoverage.any (Coverage.epsilon < |1 - ·|))

/-- The check before a context is executed, in the frame of a program only. -/
def terminates (timeOut : Bool) (coverage : Coverage) (c : Context) : Option TerminationCriteria :=
  match c.callStack with
  | frame :: _ =>
    if frame.cfg.type = .program then isLocalTerminationCriteriaMet timeOut coverage else none
  | [] => none

section Steps

variable (p : Program) (simplifier : Simplifier String) (finder : ModelFinder String)
  (findApplicableSummaries : Context → Except String (List Summary))

/-- One iteration of the loop of a step. -/
inductive Iteration : Engine × Testing → Engine × Testing → Prop where
  | explore {g : Engine} {testing testing' : Testing} {c : Context} {rest rest' : List Context}
      {timeOut : Bool} {versions : Versions} {successors : Executor.Successors}
      (h : g.explorer = rest ++ c :: rest')
      (hgoes : terminates timeOut testing.coverage c = none)
      (hexecute : (executor p simplifier finder.solver findApplicableSummaries).execute g.versions c =
        .ok (versions, successors))
      (hcover : Testing.cover finder (executor p simplifier finder.solver findApplicableSummaries)
        g.versions c successors testing = .ok testing') :
      Iteration (g, testing) ((successors.contexts ++ successors.forked.toList).foldl (push p)
        { g with versions := versions, explorer := rest ++ rest' }, testing')
  | merge {g : Engine} {testing : Testing} {point : MergePoint} {c merged : Context}
      {cs : List Context} {versions : Versions}
      (hexplorer : g.explorer = []) (hwaiting : g.waiting point = c :: cs)
      (hfirst : ∀ c' ∈ g.merger, ∀ point', Merger.mergePointOf c' = some point' →
        Merger.before point' point = false)
      (hmerge : Merger.mergeAll simplifier g.versions c cs = .ok (versions, merged)) :
      Iteration (g, testing) ({ g with
        versions := versions
        explorer := [merged]
        merger := g.merger.filter (Merger.mergePointOf · ≠ some point) }, testing)

/-- How a step ends: with the context it hands over, if any, and the criterion that has ended it, or
with an exception. -/
inductive Ends :
    Engine × Testing → Except String (Option Context × Option TerminationCriteria) → Prop where
  | returned {g : Engine} {testing : Testing} (hexplorer : g.explorer = [])
      (hmerger : g.merger = []) : Ends (g, testing) (.ok (g.succeedingCycle, none))
  | terminated {g : Engine} {testing : Testing} {c : Context} {rest rest' : List Context}
      {timeOut : Bool} {criteria : TerminationCriteria} (h : g.explorer = rest ++ c :: rest')
      (hterminates : terminates timeOut testing.coverage c = some criteria) :
      Ends (g, testing) (.ok (none, some criteria))
  | executionFails {g : Engine} {testing : Testing} {c : Context} {rest rest' : List Context}
      {timeOut : Bool} {e : String} (h : g.explorer = rest ++ c :: rest')
      (hgoes : terminates timeOut testing.coverage c = none)
      (hexecute : (executor p simplifier finder.solver findApplicableSummaries).execute g.versions c =
        .error e) : Ends (g, testing) (.error e)
  | coverageFails {g : Engine} {testing : Testing} {c : Context} {rest rest' : List Context}
      {timeOut : Bool} {versions : Versions} {successors : Executor.Successors} {e : String}
      (h : g.explorer = rest ++ c :: rest') (hgoes : terminates timeOut testing.coverage c = none)
      (hexecute : (executor p simplifier finder.solver findApplicableSummaries).execute g.versions c =
        .ok (versions, successors))
      (hcover : Testing.cover finder (executor p simplifier finder.solver findApplicableSummaries)
        g.versions c successors testing = .error e) : Ends (g, testing) (.error e)
  | mergeFails {g : Engine} {testing : Testing} {point : MergePoint} {c : Context}
      {cs : List Context} {e : String} (hexplorer : g.explorer = [])
      (hwaiting : g.waiting point = c :: cs)
      (hfirst : ∀ c' ∈ g.merger, ∀ point', Merger.mergePointOf c' = some point' →
        Merger.before point' point = false)
      (hmerge : Merger.mergeAll simplifier g.versions c cs = .error e) : Ends (g, testing) (.error e)

/-- The states in the runs of the engine: one step for every cycle, until a criterion is met. -/
inductive Running (cycleBound : ℕ) (blank : Coverage) : Engine × Testing → Prop where
  | initial {g : Engine} {timeOut : Bool} (h : initial p = .ok g)
      (hgoes : isTerminationCriteriaMet cycleBound g.cycle timeOut blank = false) :
      Running cycleBound blank (g, ⟨blank, []⟩)
  | iterate {s s' : Engine × Testing} (hs : Running cycleBound blank s)
      (h : Iteration p simplifier finder findApplicableSummaries s s') :
      Running cycleBound blank s'
  | nextCycle {g : Engine} {testing : Testing} {c : Context} {timeOut : Bool}
      (hs : Running cycleBound blank (g, testing)) (hexplorer : g.explorer = [])
      (hmerger : g.merger = []) (hnext : g.succeedingCycle = some c)
      (hgoes : isTerminationCriteriaMet cycleBound (g.cycle + 1) timeOut testing.coverage = false) :
      Running cycleBound blank
        ({ g with cycle := g.cycle + 1, explorer := [c], succeedingCycle := none }, testing)

end Steps

variable {p : Program} {simplifier : Simplifier String} {finder : ModelFinder String}
  {findApplicableSummaries : Context → Except String (List Summary)} {cycleBound : ℕ}
  {blank : Coverage} {s s' : Engine × Testing}

theorem foldl_push_cycle (cs : List Context) (g : Engine) : (cs.foldl (push p) g).cycle = g.cycle := by
  induction cs generalizing g with
  | nil => rfl
  | cons c cs ih =>
    rw [List.foldl_cons, ih]
    unfold push
    split_ifs
    · split <;> (try split_ifs) <;> rfl
    · rfl

theorem Iteration.cycleStep (h : Iteration p simplifier finder findApplicableSummaries s s') :
    CycleStep p simplifier finder.solver findApplicableSummaries s.1 s'.1 := by
  cases h with
  | explore h _ hexecute _ => exact ⟨.explore h hexecute, foldl_push_cycle _ _⟩
  | merge hexplorer hwaiting hfirst hmerge => exact ⟨.merge hexplorer hwaiting hfirst hmerge, rfl⟩

theorem cycleSteps_of_iterations
    (h : ReflTransGen (Iteration p simplifier finder findApplicableSummaries) s s') :
    ReflTransGen (CycleStep p simplifier finder.solver findApplicableSummaries) s.1 s'.1 :=
  h.lift Prod.fst fun _ _ => Iteration.cycleStep

theorem Running.reachable
    (h : Running p simplifier finder findApplicableSummaries cycleBound blank s) :
    Reachable p simplifier finder.solver findApplicableSummaries s.1 := by
  induction h with
  | initial h _ => exact ⟨_, h, .refl⟩
  | iterate _ h ih =>
    obtain ⟨g₀, hg₀, hrun⟩ := ih
    exact ⟨g₀, hg₀, hrun.tail h.cycleStep.1⟩
  | nextCycle _ hexplorer hmerger hnext _ ih =>
    obtain ⟨g₀, hg₀, hrun⟩ := ih
    exact ⟨g₀, hg₀, hrun.tail (.nextCycle hexplorer hmerger hnext)⟩

theorem Reachable.iterates_or_ends (hp : p.WellFormed) (hlabels : p.Increasing)
    (hcalls : p.AnswersCalls findApplicableSummaries)
    (hfits : p.FindsFitting findApplicableSummaries)
    (hs : Reachable p simplifier finder.solver findApplicableSummaries s.1) :
    ((∃ s', Iteration p simplifier finder findApplicableSummaries s s') ∨
      ∃ r, Ends p simplifier finder findApplicableSummaries s r) ∧
    ∀ e, Ends p simplifier finder findApplicableSummaries s (.error e) → s.1.explorer ≠ [] := by
  obtain ⟨g, testing⟩ := s
  constructor
  · cases hexplorer : g.explorer with
    | cons c rest =>
      have h : g.explorer = [] ++ c :: rest := hexplorer
      cases hterminates : terminates false testing.coverage c with
      | some criteria => exact Or.inr ⟨_, .terminated h hterminates⟩
      | none =>
        cases hexecute : (executor p simplifier finder.solver findApplicableSummaries).execute
            g.versions c with
        | error e => exact Or.inr ⟨_, .executionFails h hterminates hexecute⟩
        | ok r =>
          obtain ⟨versions, successors⟩ := r
          cases hcover : Testing.cover finder
              (executor p simplifier finder.solver findApplicableSummaries) g.versions c successors
              testing with
          | error e => exact Or.inr ⟨_, .coverageFails h hterminates hexecute hcover⟩
          | ok testing' => exact Or.inl ⟨_, .explore h hterminates hexecute hcover⟩
    | nil =>
      by_cases hmerger : g.merger = []
      · exact Or.inr ⟨_, .returned hexplorer hmerger⟩
      · obtain ⟨point, c, cs, hwaiting, hfirst⟩ := hs.exists_first hp hlabels hcalls hmerger
        obtain ⟨versions, m, hm⟩ := hs.mergeAll_waiting hp hlabels hcalls hfits hwaiting
        exact Or.inl ⟨_, .merge hexplorer hwaiting hfirst hm⟩
  · intro e h
    cases h with
    | executionFails h _ _ | coverageFails h _ _ _ => simp [h]
    | mergeFails hexplorer hwaiting _ hmerge =>
      obtain ⟨versions, m, hm⟩ := hs.mergeAll_waiting hp hlabels hcalls hfits hwaiting
      rw [hm] at hmerge
      cases hmerge

/-- In a program without loops whose calls are answered by summaries, a merge point is taken once no
other context can reach it. The loop of a step terminates, and where no criterion has ended it, the
step hands over one context at the entry of the program that all contexts of the cycle have been
gathered in. Only an execution throws. -/
theorem Running.step_handsOver (hp : p.WellFormed) (hlabels : p.Increasing)
    (hcalls : p.AnswersCalls findApplicableSummaries)
    (hfits : p.FindsFitting findApplicableSummaries)
    (hs : Running p simplifier finder findApplicableSummaries cycleBound blank s) :
    (∀ point c cs, s.1.explorer = [] → s.1.waiting point = c :: cs →
      (∀ c' ∈ s.1.merger, ∀ point', Merger.mergePointOf c' = some point' →
        Merger.before point' point = false) →
      ∀ c' ∈ s.1.live, Merger.mergePointOf c' ≠ some point →
        ¬ ReflTransGen p.Flows c'.state.vertex.label point.label) ∧
    Acc (fun s₂ s₁ => Iteration p simplifier finder findApplicableSummaries s₁ s₂) s ∧
    ∀ s', ReflTransGen (Iteration p simplifier finder findApplicableSummaries) s s' →
      ((∃ s'', Iteration p simplifier finder findApplicableSummaries s' s'') ∨
        ∃ r, Ends p simplifier finder findApplicableSummaries s' r) ∧
      (∀ context, Ends p simplifier finder findApplicableSummaries s' (.ok (context, none)) →
        s'.1.explorer = [] ∧ s'.1.merger = [] ∧ ∃ c', context = some c' ∧
          HandsOver p (executor p simplifier finder.solver findApplicableSummaries) s.1 c') ∧
      ∀ e, Ends p simplifier finder findApplicableSummaries s' (.error e) → s'.1.explorer ≠ [] := by
  have hreachable := hs.reachable
  refine ⟨?_, ?_, fun s' hrun => ?_⟩
  · intro point c cs hexplorer hwaiting hfirst c' hc' hother
    exact not_reaches_point hlabels (hreachable.named hp) (hreachable.shallow hp hlabels hcalls)
      hexplorer hwaiting hfirst hc' hother
  · have hacc := InvImage.accessible Prod.fst (hreachable.acc_cycleStep hp hlabels hcalls)
    refine Subrelation.accessible (fun {s₂ s₁} h => ?_) hacc
    exact h.cycleStep
  · have hsteps := cycleSteps_of_iterations hrun
    obtain ⟨hgoes, hthrows⟩ := Reachable.iterates_or_ends hp hlabels hcalls hfits
      (hreachable.of_cycleSteps hsteps).1
    refine ⟨hgoes, fun context hends => ?_, hthrows⟩
    cases hends with
    | returned hexplorer hmerger =>
      exact ⟨hexplorer, hmerger, hreachable.handsOver hp hlabels hcalls hfits hsteps hexplorer hmerger⟩

theorem Iteration.of_front {g g' : Engine} {coverage : Coverage} {testCases : List TestCase}
    {testing' : Testing} {c : Context} {rest : List Context} {versions : Versions}
    {successors : Executor.Successors} (h : g.explorer = c :: rest)
    (hgoes : isLocalTerminationCriteriaMet false coverage = none)
    (hexecute : (executor p simplifier finder.solver findApplicableSummaries).execute g.versions c =
      .ok (versions, successors))
    (hcover : Testing.cover finder (executor p simplifier finder.solver findApplicableSummaries)
      g.versions c successors ⟨coverage, testCases⟩ = .ok testing')
    (hg' : (successors.contexts ++ successors.forked.toList).foldl (push p)
      { g with versions := versions, explorer := rest } = g') :
    Iteration p simplifier finder findApplicableSummaries (g, ⟨coverage, testCases⟩)
      (g', testing') := by
  subst hg'
  have hfront : g.explorer = [] ++ c :: rest := h
  have hgoes : terminates false coverage c = none := by
    unfold terminates
    split
    · split_ifs
      · exact hgoes
      · rfl
    · rfl
  exact .explore hfront hgoes hexecute hcover

theorem Iteration.of_waiting {g : Engine} {testing : Testing} {point : MergePoint}
    {c merged : Context} {cs : List Context} {versions : Versions} (hexplorer : g.explorer = [])
    (hmerger : g.merger = c :: cs)
    (hpoint : ∀ y ∈ c :: cs, Merger.mergePointOf y = some point)
    (hmerge : Merger.mergeAll simplifier g.versions c cs = .ok (versions, merged)) :
    Iteration p simplifier finder findApplicableSummaries (g, testing)
      ({ g with versions := versions, explorer := [merged], merger := [] }, testing) := by
  have hwaiting : g.waiting point = c :: cs := by
    unfold waiting
    rw [hmerger, List.filter_eq_self]
    exact fun y hy => decide_eq_true (hpoint y hy)
  have hrest : g.merger.filter (Merger.mergePointOf · ≠ some point) = [] := by
    rw [hmerger, List.filter_eq_nil_iff]
    intro y hy
    simp [hpoint y hy]
  have hfirst : ∀ y ∈ g.merger, ∀ point', Merger.mergePointOf y = some point' →
      Merger.before point' point = false := by
    intro y hy point' hpoint'
    rw [hpoint y (hmerger ▸ hy)] at hpoint'
    cases hpoint'
    simp [Merger.before]
  have h : Iteration p simplifier finder findApplicableSummaries (g, testing) _ :=
    .merge hexplorer hwaiting hfirst hmerge
  rwa [hrest] at h

end Engine

end Ahorn.Etfa

namespace Ahorn.GuardedChange

open Etfa Relation

noncomputable abbrev finder : ModelFinder String := .classical String

/-- The context that has taken the branch, behind it. -/
def assigned : Context :=
  ⟨0, ⟨vertexAt 3, valuations.emplace "P.x_1__0" ⟨.bool, constant "P.b_0__0"⟩,
    [.booleanValue true, constant "P.a_0__0"], versions.assign "P.x" 1⟩, [⟨old.main, "P", 0⟩]⟩

def waiting : Engine :=
  { versions := versions.assign "P.x" 1, merger := [skipping, assigned] }

def merged : Context :=
  ⟨0, ⟨vertexAt 3,
    (valuations.emplace "P.x_1__0" ⟨.bool, constant "P.b_0__0"⟩).emplace "P.x_2__0"
      ⟨.bool, .ite (.conjunction [.booleanValue true, .not (constant "P.a_0__0")])
        (constant "P.x_0__0") (constant "P.x_1__0")⟩,
    [.conjunction [.connective .or
      (.conjunction [.booleanValue true, .not (constant "P.a_0__0")])
      (.conjunction [.booleanValue true, constant "P.a_0__0"])]],
    versions.assign "P.x" 2⟩, [⟨old.main, "P", 0⟩]⟩

def handed : Context where
  cycle := 1
  state :=
    { vertex := vertexAt 0
      symbolicValuations :=
        ((merged.state.symbolicValuations.emplace "P.a_0__1" ⟨.bool, constant "P.a_0__1"⟩).emplace
          "P.b_0__1" ⟨.bool, constant "P.b_0__1"⟩).emplace "P.x_0__1"
            ⟨.bool, .ite (.conjunction [.booleanValue true, .not (constant "P.a_0__0")])
              (constant "P.x_0__0") (constant "P.x_1__0")⟩
      pathConstraint := []
      flattenedNameToVersion := versions }
  callStack := [⟨old.main, "P", 0⟩]

def handing : Engine := { versions := versions, succeedingCycle := some handed }

theorem increasing : old.Increasing := by
  have hedges : ∀ e ∈ old.main.edges, e.sourceLabel < e.targetLabel ∧
      e.type ≠ .interproceduralCall ∧ e.type ≠ .interproceduralReturn := by decide
  refine Program.increasing_of_edges hedges fun l v hv htype => ?_
  rcases mem_old hv with ⟨-, rfl⟩ | ⟨-, rfl⟩ | ⟨-, rfl⟩ | ⟨-, rfl⟩
  · cases htype
  · exact Option.some_ne_none _
  · exact Option.some_ne_none _
  · cases htype

theorem answersCalls : old.AnswersCalls noSummaries := by
  intro l v f t₁ t₂ hl hi
  rcases mem_old hl with ⟨-, rfl⟩ | ⟨-, rfl⟩ | ⟨-, rfl⟩ | ⟨-, rfl⟩ <;> cases hi

theorem running_branching : Engine.Running old (.identity _) finder noSummaries 5 blank
    (branching, ⟨begun, []⟩) := by
  have hbegins : Engine.isTerminationCriteriaMet 5 0 false blank = false := by decide +kernel
  have hgoes : Engine.isLocalTerminationCriteriaMet false blank = none := by decide +kernel
  have hinitial : Engine.initial old =
      .ok { versions := versions, explorer := [] ++ contextAt 0 [] :: [] } := rfl
  exact .iterate (.initial hinitial hbegins) (.of_front rfl hgoes rfl rfl rfl)

/-- All but the exit is covered, and then that as well. -/
def coveredUpTo (exit : Bool) : Coverage where
  coveredStatements := ⟨[(0, true), (1, true), (2, true), (3, exit)], by decide +revert⟩
  coveredBranches := ⟨[(1, true, true)], List.pairwise_singleton _ _⟩

/-- The two sides of the branch are merged at the exit, and the step hands over one context. -/
theorem branching_handsOver : ∃ testing,
    ReflTransGen (Engine.Iteration old (.identity _) finder noSummaries) (branching, ⟨begun, []⟩)
      (handing, testing) ∧
    Engine.Ends old (.identity _) finder noSummaries (handing, testing) (.ok (some handed, none)) ∧
    Engine.HandsOver old (Engine.executor old (.identity _) finder.solver noSummaries) branching
      handed := by
  obtain ⟨testCases, hcover⟩ := cover_branch
  have hbranch : Engine.Iteration old (.identity _) finder noSummaries (branching, ⟨begun, []⟩)
      ({ versions := versions, explorer := [taking], merger := [skipping] },
        ⟨covered true, testCases⟩) :=
    .of_front rfl (by decide +kernel) (execute_branch _) hcover rfl
  have hassign : Engine.Iteration old (.identity _) finder noSummaries
      ({ versions := versions, explorer := [taking], merger := [skipping] },
        ⟨covered true, testCases⟩) (waiting, ⟨coveredUpTo false, testCases⟩) :=
    .of_front rfl (by decide +kernel) rfl rfl rfl
  have hpoint : ∀ c ∈ [skipping, assigned],
      Merger.mergePointOf c = some (Engine.exitPoint old) := by
    intro c hc
    simp only [List.mem_cons, List.not_mem_nil, or_false] at hc
    rcases hc with rfl | rfl <;> rfl
  have hmerge : Engine.Iteration old (.identity _) finder noSummaries
      (waiting, ⟨coveredUpTo false, testCases⟩)
      ({ versions := versions.assign "P.x" 2, explorer := [merged] },
        ⟨coveredUpTo false, testCases⟩) := .of_waiting rfl rfl hpoint rfl
  have hexit : Engine.Iteration old (.identity _) finder noSummaries
      ({ versions := versions.assign "P.x" 2, explorer := [merged] },
        ⟨coveredUpTo false, testCases⟩) (handing, ⟨coveredUpTo true, testCases⟩) :=
    .of_front rfl (by decide +kernel) rfl rfl rfl
  have hrun := (((ReflTransGen.single hbranch).tail hassign).tail hmerge).tail hexit
  have hends : Engine.Ends old (.identity _) finder noSummaries
      (handing, ⟨coveredUpTo true, testCases⟩) (.ok (some handed, none)) := .returned rfl rfl
  obtain ⟨-, -, hstep⟩ := Engine.Running.step_handsOver old_wellFormed increasing answersCalls
    findsFitting running_branching
  obtain ⟨-, -, c', hc', hover⟩ := (hstep _ hrun).2.1 _ hends
  cases hc'
  exact ⟨_, hrun, hends, hover⟩

end Ahorn.GuardedChange

namespace Ahorn.Etfa

namespace LatchedInput

theorem increasing : program.Increasing := by
  have hedges : ∀ e ∈ main.edges, e.sourceLabel < e.targetLabel ∧
      e.type ≠ .interproceduralCall ∧ e.type ≠ .interproceduralReturn := by decide
  refine Program.increasing_of_edges hedges fun l v hv htype => ?_
  rcases mem_main hv with ⟨-, rfl⟩ | ⟨-, rfl⟩ | ⟨-, rfl⟩ | ⟨-, rfl⟩
  · cases htype
  · exact Option.some_ne_none _
  · exact Option.some_ne_none _
  · cases htype

theorem answersCalls : program.AnswersCalls noSummaries := by
  intro l v f t₁ t₂ hl hi
  rcases mem_main hl with ⟨-, rfl⟩ | ⟨-, rfl⟩ | ⟨-, rfl⟩ | ⟨-, rfl⟩ <;> cases hi

/-- What is covered: the vertices, and both sides of the branch. -/
def coverageAt (s₀ s₁ s₂ s₃ t f : Bool) : Coverage where
  coveredStatements := ⟨[(0, s₀), (1, s₁), (2, s₂), (3, s₃)], by decide +revert⟩
  coveredBranches := ⟨[(1, t, f)], List.pairwise_singleton _ _⟩

def blank : Coverage := coverageAt false false false false false false

noncomputable abbrev finder : ModelFinder String := .classical String

noncomputable abbrev executor : Executor :=
  Engine.executor program (.identity _) finder.solver noSummaries

/-- The run up to a state, in which the solver is asked for test cases. -/
abbrev RunsTested (s : Engine × Testing) : Prop :=
  Engine.Running program (.identity _) finder noSummaries 5 blank s

/-- The solver knows a test case for a context an execution leads to. -/
theorem exists_testCase {s : Engine × Testing} {c c' : Context} {versions : Versions}
    {successors : Executor.Successors} (hs : RunsTested s) (hc : c ∈ s.1.explorer)
    (hregular : c.state.vertex.type = .regular)
    (hexecute : executor.execute s.1.versions c = .ok (versions, successors))
    (hc' : c' ∈ successors.contexts ++ successors.forked.toList)
    (hstack : c'.callStack = [program.frame])
    (hinitial : c'.definitions "P.a_0__0" = some ⟨.bool, constant "P.a_0__0"⟩ ∧
      c'.definitions "P.x_0__0" = some ⟨.bool, .booleanValue false⟩)
    (hinputs : ∀ k ≤ c'.cycle, c'.definitions (contextualized "P.a" 0 k) =
      some ⟨.bool, constant (contextualized "P.a" 0 k)⟩)
    (hM : ∃ M : Model String, ∀ t ∈ c'.expressions, t.Holds M) (testCases : List TestCase) :
    ∃ testCases', TestSuite.deriveTestCase finder testCases c' = .ok testCases' := by
  obtain ⟨hinvariant, hplaced⟩ := (hs.reachable.invariant wellFormed findsFitting).explorer c hc
  have hinvariant' : ∃ versions k, c'.Invariant program versions k := by
    rcases Executor.execute_invariant wellFormed findsFitting hinvariant hplaced hexecute with
      ⟨-, hcs⟩ | ⟨hexit, -⟩
    · exact ⟨_, _, hcs c' hc'⟩
    · have htype := hexit.2
      rw [hregular] at htype
      cases htype
  obtain ⟨versions', k, hinvariant'⟩ := hinvariant'
  have hopens : c'.Opens program := by
    constructor
    · intro y v e hy he
      have hy : (y, v) ∈ [("P.a", a), ("P.x", x)] := hy
      simp only [List.mem_cons, Prod.mk.injEq, List.not_mem_nil, or_false] at hy
      rcases hy with ⟨rfl, rfl⟩ | ⟨rfl, rfl⟩
      · cases he
        exact hinitial.1
      · cases he
        exact hinitial.2
    · intro k hk y hy sort hsort
      cases List.mem_singleton.mp (show y ∈ ["P.a"] from hy)
      cases hsort
      exact hinputs k hk
  obtain ⟨M, hM⟩ := hM
  obtain ⟨found, hm⟩ := finder.exists_of_holds hM
  have hinterprets : InterpretsInputs program c'.cycle found := by
    intro k hk y hy
    cases List.mem_singleton.mp (show y ∈ ["P.a"] from hy)
    have hmem : Term.eq (constant (contextualized "P.a" 0 k)) (constant (contextualized "P.a" 0 k)) ∈
        c'.expressions := List.mem_append_right _ (List.mem_map_of_mem (f := Executor.equation)
      ((OrderedMap.find?_eq_some_iff _ _ _).mp (hinputs k hk)))
    exact ModelFinder.classical_interprets hm hmem (q := (.bool, contextualized "P.a" 0 k))
      List.mem_cons_self
  obtain ⟨t, -, ht, -⟩ := TestSuite.testCaseOf_spec wellFormed.toWellSorted hinvariant' hopens
    (hstack ▸ Program.Stack.main) hm hinterprets
  unfold TestSuite.deriveTestCase
  rw [ht]
  exact ⟨_, rfl⟩

theorem coverSucceeding_deriving {l : ℤ} {c : Context} {coverage coverage' : Coverage}
    {testCases testCases' : List TestCase} {frame : Frame} {statement : Bool}
    (hframe : c.getFrame = .ok frame)
    (hupdate : coverage.update frame.cfg.toCfg l c.state.vertex.label =
      .ok (coverage', statement, true))
    (hderive : TestSuite.deriveTestCase finder testCases c = .ok testCases') :
    Testing.coverSucceeding finder l c ⟨coverage, testCases⟩ = .ok ⟨coverage', testCases'⟩ := by
  unfold Testing.coverSucceeding
  simp only [hframe, hupdate, hderive, bind, Except.bind, if_true]

def entering : Engine := { versions := versionsAt 0, explorer := [first 0] }

def branching : Engine := { versions := versionsAt 0, explorer := [first 1] }

def assigning : Engine := { versions := versionsAt 0, explorer := [taking] }

def waiting : Engine := { versions := versionsAt 1, merger := [leaving] }

def merged : Engine := { versions := versionsAt 1, explorer := [leaving] }

def handing : Engine := { versions := versionsAt 0, succeedingCycle := some (second 0) }

def reentering : Engine := { cycle := 1, versions := versionsAt 0, explorer := [second 0] }

/-- The engine in the second cycle, behind the branch. -/
def forked : Engine :=
  { cycle := 1, versions := versionsAt 0, explorer := [retaking], merger := [skipping] }

theorem runs_forked :
    ∃ testCases, RunsTested (forked, ⟨coverageAt true true true true true true, testCases⟩) := by
  have hbegins : Engine.isTerminationCriteriaMet 5 0 false blank = false := by decide +kernel
  have h₀ : RunsTested (entering, ⟨blank, []⟩) := .initial rfl hbegins
  have h₁ : RunsTested (branching, ⟨coverageAt true false false false false false, []⟩) :=
    h₀.iterate (.of_front rfl (by decide +kernel) rfl rfl rfl)
  obtain ⟨ts, hts⟩ := exists_testCase h₁ List.mem_cons_self rfl (execute_first _) List.mem_cons_self rfl
    ⟨rfl, rfl⟩ (fun k hk => by cases Nat.le_zero.mp hk; rfl)
    ⟨PartialModel.complete [], by decide +kernel⟩ []
  have hcover : Testing.cover finder executor (versionsAt 0) (first 1) ⟨[taking], none⟩
      ⟨coverageAt true false false false false false, []⟩ =
        .ok ⟨coverageAt true true false false true false, ts⟩ := by
    have htaking : Testing.coverSucceeding finder 1 taking
        ⟨coverageAt true false false false false false, []⟩ =
          .ok ⟨coverageAt true true false false true false, ts⟩ :=
      coverSucceeding_deriving rfl rfl hts
    have h : (Testing.coverSucceeding finder 1 taking
        ⟨coverageAt true false false false false false, []⟩ >>= Except.ok) =
          .ok (⟨coverageAt true true false false true false, ts⟩ : Testing) := by
      rw [htaking]
      rfl
    exact h
  have h₂ : RunsTested (assigning, ⟨coverageAt true true false false true false, ts⟩) :=
    h₁.iterate (.of_front rfl (by decide +kernel) (execute_first _) hcover rfl)
  have h₃ : RunsTested (waiting, ⟨coverageAt true true true false true false, ts⟩) :=
    h₂.iterate (.of_front rfl (by decide +kernel) rfl rfl rfl)
  have hpoint : ∀ y ∈ [leaving], Merger.mergePointOf y = some (Engine.exitPoint program) := by
    intro y hy
    cases List.mem_singleton.mp hy
    rfl
  have h₄ : RunsTested (merged, ⟨coverageAt true true true false true false, ts⟩) :=
    h₃.iterate (.of_waiting rfl rfl hpoint rfl)
  have h₅ : RunsTested (handing, ⟨coverageAt true true true true true false, ts⟩) :=
    h₄.iterate (.of_front rfl (by decide +kernel) rfl rfl rfl)
  have hgoes : Engine.isTerminationCriteriaMet 5 1 false
      (coverageAt true true true true true false) = false := by decide +kernel
  have h₆ : RunsTested (reentering, ⟨coverageAt true true true true true false, ts⟩) :=
    .nextCycle h₅ rfl rfl rfl hgoes
  have h₇ : RunsTested (rebranching, ⟨coverageAt true true true true true false, ts⟩) :=
    h₆.iterate (.of_front rfl (by decide +kernel) rfl rfl rfl)
  -- the other side is covered by the context that is forked off
  obtain ⟨ts', hts'⟩ := @exists_testCase _ _ skipping _ _ h₇ List.mem_cons_self rfl
    (execute_second _)
    (List.mem_append_right _ List.mem_cons_self) rfl ⟨rfl, rfl⟩ (fun k hk => by
      rcases Nat.le_one_iff_eq_zero_or_eq_one.mp hk with rfl | rfl <;> rfl)
    ⟨model true, by decide +kernel⟩ ts
  have hcover' : Testing.cover finder executor (versionsAt 0) (second 1)
      ⟨[retaking], some skipping⟩ ⟨coverageAt true true true true true false, ts⟩ =
        .ok ⟨coverageAt true true true true true true, ts'⟩ := by
    have hskipping : Testing.coverSucceeding finder 1 skipping
        ⟨coverageAt true true true true true false, ts⟩ =
          .ok ⟨coverageAt true true true true true true, ts'⟩ :=
      coverSucceeding_deriving rfl rfl hts'
    have h : (Testing.coverSucceeding finder 1 skipping
        ⟨coverageAt true true true true true false, ts⟩ >>= Except.ok) =
          .ok (⟨coverageAt true true true true true true, ts'⟩ : Testing) := by
      rw [hskipping]
      rfl
    exact h
  exact ⟨ts', h₇.iterate (.of_front rfl (by decide +kernel) (execute_second _) hcover' rfl)⟩

end LatchedInput

open LatchedInput in
/-- Once both sides of the branch are covered, the next context that is taken is destroyed, and the
step hands nothing over, though another context waits at the exit. -/
theorem exists_step_without_context :
    program.WellFormed ∧ program.Increasing ∧ program.AnswersCalls noSummaries ∧
      program.FindsFitting noSummaries ∧ ∃ testCases,
      Engine.Running program (.identity _) finder noSummaries 5 blank
        (forked, ⟨coverageAt true true true true true true, testCases⟩) ∧
      forked.live = [retaking, skipping] ∧
      Engine.Ends program (.identity _) finder noSummaries
        (forked, ⟨coverageAt true true true true true true, testCases⟩)
        (.ok (none, some .coverage)) := by
  obtain ⟨testCases, hruns⟩ := runs_forked
  have hfront : forked.explorer = [] ++ retaking :: [] := rfl
  have hcriteria : Engine.terminates false (coverageAt true true true true true true) retaking =
      some .coverage := by decide +kernel
  exact ⟨wellFormed, increasing, answersCalls, findsFitting, testCases, hruns, rfl,
    .terminated hfront hcriteria⟩

end Ahorn.Etfa
