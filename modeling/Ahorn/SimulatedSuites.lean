import Ahorn.EtfaTestedRuns

set_option autoImplicit false

/-!
# Suites that are simulated

The suite of the engine is handed on to the simulator, which follows the program by its own evaluator.
What the engine has covered of a version, the simulation of its suite covers again.
-/
namespace Ahorn.AnnotatedProgram

open Etfa

variable (p : AnnotatedProgram) (mode : Simulator.ShadowProcessingMode)

end Ahorn.AnnotatedProgram

namespace Ahorn.GuardedChange

open Etfa

def old : Program := program.version .old

def constant (n : String) : Term String .bool := .constant .bool n

def valuations : OrderedMap String (SortedTerm String) :=
  ⟨[("P.a_0__0", ⟨.bool, constant "P.a_0__0"⟩), ("P.b_0__0", ⟨.bool, constant "P.b_0__0"⟩),
    ("P.x_0__0", ⟨.bool, .booleanValue false⟩)], by decide⟩

def versions : Versions := .emplaceAll .empty [("P.a", 0), ("P.b", 0), ("P.x", 0)]

def vertexAt (l : ℤ) : Vertex := (old.main.labelToVertex.find? l).getD ⟨3, .exit, none⟩

def contextAt (l : ℤ) (pathConstraint : List (Term String .bool)) : Context :=
  ⟨0, ⟨vertexAt l, valuations, .booleanValue true :: pathConstraint, versions⟩,
    [⟨old.main, "P", 0⟩]⟩

def taking : Context := contextAt 2 [constant "P.a_0__0"]

def skipping : Context := contextAt 3 [.not (constant "P.a_0__0")]

def noSummaries : Context → Except String (List Summary) := fun _ => .ok []

def model (names : List String) : Model String
  | .bool, n => decide (n ∈ names)
  | .int, _ => (0 : ℤ)

theorem execute_branch (solver : Solver String) :
    (Engine.executor old (.identity _) solver noSummaries).execute versions (contextAt 1 []) =
      .ok (versions, ⟨[taking], some skipping⟩) := by
  have h := Executor.visitIf_fork (Engine.executor old (.identity _) solver noSummaries)
    ⟨old.main, "P", 0⟩ (read a) (contextAt 1 []) (constant "P.a_0__0") (.not (constant "P.a_0__0"))
    rfl rfl rfl rfl rfl rfl ⟨model ["P.a_0__0"], by decide +kernel⟩ ⟨model [], by decide +kernel⟩
  exact congrArg (fun r => r >>= fun s => Except.ok (versions, s)) h

theorem mem_old {l : ℤ} {v : Vertex} (h : old.main.labelToVertex.find? l = some v) :
    (l = 0 ∧ v = ⟨0, .entry, none⟩) ∨
    (l = 1 ∧ v = ⟨1, .regular, some (.ifInstruction (read a) 2 3)⟩) ∨
    (l = 2 ∧ v = ⟨2, .regular, some (.assignmentInstruction .regular (.variableAccess x) (read b))⟩) ∨
    (l = 3 ∧ v = ⟨3, .exit, none⟩) := by
  have hmem : (l, v) ∈ [(0, (⟨0, .entry, none⟩ : Vertex)),
      (1, ⟨1, .regular, some (.ifInstruction (read a) 2 3)⟩),
      (2, ⟨2, .regular, some (.assignmentInstruction .regular (.variableAccess x) (read b))⟩),
      (3, ⟨3, .exit, none⟩)] := (OrderedMap.find?_eq_some_iff _ _ _).mp h
  simpa only [List.mem_cons, Prod.mk.injEq, List.not_mem_nil, or_false] using hmem

theorem eq_main {scope : String} {cfg : UnitCfg} (h : old.Instance scope cfg) :
    scope = "P" ∧ cfg = old.main := by
  induction h with
  | main => exact ⟨rfl, rfl⟩
  | called _ hl hi _ _ ih =>
    obtain ⟨-, rfl⟩ := ih
    rcases mem_old hl with ⟨-, rfl⟩ | ⟨-, rfl⟩ | ⟨-, rfl⟩ | ⟨-, rfl⟩ <;> cases hi

theorem old_wellFormed : old.WellFormed where
  type := rfl
  sorted := by
    intro scope cfg h l v i hl hi
    obtain ⟨rfl, rfl⟩ := eq_main h
    have hresolves : ∀ w ∈ [a, b, x], old.Resolves "P" (.variableAccess w) := by
      intro w hw
      simp only [List.mem_cons, List.not_mem_nil, or_false] at hw
      rcases hw with rfl | rfl | rfl <;> exact ⟨.bool, rfl, rfl⟩
    rcases mem_old hl with ⟨-, rfl⟩ | ⟨-, rfl⟩ | ⟨-, rfl⟩ | ⟨-, rfl⟩ <;> cases hi
    · exact fun q hq => List.mem_singleton.mp hq ▸ hresolves a (by simp)
    · exact ⟨fun q hq => List.mem_singleton.mp hq ▸ hresolves b (by simp), rfl⟩
  encodable := by
    intro n v hn
    have hmem : (n, v) ∈ [("P.a", a), ("P.b", b), ("P.x", x)] :=
      (OrderedMap.find?_eq_some_iff _ _ _).mp hn
    simp only [List.mem_cons, Prod.mk.injEq, List.not_mem_nil, or_false] at hmem
    rcases hmem with ⟨-, rfl⟩ | ⟨-, rfl⟩ | ⟨-, rfl⟩ <;> exact ⟨.bool, rfl, fun _ h => by cases h⟩
  labels := by
    intro l v hl
    rcases mem_old hl with ⟨rfl, rfl⟩ | ⟨rfl, rfl⟩ | ⟨rfl, rfl⟩ | ⟨rfl, rfl⟩
    · exact ⟨rfl, fun h => by cases h⟩
    · exact ⟨rfl, fun h => by cases h⟩
    · exact ⟨rfl, fun h => by cases h⟩
    · exact ⟨rfl, fun _ => rfl⟩
  exitLast := by
    intro l v hl _
    change l ≤ 3
    rcases mem_old hl with ⟨rfl, -⟩ | ⟨rfl, -⟩ | ⟨rfl, -⟩ | ⟨rfl, -⟩ <;> decide

theorem findsFitting : old.FindsFitting noSummaries := by
  intro c summaries h s hs
  cases h
  cases hs

theorem keepsTests {c : Context} {l : ℤ} (hc : old.main.labelToVertex.find? l = some c.state.vertex) :
    KeepsTests old noSummaries c where
  additions _ _ he := by
    rcases mem_old hc with ⟨-, h⟩ | ⟨-, h⟩ | ⟨-, h⟩ | ⟨-, h⟩ <;> rw [h] at he <;> cases he <;> rfl
  sides := by
    intro scope cfg hinstance edge hedge taken hside
    obtain ⟨-, rfl⟩ := eq_main hinstance
    have hsides : ∀ e ∈ main.edges, ∀ taken : Bool,
        (e.type = if taken then .trueBranch else .falseBranch) →
          e.sourceLabel = 1 ∧ e.targetLabel = if taken then 2 else 3 := by decide
    obtain ⟨hedge, hsource⟩ := List.mem_filter.mp hedge
    obtain ⟨hone, htarget⟩ := hsides edge hedge taken hside
    have hlabel : c.state.vertex.label = 1 := (of_decide_eq_true hsource).symm.trans hone
    refine ⟨?_, ?_, fun v hv => (old_wellFormed.labels hv).1, ?_⟩
    · rcases mem_old hc with ⟨-, h⟩ | ⟨-, h⟩ | ⟨-, h⟩ | ⟨-, h⟩ <;> rw [h] at hlabel ⊢
        <;> cases hlabel
    · rcases mem_old hc with ⟨-, h⟩ | ⟨-, h⟩ | ⟨-, h⟩ | ⟨-, h⟩ <;> rw [h] at hlabel ⊢ <;> cases hlabel
      exact ⟨_, _, _, rfl⟩
    · intro edge' hedge' taken' hside' hsame
      obtain ⟨hedge', -⟩ := List.mem_filter.mp hedge'
      obtain ⟨-, htarget'⟩ := hsides edge' hedge' taken' hside'
      rw [htarget, htarget'] at hsame
      cases taken <;> cases taken' <;> first | rfl | cases hsame
  summaries _ _ hfind := by
    cases hfind
    exact ⟨fun before summary after h => by simp at h, fun h => absurd rfl h⟩
  returns _ _ hfind := by
    cases hfind
    exact fun before summary after h => by simp at h

def blank : Coverage where
  coveredStatements := ⟨[(0, false), (1, false), (2, false), (3, false)], by decide⟩
  coveredBranches := ⟨[(1, false, false)], by decide⟩

def branching : Engine := { versions := versions, explorer := [] ++ contextAt 1 [] :: [] }

def begun : Coverage where
  coveredStatements := ⟨[(0, true), (1, false), (2, false), (3, false)], by decide⟩
  coveredBranches := ⟨[(1, false, false)], by decide⟩

theorem testedUnder_branching (finder : ModelFinder String) :
    Engine.TestedUnder old (.identity _) finder noSummaries (KeepsTests old noSummaries)
      (Merger.KeepsConstraints (.identity _)) blank branching ⟨begun, []⟩ := by
  have hinitial : Engine.initial old =
      .ok { versions := versions, explorer := [] ++ contextAt 0 [] :: [] } := rfl
  have hexecute : (Engine.executor old (.identity _) finder.solver noSummaries).execute versions
      (contextAt 0 []) = .ok (versions, ⟨[contextAt 1 []], none⟩) := rfl
  have hkeeps : KeepsTests old noSummaries (contextAt 0 []) := @keepsTests _ 0 rfl
  have hcover : Testing.cover finder (Engine.executor old (.identity _) finder.solver noSummaries)
      versions (contextAt 0 []) ⟨[contextAt 1 []], none⟩ ⟨blank, []⟩ = .ok ⟨begun, []⟩ := rfl
  exact .explore (.initial hinitial) rfl hkeeps hexecute hcover

def covered (b : Bool) : Coverage where
  coveredStatements := ⟨[(0, true), (1, true), (2, false), (3, false)], by decide⟩
  coveredBranches := ⟨[(1, true, b)], List.pairwise_singleton _ _⟩

theorem exists_testCase {c : Context} (hc : c = taking ∨ c = skipping) (testCases : List TestCase) :
    ∃ testCases', TestSuite.deriveTestCase (.classical String) testCases c = .ok testCases' := by
  have hreachable := (testedUnder_branching (.classical String)).reachableUnder
    fun _ (h : KeepsTests old noSummaries _) => h.toKeepsReplays
  obtain ⟨-, hcs⟩ | ⟨-, x, hx, -⟩ := (hreachable.replayed old_wellFormed findsFitting).executed
    old_wellFormed findsFitting rfl rfl (@keepsTests _ 1 rfl).toKeepsReplays
    (execute_branch (ModelFinder.classical String).solver)
  · have hreplayable := hcs c (by rcases hc with rfl | rfl <;> simp)
    have hstack : old.Stack c.callStack := by
      rcases hc with rfl | rfl <;> exact .main
    obtain ⟨M, hM⟩ := hreplayable.feasible
    obtain ⟨model, hm⟩ := (ModelFinder.classical String).exists_of_holds hM
    have hinterprets : InterpretsInputs old c.cycle model := by
      intro k hk x hx
      have hzero : k = 0 := by
        rcases hc with rfl | rfl <;> exact Nat.le_zero.mp hk
      subst hzero
      have hread : ∀ x ∈ old.wholeProgramInputs, ∃ u ∈ c.expressions,
          (SmtSort.bool, contextualized x 0 0) ∈ u.occurrences := by
        rcases hc with rfl | rfl <;> decide +kernel
      obtain ⟨u, hu, hq⟩ := hread x hx
      exact ModelFinder.classical_interprets hm hu hq
    obtain ⟨t, -, ht, -⟩ := TestSuite.testCaseOf_spec old_wellFormed.toWellSorted
      hreplayable.invariant hreplayable.opens hstack hm hinterprets
    unfold TestSuite.deriveTestCase
    rw [ht]
    exact ⟨_, rfl⟩
  · cases hx

theorem cover_branch : ∃ testCases, Testing.cover (.classical String) (Engine.executor old
    (.identity _) (ModelFinder.classical String).solver noSummaries) versions (contextAt 1 [])
      ⟨[taking], some skipping⟩ ⟨begun, []⟩ = .ok ⟨covered true, testCases⟩ := by
  obtain ⟨ts, hts⟩ := @exists_testCase taking (Or.inl rfl) []
  obtain ⟨ts', hts'⟩ := @exists_testCase skipping (Or.inr rfl) ts
  refine ⟨ts', ?_⟩
  have htaking : Testing.coverSucceeding (.classical String) 1 taking ⟨begun, []⟩ =
      .ok ⟨covered false, ts⟩ := by
    have h : (TestSuite.deriveTestCase (.classical String) [] taking >>= fun testCases =>
        Except.ok ⟨covered false, testCases⟩) = Except.ok (⟨covered false, ts⟩ : Testing) := by
      rw [hts]
      rfl
    exact h
  have hskipping : Testing.coverSucceeding (.classical String) 1 skipping ⟨covered false, ts⟩ =
      .ok ⟨covered true, ts'⟩ := by
    have h : (TestSuite.deriveTestCase (.classical String) ts skipping >>= fun testCases =>
        Except.ok ⟨covered true, testCases⟩) = Except.ok (⟨covered true, ts'⟩ : Testing) := by
      rw [hts']
      rfl
    exact h
  have hboth : (do
      let testing ← Testing.coverSucceeding (.classical String) 1 taking ⟨begun, []⟩
      let testing ← Testing.coverSucceeding (.classical String) 1 skipping testing
      .ok testing) = (.ok ⟨covered true, ts'⟩ : Except String Testing) := by
    rw [htaking]
    dsimp only [bind, Except.bind]
    rw [hskipping]
  exact hboth

end Ahorn.GuardedChange
