import Mathlib.Algebra.BigOperators.Group.List.Basic
import Mathlib.Data.Fintype.Prod
import Ahorn.SimulatedTestCases

set_option autoImplicit false

/-!
# Runs that are tested

The engine covers the step to every context an execution leads to and derives a test case where the
share of the covered branches has grown. Whatever is covered in the end is taken by a test case of
the suite.
-/
namespace Ahorn.Etfa

namespace Coverage

def sidesCovered (entries : List (ℤ × Bool × Bool)) : ℕ :=
  (entries.map fun e => e.2.1.toNat + e.2.2.toNat).sum

theorem sidesCovered_place {entries : List (ℤ × Bool × Bool)} {label : ℤ} {sides : Bool × Bool}
    (sides' : Bool × Bool)
    (hsorted : entries.Pairwise fun e e' => e.1 < e'.1)
    (h : OrderedMap.lookup label entries = some sides) :
    sidesCovered (OrderedMap.place true label sides' entries) + (sides.1.toNat + sides.2.toNat) =
      sidesCovered entries + (sides'.1.toNat + sides'.2.toNat) := by
  induction entries with
  | nil => cases h
  | cons e entries ih =>
    obtain ⟨hhead, hsorted⟩ := List.pairwise_cons.mp hsorted
    unfold OrderedMap.lookup at h
    unfold OrderedMap.place
    by_cases hlabel : label = e.1
    · rw [if_pos hlabel] at h
      cases h
      rw [if_neg (hlabel ▸ lt_irrefl e.1), if_pos hlabel, if_pos rfl]
      unfold sidesCovered
      rw [List.map_cons, List.sum_cons, List.map_cons, List.sum_cons]
      dsimp only
      omega
    · rw [if_neg hlabel] at h
      have hlt : ¬label < e.1 := by
        intro hlt
        rw [OrderedMap.lookup_eq_none_of_lt fun x hx => lt_trans hlt (hhead x hx)] at h
        cases h
      rw [if_neg hlt, if_neg hlabel]
      have hrest := ih hsorted h
      unfold sidesCovered at hrest ⊢
      rw [List.map_cons, List.sum_cons, List.map_cons, List.sum_cons]
      dsimp only
      omega

theorem sides_le : ∀ s s' : Bool × Bool,
    (∀ side : Bool, (if side then s.1 else s.2) = true → (if side then s'.1 else s'.2) = true) →
    s.1.toNat + s.2.toNat ≤ s'.1.toNat + s'.2.toNat ∧
    ∀ taken : Bool, (if taken then s'.1 else s'.2) = true → ¬(if taken then s.1 else s.2) = true →
      s.1.toNat + s.2.toNat < s'.1.toNat + s'.2.toNat := by decide

variable {label succeedingLabel l : ℤ} {edges : List Edge} {taken : Bool}
  {statements : OrderedMap ℤ Bool} {branches branches' : OrderedMap ℤ (Bool × Bool)}
  {coverage coverage' : Coverage}

/-- One side of the branch is covered. -/
def withSide (type : EdgeType) (sides : Bool × Bool) : Bool × Bool :=
  if type = .trueBranch then (true, sides.2) else (sides.1, true)

theorem withSide_keeps (type : EdgeType) (sides : Bool × Bool) (side : Bool)
    (h : (if side then sides.1 else sides.2) = true) :
    (if side then (withSide type sides).1 else (withSide type sides).2) = true := by
  unfold withSide
  by_cases htype : type = .trueBranch
  · rw [if_pos htype]
    cases side with
    | true => rfl
    | false => exact h
  · rw [if_neg htype]
    cases side with
    | true => exact h
    | false => rfl

variable (statements) in
theorem withSide_count (type : EdgeType) {sides : Bool × Bool}
    (hsides : branches.find? label = some sides) :
    sidesCovered branches.entries ≤
      sidesCovered (branches.assign label (withSide type sides)).entries ∧
    ((⟨statements, branches.assign label (withSide type sides)⟩ : Coverage).Covers l taken →
      ¬(⟨statements, branches⟩ : Coverage).Covers l taken →
        sidesCovered branches.entries <
          sidesCovered (branches.assign label (withSide type sides)).entries) := by
  have hcount := sidesCovered_place (withSide type sides) branches.sorted hsides
  obtain ⟨hle, hlt⟩ := sides_le _ _ (withSide_keeps type sides)
  change _ ≤ sidesCovered (OrderedMap.place true label _ branches.entries) ∧
    (_ → _ → _ < sidesCovered (OrderedMap.place true label _ branches.entries))
  refine ⟨by omega, fun hnew hold => ?_⟩
  obtain ⟨sides', hfind, hset⟩ := hnew
  dsimp only at hfind
  rw [OrderedMap.find?_assign] at hfind
  by_cases hl : l = label
  · rw [if_pos hl] at hfind
    cases hfind
    have hmore := hlt taken hset fun hset' => hold ⟨sides, hl ▸ hsides, hset'⟩
    omega
  · rw [if_neg hl] at hfind
    exact absurd ⟨sides', hfind, hset⟩ hold

/-- The count never falls, and it grows where a side is covered that has not been. -/
theorem coverEdges_count (h : coverEdges label succeedingLabel edges branches = .ok branches') :
    sidesCovered branches.entries ≤ sidesCovered branches'.entries ∧
    ((⟨statements, branches'⟩ : Coverage).Covers l taken →
      ¬(⟨statements, branches⟩ : Coverage).Covers l taken →
        sidesCovered branches.entries < sidesCovered branches'.entries) := by
  induction edges generalizing branches with
  | nil =>
    cases h
    exact ⟨le_rfl, fun hnew hold => absurd hnew hold⟩
  | cons edge edges ih =>
    unfold coverEdges at h
    by_cases hcover : edge.targetLabel = succeedingLabel ∧
        (edge.type = .trueBranch ∨ edge.type = .falseBranch)
    · rw [if_pos hcover] at h
      cases hsides : branches.find? label with
      | none =>
        rw [hsides] at h
        cases h
      | some sides =>
        rw [hsides] at h
        change coverEdges label succeedingLabel edges
          (branches.assign label (withSide edge.type sides)) = .ok branches' at h
        obtain ⟨hle, hlt⟩ := ih h
        obtain ⟨hle', hlt'⟩ := withSide_count statements edge.type hsides
        refine ⟨hle'.trans hle, fun hnew hold => ?_⟩
        by_cases hassigned : (⟨statements, branches.assign label (withSide edge.type sides)⟩ :
            Coverage).Covers l taken
        · exact (hlt' hassigned hold).trans_le hle
        · exact hle'.trans_lt (hlt hnew hassigned)
    · rw [if_neg hcover] at h
      exact ih h

theorem update_increased {cfg : Cfg} {statement increased : Bool}
    (h : update cfg label succeedingLabel coverage = .ok (coverage', statement, increased))
    (hnew : coverage'.Covers l taken) (hold : ¬coverage.Covers l taken) : increased = true := by
  unfold update at h
  cases hstatement : coverage.coveredStatements.find? label with
  | none =>
    rw [hstatement] at h
    cases h
  | some _ =>
    rw [hstatement] at h
    obtain ⟨branches, hbranches, h⟩ := bind_eq_ok h
    cases h
    obtain ⟨statements, branches₀⟩ := coverage
    have hgrown := (@coverEdges_count _ _ l _ taken statements _ _ hbranches).2
    exact decide_eq_true (hgrown hnew hold)

end Coverage

namespace Testing

/-- What the executor does with the contexts the summaries are applied to. -/
def coverSummaries (finder : ModelFinder String) (callee : UnitCfg) (returnLabel : ℤ)
    (inside : Context) : List Summary → Versions → ℤ × Testing → Except String (ℤ × Testing)
  | [], _, r => .ok r
  | summary :: summaries, versions, r => do
    let (versions, c) ← Executor.applySummary summary versions inside
    let r ← coverSummarized finder callee returnLabel c summary.assumptionLiterals r
    coverSummaries finder callee returnLabel inside summaries versions r

def coverCall (finder : ModelFinder String) (ex : Executor) (versions : Versions) (frame : Frame)
    (called : Variable) (c : Context) (testing : Testing) : Except String Testing := do
  let intraproceduralEdge ← frame.cfg.getIntraproceduralCallToReturnEdge c.state.vertex.label
  match called.dataType with
  | .derivedType typeName =>
    match ex.getCfg typeName with
    | none => .error ("No type representative cfg for " ++ typeName ++ " exists.")
    | some callee =>
      let inside := Executor.inside frame called callee intraproceduralEdge.targetLabel c
      let summaries ← ex.findApplicableSummaries inside
      let (_, testing) ← coverSummaries finder callee intraproceduralEdge.targetLabel inside
        summaries versions (c.state.vertex.label, testing)
      .ok testing
  | _ => .error "assertion failed"

/-- What is covered while a context is executed: something at a call only. -/
def coverExecuted (finder : ModelFinder String) (ex : Executor) (versions : Versions) (c : Context)
    (testing : Testing) : Except String Testing :=
  match c.state.vertex.type, c.state.vertex.instruction with
  | .regular, some (.callInstruction called _ _) => do
    let frame ← c.getFrame
    coverCall finder ex versions frame called c testing
  | _, _ => .ok testing

/-- What is covered when a context is executed, there and behind it. -/
def cover (finder : ModelFinder String) (ex : Executor) (versions : Versions) (c : Context)
    (successors : Executor.Successors) (testing : Testing) : Except String Testing := do
  let testing ← coverExecuted finder ex versions c testing
  (successors.contexts ++ successors.forked.toList).foldlM
    (fun testing c' => coverSucceeding finder c.state.vertex.label c' testing) testing

end Testing

namespace TestSuite

variable {c : Context} {finder : ModelFinder String} {p : Program} {t : TestCase}

theorem mem_keys_inputValues {valuations : OrderedMap String Value} {names : List String}
    {cycles : List ℕ} {r : OrderedMap ℕ (OrderedMap String Value)}
    (h : inputValues valuations names cycles = .ok r) (k : ℕ) : k ∈ r.keys ↔ k ∈ cycles := by
  induction cycles generalizing r with
  | nil =>
    cases h
    exact Iff.rfl
  | cons cycle cycles ih =>
    obtain ⟨values, -, h⟩ := bind_eq_ok h
    obtain ⟨rest, hrest, h⟩ := bind_eq_ok h
    cases h
    rw [List.mem_cons, ← ih hrest, OrderedMap.mem_keys_iff, OrderedMap.mem_keys_iff,
      OrderedMap.find?_emplace]
    by_cases hk : k = cycle
    · rw [if_pos hk]
      refine ⟨fun _ => Or.inl hk, fun _ => ?_⟩
      cases rest.find? cycle with
      | none => exact ⟨values, rfl⟩
      | some values' => exact ⟨values', rfl⟩
    · rw [if_neg hk, or_iff_right hk]

theorem testCaseOf_fits (hstack : p.Stack c.callStack) (h : testCaseOf finder c = .ok t) :
    t.Fits p.wholeProgramInputs ∧ c.cycle ∈ t.cycleToConcreteInputValuations.keys := by
  unfold testCaseOf Context.getMainFrame at h
  rw [hstack.getLast?_eq] at h
  dsimp only [bind, Except.bind] at h
  cases hm : finder.find c.expressions with
  | none =>
    rw [hm] at h
    cases h
  | some model =>
    rw [hm] at h
    dsimp only at h
    obtain ⟨valuations, -, h⟩ := bind_eq_ok h
    obtain ⟨initial, -, h⟩ := bind_eq_ok h
    obtain ⟨inputs, hinputs, h⟩ := bind_eq_ok h
    cases h
    have hkeys : inputs.keys = List.range (c.cycle + 1) := by
      have hnodup : inputs.keys.Nodup := inputs.keys_sorted.imp ne_of_lt
      have hperm := (List.perm_ext_iff_of_nodup hnodup List.nodup_range).mpr
        (mem_keys_inputValues hinputs)
      exact hperm.eq_of_pairwise (fun x y _ _ hxy hyx => absurd hxy (lt_asymm hyx))
        inputs.keys_sorted List.pairwise_lt_range
    refine ⟨⟨?_, fun k values hk x => ?_⟩, ?_⟩
    · dsimp only
      rw [hkeys, List.length_range]
    · have hvalues := (inputValues_find? hinputs).1 k values hk
      rw [lowestValues_find? hvalues]
      by_cases hx : x ∈ p.wholeProgramInputs
      · have hx' : x ∈ UnitCfg.inputVariables p.main := hx
        rw [if_pos hx']
        exact ⟨fun _ => hx, fun _ => exists_of_lowestValues hvalues x hx⟩
      · have hx' : x ∉ UnitCfg.inputVariables p.main := hx
        rw [if_neg hx']
        exact ⟨fun ⟨_, hv⟩ => (Option.some_ne_none _ hv.symm).elim, fun hmem => absurd hmem hx⟩
    · dsimp only
      rw [hkeys]
      exact List.mem_range.mpr (Nat.lt_succ_self _)

end TestSuite

/-- What is covered is taken by a test case of the suite, and the test cases fit the program. -/
structure Testing.Sound (p : Program) (blank : Coverage) (testing : Testing) : Prop where
  taken : ∀ l side, testing.coverage.Covers l side → ¬blank.Covers l side →
    ∃ t ∈ testing.testCases, ∃ k ∈ t.cycleToConcreteInputValuations.keys, ∃ scope,
      t.Takes p k ⟨scope, l, side⟩
  fits : ∀ t ∈ testing.testCases, t.Fits p.wholeProgramInputs

/-- The test case of a context fits the program and takes what a step covers for the first time. -/
def Backs (p : Program) (finder : ModelFinder String) (scope : String) (cfg : Cfg) (l l' : ℤ)
    (c : Context) : Prop :=
  ∀ t, TestSuite.testCaseOf finder c = .ok t →
    t.Fits p.wholeProgramInputs ∧ c.cycle ∈ t.cycleToConcreteInputValuations.keys ∧
    ∀ coverage coverage' increased, Coverage.update cfg l l' coverage = .ok (coverage', increased) →
      ∀ label taken, coverage'.Covers label taken → ¬coverage.Covers label taken →
        t.Takes p c.cycle ⟨scope, label, taken⟩

namespace Testing

variable {p : Program} {finder : ModelFinder String} {blank : Coverage} {testing : Testing}
  {c : Context}

/-- A step that is covered, with its test case. -/
theorem Sound.update {cfg : Cfg} {scope : String} {l l' : ℤ} {coverage : Coverage}
    {statement increased : Bool} {testCases : List TestCase} (h : Sound p blank testing)
    (hupdate : testing.coverage.update cfg l l' = .ok (coverage, statement, increased))
    (hderive : if increased = true then
      TestSuite.deriveTestCase finder testing.testCases c = .ok testCases
      else testCases = testing.testCases)
    (hbacks : Backs p finder scope cfg l l' c) : Sound p blank ⟨coverage, testCases⟩ := by
  have hgrows : testing.testCases ⊆ testCases ∧ ∀ t ∈ testCases, t.Fits p.wholeProgramInputs := by
    cases increased with
    | false =>
      rw [if_neg Bool.false_ne_true] at hderive
      rw [hderive]
      exact ⟨List.Subset.refl _, h.fits⟩
    | true =>
      rw [if_pos rfl] at hderive
      obtain ⟨t, ht, hderive⟩ := bind_eq_ok hderive
      cases hderive
      by_cases hmem : t ∈ testing.testCases
      · rw [if_pos hmem]
        exact ⟨List.Subset.refl _, h.fits⟩
      · rw [if_neg hmem]
        refine ⟨List.subset_append_left _ _, fun t' ht' => ?_⟩
        rcases List.mem_append.mp ht' with ht' | ht'
        · exact h.fits t' ht'
        · rw [List.mem_singleton.mp ht']
          exact (hbacks t ht).1
  refine ⟨fun label side hnew hblank => ?_, hgrows.2⟩
  by_cases hold : testing.coverage.Covers label side
  · obtain ⟨t, ht, htakes⟩ := h.taken label side hold hblank
    exact ⟨t, hgrows.1 ht, htakes⟩
  · rw [if_pos (Coverage.update_increased hupdate hnew hold)] at hderive
    obtain ⟨t, ht, hderive⟩ := bind_eq_ok hderive
    obtain ⟨-, hcycle, htakes⟩ := hbacks t ht
    refine ⟨t, ?_, c.cycle, hcycle, scope, htakes _ _ _ hupdate label side hnew hold⟩
    cases hderive
    by_cases hmem : t ∈ testing.testCases
    · rw [if_pos hmem]
      exact hmem
    · rw [if_neg hmem]
      exact List.mem_append_right _ List.mem_cons_self

theorem Sound.coverSucceeding {l : ℤ} {frame : Frame} {frames : List Frame} {testing' : Testing}
    (h : Sound p blank testing) (hstack : c.callStack = frame :: frames)
    (hcover : coverSucceeding finder l c testing = .ok testing')
    (hbacks : Backs p finder frame.scope frame.cfg.toCfg l c.state.vertex.label c) :
    Sound p blank testing' := by
  obtain ⟨frame', hframe, hcover⟩ := bind_eq_ok hcover
  unfold Context.getFrame at hframe
  rw [hstack] at hframe
  cases hframe
  obtain ⟨⟨coverage, statement, increased⟩, hupdate, hcover⟩ := bind_eq_ok hcover
  dsimp only at hcover
  cases increased with
  | true =>
    rw [if_pos rfl] at hcover
    obtain ⟨testCases, hderive, hcover⟩ := bind_eq_ok hcover
    cases hcover
    exact h.update hupdate (by rwa [if_pos rfl]) hbacks
  | false =>
    rw [if_neg Bool.false_ne_true] at hcover
    cases hcover
    exact h.update hupdate (by rw [if_neg Bool.false_ne_true]) hbacks

/-- Along the assumption literals of a summary. -/
theorem Sound.coverSummarized {callee : UnitCfg} {scope : String} {returnLabel l : ℤ}
    {literals : List String} {r : ℤ × Testing} (h : Sound p blank testing)
    (hcover : coverSummarized finder callee returnLabel c literals (l, testing) = .ok r)
    (hbacks : ∀ step ∈ steps l literals, Backs p finder scope callee.toCfg step.1 step.2 c)
    (hreturn : ∀ edge ∈ callee.getOutgoingEdges (lastLabel l literals), ∀ taken,
      ¬edge.IsSide taken) :
    r.1 = lastLabel l literals ∧ Sound p blank r.2 := by
  induction literals generalizing l testing with
  | nil =>
    obtain ⟨⟨coverage, increased⟩, hupdate, hcover⟩ := bind_eq_ok hcover
    cases hcover
    refine ⟨rfl, fun label side hnew hblank => ?_, h.fits⟩
    by_cases hold : testing.coverage.Covers label side
    · exact h.taken label side hold hblank
    · obtain ⟨-, edge, hedge, -, hside⟩ := Coverage.update_covers hupdate hnew hold
      exact absurd hside (hreturn edge hedge side)
  | cons literal literals ih =>
    obtain ⟨next, hnext, hcover⟩ := bind_eq_ok hcover
    obtain ⟨⟨coverage, statement, increased⟩, hupdate, hcover⟩ := bind_eq_ok hcover
    have hsteps : steps l (literal :: literals) = (l, (next : ℤ)) :: steps next literals := by
      conv_lhs => unfold steps
      rw [hnext]
    have hlast : lastLabel l (literal :: literals) = lastLabel next literals := by
      conv_lhs => unfold lastLabel
      rw [hnext]
    rw [hsteps] at hbacks
    rw [hlast] at hreturn ⊢
    obtain ⟨hfirst, hrest⟩ := List.forall_mem_cons.mp hbacks
    dsimp only at hcover
    cases increased with
    | true =>
      rw [if_pos rfl] at hcover
      obtain ⟨testCases, hderive, hcover⟩ := bind_eq_ok hcover
      exact ih (h.update hupdate (by rwa [if_pos rfl]) hfirst) hcover hrest hreturn
    | false =>
      rw [if_neg Bool.false_ne_true] at hcover
      exact ih (h.update hupdate (by rw [if_neg Bool.false_ne_true]) hfirst) hcover hrest hreturn

end Testing

/-- The states of the engine with its coverage and its suite, in the runs in which no test case fails
to be derived. -/
inductive Engine.TestedUnder (p : Program) (simplifier : Simplifier String)
    (finder : ModelFinder String)
    (findApplicableSummaries : Context → Except String (List Summary)) (P : Context → Prop)
    (Q : Versions → Context → List Context → Prop) (blank : Coverage) : Engine → Testing → Prop where
  | initial {g : Engine} (h : Engine.initial p = .ok g) :
      TestedUnder p simplifier finder findApplicableSummaries P Q blank g ⟨blank, []⟩
  | explore {g : Engine} {testing testing' : Testing} {c : Context} {rest rest' : List Context}
      {versions : Versions} {successors : Executor.Successors}
      (hg : TestedUnder p simplifier finder findApplicableSummaries P Q blank g testing)
      (h : g.explorer = rest ++ c :: rest') (hP : P c)
      (hexecute : (executor p simplifier finder.solver findApplicableSummaries).execute g.versions c =
        .ok (versions, successors))
      (hcover : Testing.cover finder (executor p simplifier finder.solver findApplicableSummaries)
        g.versions c successors testing = .ok testing') :
      TestedUnder p simplifier finder findApplicableSummaries P Q blank
        ((successors.contexts ++ successors.forked.toList).foldl (push p)
          { g with versions := versions, explorer := rest ++ rest' }) testing'
  | merge {g : Engine} {testing : Testing} {point : MergePoint} {c merged : Context}
      {cs : List Context} {versions : Versions}
      (hg : TestedUnder p simplifier finder findApplicableSummaries P Q blank g testing)
      (hexplorer : g.explorer = []) (hwaiting : g.waiting point = c :: cs)
      (hfirst : ∀ c' ∈ g.merger, ∀ point', Merger.mergePointOf c' = some point' →
        Merger.before point' point = false)
      (hQ : Q g.versions c cs)
      (hmerge : Merger.mergeAll simplifier g.versions c cs = .ok (versions, merged)) :
      TestedUnder p simplifier finder findApplicableSummaries P Q blank
        { g with
          versions := versions
          explorer := [merged]
          merger := g.merger.filter (Merger.mergePointOf · ≠ some point) } testing
  | nextCycle {g : Engine} {testing : Testing} {c : Context}
      (hg : TestedUnder p simplifier finder findApplicableSummaries P Q blank g testing)
      (hexplorer : g.explorer = []) (hmerger : g.merger = [])
      (hnext : g.succeedingCycle = some c) :
      TestedUnder p simplifier finder findApplicableSummaries P Q blank
        { g with cycle := g.cycle + 1, explorer := [c], succeedingCycle := none } testing

/-- The condition on a context that is executed: behind the summaries found at a call there are no
sides. -/
structure KeepsTests (p : Program)
    (findApplicableSummaries : Context → Except String (List Summary)) (c : Context) : Prop extends
    KeepsReplays p findApplicableSummaries c where
  returns : ∀ {frame frames called t₁ t₂ callee returnLabel summaries},
    c.callStack = frame :: frames →
    c.state.vertex.instruction = some (.callInstruction called t₁ t₂) →
    findApplicableSummaries (Executor.inside frame called callee returnLabel c) = .ok summaries →
    ∀ before summary after, summaries = before ++ summary :: after →
      ∀ edge ∈ callee.getOutgoingEdges (Testing.lastLabel
        (before.foldl (fun l s => Testing.lastLabel l s.assumptionLiterals) c.state.vertex.label)
        summary.assumptionLiterals), ∀ taken, ¬edge.IsSide taken

section Runs

variable {p : Program} {simplifier : Simplifier String} {finder : ModelFinder String}
  {findApplicableSummaries : Context → Except String (List Summary)} {g : Engine} {c c' : Context}
  {frame : Frame} {frames : List Frame} {l l' : ℤ} {blank : Coverage} {testing testing' : Testing}

theorem Engine.TestedUnder.reachableUnder {P P' : Context → Prop}
    {Q : Versions → Context → List Context → Prop} (hP : ∀ c, P c → P' c)
    (h : TestedUnder p simplifier finder findApplicableSummaries P Q blank g testing) :
    ReachableUnder p simplifier finder.solver findApplicableSummaries P' Q g := by
  induction h with
  | initial h => exact .initial h
  | explore _ h hc hexecute _ ih => exact .explore ih h (hP _ hc) hexecute
  | merge _ hexplorer hwaiting hfirst hQ hmerge ih =>
    exact .merge ih hexplorer hwaiting hfirst hQ hmerge
  | nextCycle _ hexplorer hmerger hnext ih => exact .nextCycle ih hexplorer hmerger hnext

/-- The branches that the step to a context covers for the first time are taken on the way to it. -/
def TakesCovered (p : Program) (frame : Frame) (l l' : ℤ) (c c' : Context) : Prop :=
  ∀ {coverage coverage' increased},
    Coverage.update frame.cfg.toCfg l l' coverage = .ok (coverage', increased) →
    ∀ label taken, coverage'.Covers label taken → ¬coverage.Covers label taken →
      c'.cycle = c.cycle ∧ (∀ inputs M, c'.Admits p inputs M → c.Admits p inputs M) ∧
      ∀ inputs M conf, c'.Admits p inputs M → Follows p M c conf → ∃ conf' branches,
        p.Runs inputs conf conf' ∧ conf'.cycle = c.cycle ∧
        conf'.branches = conf.branches ++ branches ∧ ⟨frame.scope, label, taken⟩ ∈ branches

theorem Engine.ReachableUnder.takesCovered (hp : p.WellFormed)
    (hfits : p.FindsFitting findApplicableSummaries)
    (hg : ReachableUnder p simplifier finder.solver findApplicableSummaries
      (KeepsReplays p findApplicableSummaries) (Merger.KeepsConstraints simplifier) g)
    (hc : c ∈ g.explorer) (hkeeps : KeepsReplays p findApplicableSummaries c)
    (hcovering : Covering (executor p simplifier finder.solver findApplicableSummaries) g.versions c
      frame l l' c') :
    ∃ versions k, c'.Invariant p versions k ∧ c'.Opens p ∧ p.Stack c'.callStack ∧
      TakesCovered p frame l l' c c' := by
  have hreplayed := hg.replayed hp hfits
  obtain ⟨hreplayable, hplaced⟩ := hreplayed.keeps.explorer c hc
  cases hcovering with
  | @succeeding _ _ _ _ _ h hc' hstack =>
    have hnone : g.succeedingCycle = none := by
      cases hs : g.succeedingCycle with
      | none => rfl
      | some x =>
        rw [(hreplayed.keeps.succeeding x hs).2.2.1] at hc
        cases hc
    obtain ⟨rest, rest', hexplorer⟩ := List.append_of_mem hc
    have hsuccessor : ∃ versions k, c'.Replayable p versions k := by
      rcases hreplayed.executed hp hfits hnone hexplorer hkeeps h with ⟨-, hcs⟩ | ⟨-, x, rfl, hx⟩
      · exact ⟨_, _, hcs c' hc'⟩
      · obtain rfl := List.mem_singleton.mp (by simpa using hc')
        exact ⟨_, _, hx⟩
    obtain ⟨versions, k, hc₁⟩ := hsuccessor
    refine ⟨versions, k, hc₁.invariant, hc₁.opens,
      (Executor.execute_placed hplaced h c' hc').stack, fun hupdate label taken hnew hold => ?_⟩
    obtain ⟨rfl, edge, hedge, htarget, hside⟩ := Coverage.update_covers hupdate hnew hold
    exact Executor.execute_takes hp hplaced hkeeps h hc' hstack hedge htarget hside
  | @summarized caller frames called t₁ t₂ typeName callee returnEdge next before after summary
      versions₁ versions₂ cs _ _ _ hstack hinstruction hdata hcallee hreturn hnext hfound hbefore h
      hstep =>
    have hfit := hfits _ _ hfound
    have hmem : summary ∈ before ++ summary :: after :=
      List.mem_append_right _ List.mem_cons_self
    have hinside : (Executor.inside caller called callee returnEdge.targetLabel c).Invariant p
        g.versions g.cycle :=
      hreplayable.invariant.of_eq rfl rfl hreplayable.invariant.closed rfl
    have hle := (Executor.applySummaries_invariant
      (fun s hs => hfit s (List.mem_append_left _ hs)) hinside hbefore).1
    have hinvariant := (Executor.applySummary_invariant (hfit summary hmem) (hinside.mono hle) h).1
    have hsummarizes := (hkeeps.summaries hstack hinstruction hfound).1 before summary after rfl
    obtain ⟨hadmits, branches, hsteps, htakes⟩ := Executor.applySummary_takes (hfit summary hmem)
      (hreplayable.invariant.mono hle) hstack hreturn hnext hsummarizes h
    obtain ⟨r, hr⟩ := Executor.applySummary_spec (hfit summary hmem) h
    have hcycle : c'.cycle = c.cycle := hr.cycle
    have hframes : p.Stack c'.callStack := by
      have hcaller := hstack ▸ hplaced.stack
      obtain ⟨label, hlabel⟩ := hplaced.atVertex caller frames hstack
      rw [hr.callStack]
      refine .call (.called hcaller.instance_of_head hlabel hinstruction hdata hcallee) ?_
      exact hplaced.stack
    refine ⟨_, _, hinvariant, hreplayable.opens.of_extends hcycle hr.keep, hframes,
      fun hupdate label taken hnew hold => ?_⟩
    obtain ⟨rfl, edge, hedge, htarget, hside⟩ := Coverage.update_covers hupdate hnew hold
    have hbranch := hsteps _ hstep edge hedge htarget taken hside
    refine ⟨hcycle, hadmits, fun inputs M conf hM hf => ?_⟩
    obtain ⟨conf', hruns, hf', hbranches⟩ := htakes inputs M conf hM hf
    exact ⟨conf', branches, hruns, hf'.cycle.trans hcycle, hbranches, hbranch⟩

/-- The test case of a context that a step leads to takes what the step covers. -/
theorem Engine.ReachableUnder.backs (hp : p.WellFormed)
    (hfits : p.FindsFitting findApplicableSummaries)
    (hg : ReachableUnder p simplifier finder.solver findApplicableSummaries
      (KeepsReplays p findApplicableSummaries) (Merger.KeepsConstraints simplifier) g)
    (hc : c ∈ g.explorer) (hkeeps : KeepsReplays p findApplicableSummaries c)
    (hcovering : Covering (executor p simplifier finder.solver findApplicableSummaries) g.versions c
      frame l l' c') : Backs p finder frame.scope frame.cfg.toCfg l l' c' := by
  obtain ⟨versions, k, hinvariant, hopens, hstack, htakes⟩ :=
    hg.takesCovered hp hfits hc hkeeps hcovering
  have hreplayable := ((hg.replayed hp hfits).keeps.explorer c hc).1
  intro t ht
  obtain ⟨hfit, hcycle⟩ := TestSuite.testCaseOf_fits hstack ht
  refine ⟨hfit, hcycle, fun coverage coverage' increased hupdate label taken hnew hold => ?_⟩
  have hfound : ∃ model, finder.find c'.expressions = some model := by
    unfold TestSuite.testCaseOf at ht
    obtain ⟨main, -, ht⟩ := bind_eq_ok ht
    cases hm : finder.find c'.expressions with
    | some model => exact ⟨model, rfl⟩
    | none =>
      rw [hm] at ht
      cases ht
  obtain ⟨model, hm⟩ := hfound
  have hderives := (derives_iff hp.toWellSorted hreplayable.replays hinvariant hopens hstack hm
    (htakes hupdate)).mpr (TestSuite.interpretsInputs_of_testCaseOf hinvariant hstack hm ht)
  obtain ⟨t', hderive, -, htakes'⟩ := hderives
  obtain ⟨testCases, hderive, hmem⟩ := hderive []
  unfold TestSuite.deriveTestCase at hderive
  rw [ht] at hderive
  cases hderive
  obtain rfl : t' = t := List.mem_singleton.mp hmem
  exact htakes' label taken hnew hold

theorem Executor.applySummaries_concat {returnVertex : Vertex} {callStack : List Frame}
    {before : List Summary} {summary : Summary} {versions versions₁ versions₂ : Versions}
    {cs : List Context} (h : applySummaries returnVertex callStack c before versions = .ok (versions₁, cs))
    (hs : applySummary summary versions₁ c = .ok (versions₂, c')) :
    ∃ cs', applySummaries returnVertex callStack c (before ++ [summary]) versions =
      .ok (versions₂, cs') := by
  induction before generalizing versions cs with
  | nil =>
    cases h
    rw [List.nil_append]
    unfold applySummaries
    rw [hs]
    exact ⟨_, rfl⟩
  | cons first before ih =>
    obtain ⟨⟨versions₃, c₃⟩, hfirst, h⟩ := bind_eq_ok h
    obtain ⟨⟨versions₄, cs₄⟩, hrest, h⟩ := bind_eq_ok h
    cases h
    obtain ⟨cs', hcs'⟩ := ih hrest
    rw [List.cons_append]
    conv in applySummaries _ _ _ (_ :: _) _ => unfold applySummaries
    rw [hfirst]
    dsimp only [bind, Except.bind]
    rw [hcs']
    exact ⟨_, rfl⟩

theorem Testing.Sound.coverSummaries {callee : UnitCfg} {scope : String} {returnLabel l₀ : ℤ}
    {next : Vertex} {callStack : List Frame} {summaries before after : List Summary}
    {versions₀ versions₁ : Versions} {cs : List Context} {r : ℤ × Testing}
    (h : Testing.Sound p blank testing) (hsplit : summaries = before ++ after)
    (hbefore : Executor.applySummaries next callStack c before versions₀ = .ok (versions₁, cs))
    (hcover : coverSummaries finder callee returnLabel c after versions₁
      (before.foldl (fun l s => lastLabel l s.assumptionLiterals) l₀, testing) = .ok r)
    (hbacks : ∀ before summary after versions₁ versions₂ cs c',
      summaries = before ++ summary :: after →
      Executor.applySummaries next callStack c before versions₀ = .ok (versions₁, cs) →
      Executor.applySummary summary versions₁ c = .ok (versions₂, c') →
      ∀ step ∈ steps (before.foldl (fun l s => lastLabel l s.assumptionLiterals) l₀)
        summary.assumptionLiterals, Backs p finder scope callee.toCfg step.1 step.2 c')
    (hreturns : ∀ before summary after, summaries = before ++ summary :: after →
      ∀ edge ∈ callee.getOutgoingEdges (lastLabel
        (before.foldl (fun l s => lastLabel l s.assumptionLiterals) l₀) summary.assumptionLiterals),
        ∀ taken, ¬edge.IsSide taken) : Testing.Sound p blank r.2 := by
  induction after generalizing before versions₁ cs testing with
  | nil =>
    cases hcover
    exact h
  | cons summary after ih =>
    obtain ⟨⟨versions₂, c'⟩, happly, hcover⟩ := bind_eq_ok hcover
    obtain ⟨⟨l, testing₁⟩, hsummarized, hcover⟩ := bind_eq_ok hcover
    obtain ⟨hlast, h₁⟩ := h.coverSummarized hsummarized
      (hbacks before summary after _ _ _ _ hsplit hbefore happly) (hreturns before summary after hsplit)
    obtain ⟨cs', hcs'⟩ := Executor.applySummaries_concat hbefore happly
    have hfold : (before ++ [summary]).foldl (fun l s => lastLabel l s.assumptionLiterals) l₀ = l := by
      rw [List.foldl_append]
      exact hlast.symm
    refine ih h₁ ?_ hcs' ?_
    · rw [hsplit, List.append_assoc]
      rfl
    · rw [hfold]
      exact hcover

theorem Testing.Sound.coverCall {versions : Versions} {successors : Executor.Successors}
    {called : Variable} {t₁ t₂ : ℤ} (hp : p.WellFormed)
    (hfits : p.FindsFitting findApplicableSummaries)
    (hg : Engine.ReachableUnder p simplifier finder.solver findApplicableSummaries
      (KeepsReplays p findApplicableSummaries) (Merger.KeepsConstraints simplifier) g)
    (hc : c ∈ g.explorer) (hkeeps : KeepsTests p findApplicableSummaries c)
    (hstack : c.callStack = frame :: frames)
    (hinstruction : c.state.vertex.instruction = some (.callInstruction called t₁ t₂))
    (hvisit : (Engine.executor p simplifier finder.solver findApplicableSummaries).visitCall frame
      called g.versions c = .ok (versions, successors)) (h : Testing.Sound p blank testing)
    (hcover : Testing.coverCall finder
      (Engine.executor p simplifier finder.solver findApplicableSummaries) g.versions frame called c
        testing = .ok testing') : Testing.Sound p blank testing' := by
  obtain ⟨typeName, callee, returnEdge, callEdge, summaries, hdata, hcallee, hreturn, hcall, hfound,
    hor⟩ := Executor.visitCall_edges hvisit
  unfold Testing.coverCall at hcover
  rw [hreturn] at hcover
  dsimp only [bind, Except.bind] at hcover
  rw [hdata] at hcover
  dsimp only at hcover
  rw [hcallee] at hcover
  dsimp only at hcover
  rw [hfound] at hcover
  dsimp only at hcover
  obtain ⟨⟨l, testing₁⟩, hsummaries, hcover⟩ := bind_eq_ok hcover
  cases hcover
  rcases hor with ⟨rfl, -, -⟩ | ⟨-, next, -, hnext, -, -⟩
  · cases hsummaries
    exact h
  · have hbacks : ∀ before summary after versions₁ versions₂ cs c',
        summaries = before ++ summary :: after →
        Executor.applySummaries next c.callStack
          (Executor.inside frame called callee returnEdge.targetLabel c) before g.versions =
            .ok (versions₁, cs) →
        Executor.applySummary summary versions₁
          (Executor.inside frame called callee returnEdge.targetLabel c) = .ok (versions₂, c') →
        ∀ step ∈ steps (before.foldl (fun l s => lastLabel l s.assumptionLiterals)
          c.state.vertex.label) summary.assumptionLiterals,
            Backs p finder (frame.scope ++ "." ++ called.name) callee.toCfg step.1 step.2 c' := by
      intro before summary after versions₁ versions₂ cs c' hsplit hbefore happly step hstep
      exact hg.backs hp hfits hc hkeeps.toKeepsReplays (.summarized hstack hinstruction hdata hcallee
        hreturn hnext (hsplit ▸ hfound) hbefore happly hstep)
    exact h.coverSummaries (List.nil_append summaries).symm rfl hsummaries hbacks
      (hkeeps.returns hstack hinstruction hfound)

/-- What is covered when a context is executed is taken by test cases. -/
theorem Testing.Sound.cover {versions : Versions} {successors : Executor.Successors}
    (hp : p.WellFormed) (hfits : p.FindsFitting findApplicableSummaries)
    (hg : Engine.ReachableUnder p simplifier finder.solver findApplicableSummaries
      (KeepsReplays p findApplicableSummaries) (Merger.KeepsConstraints simplifier) g)
    (hc : c ∈ g.explorer) (hkeeps : KeepsTests p findApplicableSummaries c)
    (hexecute : (Engine.executor p simplifier finder.solver findApplicableSummaries).execute g.versions
      c = .ok (versions, successors)) (h : Testing.Sound p blank testing)
    (hcover : Testing.cover finder
      (Engine.executor p simplifier finder.solver findApplicableSummaries) g.versions c successors
        testing = .ok testing') : Testing.Sound p blank testing' := by
  obtain ⟨testing₁, hexecuted, hcover⟩ := bind_eq_ok hcover
  have h₁ : Testing.Sound p blank testing₁ := by
    obtain ⟨frame, frames, hstack, hexecutes⟩ := Executor.execute_cases hexecute
    unfold coverExecuted at hexecuted
    split at hexecuted
    · rename_i called t₁ t₂ htype hinstruction
      obtain ⟨frame', hframe, hexecuted⟩ := bind_eq_ok hexecuted
      unfold Context.getFrame at hframe
      rw [hstack] at hframe
      cases hframe
      cases hexecutes with
      | call _ hinstruction' hvisit =>
        rw [hinstruction] at hinstruction'
        cases hinstruction'
        exact h.coverCall hp hfits hg hc hkeeps hstack hinstruction hvisit hexecuted
      | move hkind _ =>
        rcases hkind with hkind | ⟨-, hkind⟩
        · rw [htype] at hkind
          cases hkind
        · rw [hinstruction] at hkind
          cases hkind
      | assignment _ hinstruction' _ | branch _ hinstruction' _ =>
        rw [hinstruction] at hinstruction'
        cases hinstruction'
      | programExit htype' _ | functionBlockExit htype' _ =>
        rw [htype] at htype'
        cases htype'
    · cases hexecuted
      exact h
  refine foldlM_preserves (fun c' hc' testing₂ testing₃ h₂ hcover => ?_) h₁ hcover
  obtain ⟨frame, hframe, -⟩ := bind_eq_ok hcover
  obtain ⟨frames, hstack⟩ : ∃ frames, c'.callStack = frame :: frames := by
    unfold Context.getFrame at hframe
    cases hstack : c'.callStack with
    | nil =>
      rw [hstack] at hframe
      cases hframe
    | cons frame' frames =>
      rw [hstack] at hframe
      cases hframe
      exact ⟨frames, rfl⟩
  exact h₂.coverSucceeding hstack hcover
    (hg.backs hp hfits hc hkeeps.toKeepsReplays (.succeeding hexecute hc' hstack))

namespace Engine

theorem TestedUnder.sound (hp : p.WellFormed) (hfits : p.FindsFitting findApplicableSummaries)
    (hg : TestedUnder p simplifier finder findApplicableSummaries
      (KeepsTests p findApplicableSummaries) (Merger.KeepsConstraints simplifier) blank g testing) :
    Testing.Sound p blank testing := by
  induction hg with
  | initial _ =>
    exact ⟨fun l side hcovers hblank => absurd hcovers hblank, fun t ht => absurd ht List.not_mem_nil⟩
  | @explore g testing testing' c rest rest' versions successors hg h hP hexecute hcover ih =>
    have hc : c ∈ g.explorer := h ▸ List.mem_append_right _ List.mem_cons_self
    exact ih.cover hp hfits (hg.reachableUnder fun _ hkeeps => hkeeps.toKeepsReplays) hc hP hexecute
      hcover
  | merge _ _ _ _ _ _ ih => exact ih
  | nextCycle _ _ _ _ ih => exact ih

end Engine

end Runs

end Ahorn.Etfa
