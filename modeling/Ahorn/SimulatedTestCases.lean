import Ahorn.SimulatedCycles
import Ahorn.SimulatedVersions

set_option autoImplicit false

/-!
# Simulated test cases

The simulation of a test case is the execution of the version it follows from the values of the test
case: the cycles end with the same values, and what is covered is what the execution has gone
through.
-/
namespace Ahorn.Etfa.TestCase

/-- The cycles are counted from 0, and each has values for the inputs and for nothing else. -/
structure Fits (inputs : List String) (t : TestCase) : Prop where
  cycles : t.cycleToConcreteInputValuations.keys =
    List.range t.cycleToConcreteInputValuations.keys.length
  values : ∀ k values, t.cycleToConcreteInputValuations.find? k = some values → ∀ x,
    (∃ v, values.find? x = some v) ↔ x ∈ inputs

/-- The execution from the initial values of the test case goes through a label in the given
cycle. -/
def Executes (p : Program) (t : TestCase) (cycle : ℕ) (label : ℤ) : Prop :=
  ∃ conf₀, p.startWith t = .ok conf₀ ∧ p.Executes t.inputs conf₀ cycle label

/-- The configuration the execution from the initial values of the test case ends a cycle with. -/
def Ends (p : Program) (t : TestCase) (cycle : ℕ) (conf : Configuration) : Prop :=
  ∃ conf₀, p.startWith t = .ok conf₀ ∧ p.Ends t.inputs conf₀ cycle conf

theorem Ends.unique {p : Program} {t : TestCase} {cycle : ℕ} {conf conf' : Configuration}
    (h : t.Ends p cycle conf) (h' : t.Ends p cycle conf') : conf = conf' := by
  obtain ⟨conf₀, h₀, hends⟩ := h
  obtain ⟨conf₁, h₁, hends'⟩ := h'
  rw [h₀] at h₁
  cases h₁
  exact Program.Ends.unique hends hends'

theorem takes_iff {p : Program} {t : TestCase} {cycle : ℕ} {branch : Branch} :
    t.Takes p cycle branch ↔
      ∃ conf₀, p.startWith t = .ok conf₀ ∧ p.Takes t.inputs conf₀ cycle branch := by
  constructor
  · rintro ⟨conf₀, conf, conf', branches, h₀, h⟩
    exact ⟨conf₀, h₀, conf, conf', branches, h⟩
  · rintro ⟨conf₀, h₀, conf, conf', branches, h⟩
    exact ⟨conf₀, conf, conf', branches, h₀, h⟩

end Ahorn.Etfa.TestCase

namespace Ahorn.Simulator

open Etfa (Configuration Inputs Branch Coverage TestCase UnitCfg.inputVariables)

namespace Engine

variable {g : Engine} {c c' : ValuedContext} {cycle : ℕ}

theorem updateInputs_spec {valuations : List (String × Value)}
    (hnames : valuations.Pairwise fun e e' => e.1 < e'.1)
    (h : updateInputs cycle valuations c = .ok c') :
    c'.toContext = c.toContext ∧
    (∀ e ∈ valuations, c'.concreteValuations.find? (contextualizedName e.1 cycle) = some e.2) ∧
    ∀ x k, (k = cycle → x ∉ valuations.map Prod.fst) →
      c'.concreteValuations.find? (contextualizedName x k) =
        c.concreteValuations.find? (contextualizedName x k) := by
  induction valuations generalizing c with
  | nil =>
    cases h
    exact ⟨rfl, fun e he => absurd he List.not_mem_nil, fun _ _ _ => rfl⟩
  | cons e valuations ih =>
    obtain ⟨hhead, hnames⟩ := List.pairwise_cons.mp hnames
    obtain ⟨c₁, hupdate, h⟩ := bind_eq_ok h
    obtain ⟨-, rfl⟩ := update_cases hupdate
    obtain ⟨hcontrol, hvalues, hothers⟩ := ih hnames h
    refine ⟨hcontrol, List.forall_mem_cons.mpr ⟨?_, hvalues⟩, fun x k hx => ?_⟩
    · rw [hothers _ _ fun _ hmem => ?_]
      · dsimp only
        rw [OrderedMap.find?_assign, if_pos rfl]
      · obtain ⟨e', he', heq⟩ := List.mem_map.mp hmem
        exact absurd (hhead e' he') (heq ▸ lt_irrefl _)
    · rw [hothers x k fun hk hmem => hx hk (List.mem_cons_of_mem _ hmem)]
      dsimp only
      rw [OrderedMap.find?_assign, if_neg fun heq => ?_]
      obtain ⟨rfl, rfl⟩ := contextualizedName_injective heq
      exact hx rfl List.mem_cons_self

theorem stateValuations_find? {names : List String} {valuations : OrderedMap String Value}
    (h : stateValuations cycle c names = .ok valuations) (x : String) :
    valuations.find? x = if x ∈ names then
      c.concreteValuations.find? (contextualizedName x cycle) else none := by
  induction names generalizing valuations with
  | nil =>
    cases h
    rfl
  | cons y names ih =>
    obtain ⟨value, hvalue, h⟩ := bind_eq_ok h
    obtain ⟨rest, hrest, h⟩ := bind_eq_ok h
    cases h
    rw [OrderedMap.find?_emplace]
    by_cases hxy : x = y
    · subst hxy
      rw [if_pos rfl, if_pos List.mem_cons_self, ih hrest, find?_of_get hvalue]
      split_ifs <;> rfl
    · rw [if_neg hxy, ih hrest]
      simp only [List.mem_cons, hxy, false_or]

theorem mem_of_stateValuations {names : List String} {valuations : OrderedMap String Value}
    (h : stateValuations cycle c names = .ok valuations) : ∀ x ∈ names,
      ∃ v, c.concreteValuations.find? (contextualizedName x cycle) = some v := by
  induction names generalizing valuations with
  | nil => exact fun _ hx => absurd hx List.not_mem_nil
  | cons y names ih =>
    obtain ⟨value, hvalue, h⟩ := bind_eq_ok h
    obtain ⟨rest, hrest, -⟩ := bind_eq_ok h
    exact List.forall_mem_cons.mpr ⟨⟨value, find?_of_get hvalue⟩, ih hrest⟩

theorem initialValuations_spec {initial : OrderedMap String Value}
    {entries : List (String × Variable)} {valuations valuations' : OrderedMap String Value}
    (h : g.initialValuations initial entries valuations = .ok valuations') :
    (∀ x v, x ∉ g.executor.wholeProgramInputs →
      valuations'.find? (contextualizedName x 0) = some v →
      valuations.find? (contextualizedName x 0) = some v ∨ initial.find? x = some v) ∧
    ∀ x k, 0 < k → valuations'.find? (contextualizedName x k) =
      valuations.find? (contextualizedName x k) := by
  induction entries generalizing valuations with
  | nil =>
    cases h
    exact ⟨fun _ _ _ hv => Or.inl hv, fun _ _ _ => rfl⟩
  | cons e entries ih =>
    obtain ⟨value, hvalue, h⟩ := bind_eq_ok h
    obtain ⟨hnow, hlater⟩ := ih h
    constructor
    · intro x v hx hv
      rcases hnow x v hx hv with hv | hv
      · rw [OrderedMap.find?_emplace] at hv
        by_cases hname : contextualizedName x 0 = contextualizedName e.1 0
        · obtain ⟨rfl, -⟩ := contextualizedName_injective hname
          rw [if_pos rfl] at hv
          cases hfind : valuations.find? (contextualizedName e.1 0) with
          | some v' =>
            rw [hfind] at hv
            exact Or.inl hv
          | none =>
            rw [hfind] at hv
            cases hv
            unfold initialValuation at hvalue
            rw [if_neg hx] at hvalue
            cases hinitial : initial.find? e.1 with
            | none =>
              rw [hinitial] at hvalue
              cases hvalue
            | some v' =>
              rw [hinitial] at hvalue
              cases hvalue
              exact Or.inr rfl
        · rw [if_neg hname] at hv
          exact Or.inl hv
      · exact Or.inr hv
    · intro x k hk
      rw [hlater x k hk, OrderedMap.find?_emplace_ne _ _ fun heq => ?_]
      have hzero := (contextualizedName_injective heq).2
      omega

end Engine

section Cycles

variable {p : AnnotatedProgram} {g : Engine} {t : TestCase} {base : Coverage}
  {conf₀ conf : Configuration} {k fuel : ℕ}

/-- A simulation at the beginning of a cycle. The values of the inputs are still to be replaced by
those the execution has read; what the execution has gone through in the cycles before is covered, on
top of what has been covered in the first place. -/
structure Follows (p : AnnotatedProgram) (ex : Executor) (t : TestCase) (base : Coverage)
    (conf₀ : Configuration) (k : ℕ) (s : Simulation) (conf : Configuration) : Prop where
  begins : (p.version ex.mode).Begins t.inputs conf₀ k conf
  placed : Placed p.main s.context.toContext
  tracks : Tracks ex.mode (· ∈ ex.wholeProgramInputs) s.context conf
  reads : ∀ x ∈ ex.wholeProgramInputs, conf.store x = t.inputs k x
  statements : ∀ l, s.coverage.coveredStatements.find? l = some true ↔
    base.coveredStatements.find? l = some true ∨
      ∃ j < k, (p.version ex.mode).Executes t.inputs conf₀ j l
  branches : ∀ l side, s.coverage.Covers l side ↔ base.Covers l side ∨
    ∃ j < k, ∃ b, (p.version ex.mode).Takes t.inputs conf₀ j b ∧ b.label = l ∧
      LeadsAlike p.main l b.taken side
  sides : ∀ j < k, ∀ b, (p.version ex.mode).Takes t.inputs conf₀ j b →
    LeadsAlike p.main b.label b.taken b.taken

/-- The simulation of a test case begins where its execution begins. -/
theorem Follows.start {drawn : ℕ} {context : ValuedContext} (hmain : g.main = p.main)
    (h : g.initializeFromConcreteValuation t.initialConcreteStateValuations drawn = .ok context) :
    ∃ conf₀, (p.version g.mode).startWith t = .ok conf₀ ∧
      Follows p g.executor t base conf₀ 0 ⟨context, base⟩ conf₀ := by
  obtain ⟨vertex, hvertex, h⟩ := bind_eq_ok h
  obtain ⟨valuations, hvaluations, h⟩ := bind_eq_ok h
  cases h
  have hplaced := @Engine.placed_initialContext g
  obtain ⟨hnow, hlater⟩ := Engine.initialValuations_spec hvaluations
  rw [hmain] at hvertex
  have hentry : (p.version g.mode).main.getVertex (p.version g.mode).main.entryLabel =
      .ok (vertex.version g.mode) := UnitCfg.getVertex_version hvertex
  have hname : p.main.root.name = p.main.name := p.rootName .refl
  unfold Etfa.Program.startWith
  rw [hentry]
  refine ⟨_, rfl, .start rfl, hmain ▸ hplaced, ⟨⟨rfl, ?_, vertex, ?_, rfl⟩, ?_, ?_⟩, fun x hx => ?_,
    fun l => ?_, fun l side => ?_, fun j hj => absurd hj (Nat.not_lt_zero j)⟩
  · have hframe : Frame.version g.mode ⟨p.main, p.main.name, p.main.root.entryLabel⟩ =
        ⟨p.main.root.version g.mode, p.main.root.name, p.main.root.entryLabel⟩ := by
      rw [hname]
      rfl
    unfold Engine.initialContext
    rw [hmain]
    exact congrArg (fun frame => [frame]) hframe.symm
  · unfold Engine.initialContext
    rw [hmain]
    exact find?_of_getVertex hvertex
  · intro x v hx hv
    have hnot : x ∉ (p.version g.mode).wholeProgramInputs := by
      unfold Engine.executor at hx
      rw [hmain] at hx
      exact hx
    dsimp only
    rw [if_neg hnot]
    rcases hnow x v hx hv with hv | hv
    · cases hv
    · rw [hv]
      rfl
  · intro x j hj
    exact (hlater x j hj).trans rfl
  · have hinput : x ∈ (p.version g.mode).wholeProgramInputs := by
      unfold Engine.executor at hx
      rw [hmain] at hx
      exact hx
    dsimp only
    rw [if_pos hinput]
  · exact ⟨Or.inl, fun h => h.resolve_right fun ⟨j, hj, _⟩ => absurd hj (Nat.not_lt_zero j)⟩
  · exact ⟨Or.inl, fun h => h.resolve_right fun ⟨j, hj, _⟩ => absurd hj (Nat.not_lt_zero j)⟩

theorem Follows.inCycle {s : Simulation} {values : OrderedMap String Value}
    {context : ValuedContext} (h : Follows p g.executor t base conf₀ k s conf)
    (hfind : t.cycleToConcreteInputValuations.find? k = some values)
    (hvalues : ∀ x, (∃ v, values.find? x = some v) ↔ x ∈ g.executor.wholeProgramInputs)
    (hc : Engine.updateInputs k values.entries s.context = .ok context) :
    context.cycle = k ∧ InCycle p g.executor t.inputs conf₀ k context conf := by
  obtain ⟨hcontrol, hset, hothers⟩ := Engine.updateInputs_spec values.sorted hc
  have hcycle : context.cycle = k := by
    rw [hcontrol]
    exact h.tracks.located.cycle.symm.trans h.begins.cycle
  have hold : s.context.cycle = k := h.tracks.located.cycle.symm.trans h.begins.cycle
  refine ⟨hcycle, h.begins.runs, ?_, ⟨?_, ?_, ?_⟩, fun hne => absurd hcycle hne⟩
  · rw [hcontrol]
    exact h.placed
  · rw [hcontrol]
    exact h.tracks.located
  · intro x v _ hv
    rw [hcycle] at hv
    by_cases hx : x ∈ g.executor.wholeProgramInputs
    · obtain ⟨v', hv'⟩ := (hvalues x).mpr hx
      have hread : t.inputs k x = v' := by
        unfold TestCase.inputs
        rw [hfind]
        dsimp only
        rw [hv']
        rfl
      rw [hset (x, v') ((values.find?_eq_some_iff x v').mp hv')] at hv
      rw [h.reads x hx, hread]
      exact Option.some.inj hv
    · have hkeys : x ∉ values.entries.map Prod.fst := fun hmem =>
        hx ((hvalues x).mp (OrderedMap.mem_keys_iff.mp hmem))
      rw [hothers x k fun _ => hkeys] at hv
      exact h.tracks.stores.same x v hx (hold.symm ▸ hv)
  · intro x j hj
    rw [hcycle] at hj
    rw [hothers x j fun heq => by omega]
    exact h.tracks.stores.fresh x j (hold.symm ▸ hj)

/-- A cycle of the simulation is one of the execution. -/
theorem Follows.cycle {s : Simulation} {values : OrderedMap String Value} {r : ℕ × Simulation}
    (hp : p.HavocFree) (hmain : g.main = p.main) (h : Follows p g.executor t base conf₀ k s conf)
    (hfind : t.cycleToConcreteInputValuations.find? k = some values)
    (hvalues : ∀ x, (∃ v, values.find? x = some v) ↔ x ∈ g.executor.wholeProgramInputs)
    (hr : g.simulateCycle fuel (k, s) (k, values) = .ok r) :
    r.1 = k + 1 ∧ (∃ conf', Follows p g.executor t base conf₀ (k + 1) r.2 conf') ∧
      ∃ last, (p.version g.mode).Ends t.inputs conf₀ k last ∧
        ∀ x v, r.2.context.concreteValuations.find? (contextualizedName x k) = some v →
          last.store x = v := by
  obtain ⟨context, hupdate, hr⟩ := bind_eq_ok hr
  obtain ⟨final, hloop, hr⟩ := bind_eq_ok hr
  cases hr
  obtain ⟨hcycle, hin⟩ := h.inCycle hfind hvalues hupdate
  obtain ⟨visits, hvisits, -⟩ := Loop.exists_visits hloop
  have hleft : final.context.cycle ≠ k := of_decide_eq_false hvisits.not_continues
  obtain ⟨visits', conf', hvisits', hfinal, hstatements, hbranches, hsides⟩ :=
    InCycle.visits hp hmain hvisits hin
  obtain ⟨hnext, hread, last, hends, hlast⟩ := hfinal.ended hleft
  have hconf' : conf'.cycle = k + 1 := hfinal.tracks.located.cycle.trans hnext
  refine ⟨rfl, ⟨conf', h.begins.next hvisits' hconf', hfinal.placed, ⟨hfinal.tracks.located,
    fun x v hx hv => hfinal.tracks.stores.same x v (fun hpending => hx hpending.2) hv,
    hfinal.tracks.stores.fresh⟩, hread, fun l => ?_, fun l side => ?_, fun j hj b hb => ?_⟩, last,
    hends, hlast⟩
  · rw [hstatements l, h.statements l, ← h.begins.executes_iff hvisits' hconf', or_assoc,
      Nat.exists_lt_succ_right]
  · rw [hbranches l side, h.branches l side, or_assoc, Nat.exists_lt_succ_right]
    refine or_congr_right (or_congr_right ?_)
    constructor
    · rintro ⟨conf₁, hmem, conf₂, taken, hstep, hk, hgrown, b, hb, hb'⟩
      exact ⟨b, (h.begins.takes_iff hvisits' hconf').mpr ⟨conf₁, hmem, conf₂, taken, hstep, hk,
        hgrown, hb⟩, hb'⟩
    · rintro ⟨b, hb, hb'⟩
      obtain ⟨conf₁, hmem, conf₂, taken, hstep, hk, hgrown, hb⟩ :=
        (h.begins.takes_iff hvisits' hconf').mp hb
      exact ⟨conf₁, hmem, conf₂, taken, hstep, hk, hgrown, b, hb, hb'⟩
  · rcases Nat.lt_succ_iff_lt_or_eq.mp hj with hj | rfl
    · exact h.sides j hj b hb
    · obtain ⟨conf₁, hmem, conf₂, taken, hstep, -, hgrown, hb⟩ :=
        (h.begins.takes_iff hvisits' hconf').mp hb
      exact hsides conf₁ hmem conf₂ taken hstep hgrown b hb

theorem Follows.cycles {s : Simulation} {r : ℕ × Simulation}
    {inputs : List (ℕ × OrderedMap String Value)} (hp : p.HavocFree) (hmain : g.main = p.main)
    (ht : t.Fits g.executor.wholeProgramInputs) (h : Follows p g.executor t base conf₀ k s conf)
    (hinputs : ∀ e ∈ inputs, t.cycleToConcreteInputValuations.find? e.1 = some e.2)
    (hcycles : inputs.map Prod.fst = List.range' k inputs.length)
    (hr : inputs.foldlM (g.simulateCycle fuel) (k, s) = .ok r) :
    ∃ conf', Follows p g.executor t base conf₀ (k + inputs.length) r.2 conf' := by
  induction inputs generalizing k s conf with
  | nil =>
    cases hr
    exact ⟨conf, h⟩
  | cons input inputs ih =>
    rw [List.foldlM_cons] at hr
    obtain ⟨⟨k₁, s₁⟩, hr₁, hr⟩ := bind_eq_ok hr
    rw [List.map_cons, List.length_cons, List.range'_succ] at hcycles
    obtain ⟨hfirst, hrest⟩ := List.cons.inj hcycles
    obtain ⟨cycle, values⟩ := input
    obtain rfl : cycle = k := hfirst
    obtain ⟨hfind, hinputs⟩ := List.forall_mem_cons.mp hinputs
    obtain ⟨hk₁, ⟨conf₁, h₁⟩, -⟩ := h.cycle hp hmain hfind (ht.values _ _ hfind) hr₁
    obtain rfl : k₁ = cycle + 1 := hk₁
    obtain ⟨conf', h'⟩ := ih h₁ hinputs hrest hr
    rw [Nat.add_right_comm] at h'
    exact ⟨conf', h'⟩

end Cycles

section Suites

variable {p : AnnotatedProgram} {g : Engine} {t : TestCase} {fuel : ℕ}

theorem cycles_eq_range' {inputs : List String} (ht : t.Fits inputs) :
    t.cycleToConcreteInputValuations.entries.map Prod.fst =
      List.range' 0 t.cycleToConcreteInputValuations.entries.length := by
  have hcycles := ht.cycles
  unfold OrderedMap.keys at hcycles
  rw [List.length_map, List.range_eq_range'] at hcycles
  exact hcycles

theorem lt_cycles_iff {inputs : List String} (ht : t.Fits inputs) {k : ℕ} :
    k < t.cycleToConcreteInputValuations.entries.length ↔
      k ∈ t.cycleToConcreteInputValuations.keys := by
  unfold OrderedMap.keys
  rw [cycles_eq_range' ht, List.mem_range'_1]
  omega

theorem runTestCase_covers {s r : Coverage × ℕ} (hp : p.HavocFree) (hmain : g.main = p.main)
    (ht : t.Fits g.executor.wholeProgramInputs) (h : g.runTestCase fuel s t = .ok r) :
    (∀ l, r.1.coveredStatements.find? l = some true ↔ s.1.coveredStatements.find? l = some true ∨
      ∃ k ∈ t.cycleToConcreteInputValuations.keys, t.Executes (p.version g.mode) k l) ∧
    (∀ l side, r.1.Covers l side ↔ s.1.Covers l side ∨
      ∃ k ∈ t.cycleToConcreteInputValuations.keys, ∃ b, t.Takes (p.version g.mode) k b ∧
        b.label = l ∧ LeadsAlike p.main l b.taken side) ∧
    ∀ k ∈ t.cycleToConcreteInputValuations.keys, ∀ b, t.Takes (p.version g.mode) k b →
      LeadsAlike p.main b.label b.taken b.taken := by
  obtain ⟨context, hcontext, h⟩ := bind_eq_ok h
  obtain ⟨⟨n, final⟩, hfold, h⟩ := bind_eq_ok h
  cases h
  obtain ⟨conf₀, hconf₀, hstart⟩ := @Follows.start p g t s.1 _ _ hmain hcontext
  obtain ⟨conf', hfollows⟩ := hstart.cycles hp hmain ht
    (fun e he => (OrderedMap.find?_eq_some_iff _ _ _).mpr he) (cycles_eq_range' ht) hfold
  have hsame : ∀ conf, (p.version g.mode).startWith t = .ok conf → conf = conf₀ :=
    fun conf hconf => Except.ok.inj (hconf.symm.trans hconf₀)
  refine ⟨fun l => ?_, fun l side => ?_, fun k hk b hb => ?_⟩
  · rw [hfollows.statements l, Nat.zero_add]
    refine or_congr_right ?_
    constructor
    · rintro ⟨k, hk, hl⟩
      exact ⟨k, (lt_cycles_iff ht).mp hk, conf₀, hconf₀, hl⟩
    · rintro ⟨k, hk, conf, hconf, hl⟩
      exact ⟨k, (lt_cycles_iff ht).mpr hk, hsame conf hconf ▸ hl⟩
  · rw [hfollows.branches l side, Nat.zero_add]
    refine or_congr_right ?_
    constructor
    · rintro ⟨k, hk, b, hb, hb'⟩
      exact ⟨k, (lt_cycles_iff ht).mp hk, b, TestCase.takes_iff.mpr ⟨conf₀, hconf₀, hb⟩, hb'⟩
    · rintro ⟨k, hk, b, hb, hb'⟩
      obtain ⟨conf, hconf, hb⟩ := TestCase.takes_iff.mp hb
      exact ⟨k, (lt_cycles_iff ht).mpr hk, b, hsame conf hconf ▸ hb, hb'⟩
  · obtain ⟨conf, hconf, hb⟩ := TestCase.takes_iff.mp hb
    refine hfollows.sides k ?_ b (hsame conf hconf ▸ hb)
    rw [Nat.zero_add]
    exact (lt_cycles_iff ht).mpr hk

theorem foldlM_runTestCase_covers {ts : List TestCase} {s r : Coverage × ℕ} (hp : p.HavocFree)
    (hmain : g.main = p.main) (hts : ∀ t ∈ ts, t.Fits g.executor.wholeProgramInputs)
    (h : ts.foldlM (g.runTestCase fuel) s = .ok r) :
    (∀ l, r.1.coveredStatements.find? l = some true ↔ s.1.coveredStatements.find? l = some true ∨
      ∃ t ∈ ts, ∃ k ∈ t.cycleToConcreteInputValuations.keys, t.Executes (p.version g.mode) k l) ∧
    (∀ l side, r.1.Covers l side ↔ s.1.Covers l side ∨
      ∃ t ∈ ts, ∃ k ∈ t.cycleToConcreteInputValuations.keys, ∃ b, t.Takes (p.version g.mode) k b ∧
        b.label = l ∧ LeadsAlike p.main l b.taken side) ∧
    ∀ t ∈ ts, ∀ k ∈ t.cycleToConcreteInputValuations.keys, ∀ b, t.Takes (p.version g.mode) k b →
      LeadsAlike p.main b.label b.taken b.taken := by
  induction ts generalizing s with
  | nil =>
    cases h
    exact ⟨fun l => ⟨Or.inl, fun h => h.resolve_right fun ⟨t, ht, _⟩ => absurd ht List.not_mem_nil⟩,
      fun l side => ⟨Or.inl, fun h => h.resolve_right fun ⟨t, ht, _⟩ => absurd ht List.not_mem_nil⟩,
      fun t ht => absurd ht List.not_mem_nil⟩
  | cons t ts ih =>
    rw [List.foldlM_cons] at h
    obtain ⟨s₁, hs₁, h⟩ := bind_eq_ok h
    obtain ⟨ht, hts⟩ := List.forall_mem_cons.mp hts
    obtain ⟨hstatements, hbranches, hsides⟩ := runTestCase_covers hp hmain ht hs₁
    obtain ⟨hstatements', hbranches', hsides'⟩ := ih hts h
    refine ⟨fun l => ?_, fun l side => ?_, List.forall_mem_cons.mpr ⟨hsides, hsides'⟩⟩
    · rw [hstatements' l, hstatements l, or_assoc, List.exists_mem_cons_iff]
    · rw [hbranches' l side, hbranches l side, or_assoc, List.exists_mem_cons_iff]

/-- The labels of the history are those that are covered. -/
def Records (s : RecordedSimulation) : Prop :=
  ∀ l, l ∈ flattenedLabels s.history ↔ s.coverage.coveredStatements.find? l = some true

theorem stepRecording_simulates {cycle : ℕ} {s s' : RecordedSimulation} (hs : Records s)
    (h : g.stepRecording fuel cycle s = .ok s') :
    g.step fuel cycle s.toSimulation = .ok s'.toSimulation ∧ Records s' := by
  obtain ⟨visits, hvisits, hlength⟩ := Loop.exists_visits h
  have hadvance : ∀ {v v' : RecordedSimulation}, g.advanceRecording v = .ok v' →
      g.advance v.toSimulation = .ok v'.toSimulation ∧
        v'.history = record v.history v.context.toContext := by
    intro v v' hv
    obtain ⟨simulation, hsimulation, hv⟩ := bind_eq_ok hv
    cases hv
    exact ⟨hsimulation, rfl⟩
  obtain ⟨visits', final, hvisits', hall, rfl⟩ : ∃ visits' final,
      Loop.Visits (fun s : Simulation => s.context.cycle = cycle) g.advance s.toSimulation visits'
          final ∧
        List.Forall₂ (fun s s' => RecordedSimulation.toSimulation s = s') visits visits' ∧
        s'.toSimulation = final :=
    hvisits.simulates (fun v w hvw => by rw [← hvw])
      (fun v _ v' w hvw hv' => ⟨_, hvw ▸ (hadvance hv').1, rfl⟩) rfl
  refine ⟨hvisits'.run_eq (hall.length_eq ▸ hlength), ?_⟩
  refine (hvisits.keeps (P := Records) (fun v v' _ hv hv' l => ?_) hs).2
  obtain ⟨hstep, hhistory⟩ := hadvance hv'
  obtain ⟨-, increased, hupdate⟩ := Engine.advance_cases hstep
  rw [hhistory, mem_flattenedLabels_record, (Coverage.update_iff hupdate).1 l, hv l, or_comm]

/-- The values at the end of the cycles so far are those of the execution. -/
structure FollowsRecorded (p : AnnotatedProgram) (g : Engine) (t : TestCase) (base : Coverage)
    (conf₀ : Configuration) (k : ℕ) (r : Engine.Recording) : Prop where
  cycle : r.cycle = k
  follows : ∃ conf, Follows p g.executor t base conf₀ k r.simulation.toSimulation conf
  records : Records r.simulation
  valued : ∀ j, (r.cycleToConcreteStateValuations.find? j).isSome = true ↔ j < k
  values : ∀ j values, r.cycleToConcreteStateValuations.find? j = some values →
    ∃ last, (p.version g.mode).Ends t.inputs conf₀ j last ∧
      ∀ x, values.find? x = if x ∈ g.stateVariables then some (last.store x) else none

theorem FollowsRecorded.next {base : Coverage} {conf₀ : Configuration} {k : ℕ} {r r' : Engine.Recording}
    {values : OrderedMap String Value} (hp : p.HavocFree) (hmain : g.main = p.main)
    (h : FollowsRecorded p g t base conf₀ k r)
    (hfind : t.cycleToConcreteInputValuations.find? k = some values)
    (hvalues : ∀ x, (∃ v, values.find? x = some v) ↔ x ∈ g.executor.wholeProgramInputs)
    (hr : g.recordCycle fuel r (k, values) = .ok r') :
    FollowsRecorded p g t base conf₀ (k + 1) r' := by
  obtain ⟨context, hcontext, hr⟩ := bind_eq_ok hr
  obtain ⟨simulation, hsimulation, hr⟩ := bind_eq_ok hr
  obtain ⟨valuations, hvaluations, hr⟩ := bind_eq_ok hr
  cases hr
  obtain ⟨conf, hfollows⟩ := h.follows
  rw [h.cycle] at hsimulation
  have hbefore : Records { r.simulation with context := context } := h.records
  obtain ⟨hstep, hrecords⟩ := stepRecording_simulates hbefore hsimulation
  have hcycle : g.simulateCycle fuel (k, r.simulation.toSimulation) (k, values) =
      .ok (k + 1, simulation.toSimulation) := by
    unfold Engine.simulateCycle
    rw [hcontext]
    dsimp only [bind, Except.bind]
    rw [hstep]
  obtain ⟨-, hnext, last, hends, hlast⟩ := hfollows.cycle hp hmain hfind hvalues hcycle
  refine ⟨congrArg (· + 1) h.cycle, hnext, hrecords, fun j => ?_, fun j values' hj => ?_⟩
  · dsimp only
    rw [OrderedMap.find?_emplace]
    by_cases hjk : j = k
    · subst hjk
      rw [if_pos rfl]
      cases r.cycleToConcreteStateValuations.find? j with
      | none => exact ⟨fun _ => Nat.lt_succ_self j, fun _ => rfl⟩
      | some _ => exact ⟨fun _ => Nat.lt_succ_self j, fun _ => rfl⟩
    · rw [if_neg hjk, h.valued j]
      omega
  · dsimp only at hj
    rw [OrderedMap.find?_emplace] at hj
    by_cases hjk : j = k
    · subst hjk
      have hnone : r.cycleToConcreteStateValuations.find? j = none := by
        cases hold : r.cycleToConcreteStateValuations.find? j with
        | none => rfl
        | some v =>
          have hlt := (h.valued j).mp (hold ▸ rfl)
          exact absurd hlt (lt_irrefl j)
      rw [if_pos rfl, hnone] at hj
      cases hj
      refine ⟨last, hends, fun x => ?_⟩
      rw [Engine.stateValuations_find? hvaluations]
      by_cases hx : x ∈ g.stateVariables
      · obtain ⟨v, hv⟩ := Engine.mem_of_stateValuations hvaluations x hx
        rw [if_pos hx, if_pos hx, hv, hlast x v hv]
      · rw [if_neg hx, if_neg hx]
    · rw [if_neg hjk] at hj
      exact h.values j values' hj

theorem FollowsRecorded.cycles {base : Coverage} {conf₀ : Configuration} {k : ℕ} {r r' : Engine.Recording}
    {inputs : List (ℕ × OrderedMap String Value)} (hp : p.HavocFree) (hmain : g.main = p.main)
    (ht : t.Fits g.executor.wholeProgramInputs) (h : FollowsRecorded p g t base conf₀ k r)
    (hinputs : ∀ e ∈ inputs, t.cycleToConcreteInputValuations.find? e.1 = some e.2)
    (hcycles : inputs.map Prod.fst = List.range' k inputs.length)
    (hr : inputs.foldlM (g.recordCycle fuel) r = .ok r') :
    FollowsRecorded p g t base conf₀ (k + inputs.length) r' := by
  induction inputs generalizing k r with
  | nil =>
    cases hr
    exact h
  | cons input inputs ih =>
    rw [List.foldlM_cons] at hr
    obtain ⟨r₁, hr₁, hr₂⟩ := bind_eq_ok hr
    rw [List.map_cons, List.length_cons, List.range'_succ] at hcycles
    obtain ⟨hfirst, hrest⟩ := List.cons.inj hcycles
    obtain ⟨cycle, values⟩ := input
    obtain rfl : cycle = k := hfirst
    obtain ⟨hfind, hinputs⟩ := List.forall_mem_cons.mp hinputs
    have h' := ih (h.next hp hmain hfind (ht.values _ _ hfind) hr₁) hinputs hrest hr₂
    rwa [Nat.add_right_comm] at h'

theorem initializeExplorer_blank {blank : Coverage} (hmain : g.main = p.main)
    (h : g.initializeExplorer = .ok blank) :
    (∀ l, blank.coveredStatements.find? l ≠ some true) ∧ ∀ l side, ¬blank.Covers l side := by
  obtain ⟨visited, coverage, hbegin, hcoverage, -⟩ := Explorer.exists_initialized p.toShadowProgram
  unfold Engine.initializeExplorer at h
  rw [hmain, hbegin] at h
  cases h
  constructor
  · intro l hl
    cases (hcoverage.statements hl).1
  · rintro l side ⟨sides, hsides, hset⟩
    rw [(hcoverage.branches hsides).1] at hset
    cases side <;> cases hset

end Suites

end Ahorn.Simulator

namespace Ahorn.AnnotatedProgram

open Simulator
open Etfa (TestCase UnitCfg.inputVariables UnitCfg.stateVariables)

variable (p : AnnotatedProgram) (mode : ShadowProcessingMode) (random : ℕ → ℤ) (fuel : ℕ)

section Run

variable {p mode random fuel} {t : TestCase} {history : History}
  {valuations : OrderedMap ℕ (OrderedMap String Value)}

theorem exists_followed (hp : p.HavocFree) (ht : t.Fits (UnitCfg.inputVariables p.main.root))
    (h : Engine.run ⟨p.main, mode, random⟩ fuel t = .ok (history, valuations)) :
    ∃ blank conf₀ r, (∀ l, blank.coveredStatements.find? l ≠ some true) ∧
      (p.version mode).startWith t = .ok conf₀ ∧
      FollowsRecorded p ⟨p.main, mode, random⟩ t blank conf₀
        t.cycleToConcreteInputValuations.entries.length r ∧
      r.simulation.history = history ∧ r.cycleToConcreteStateValuations = valuations := by
  obtain ⟨-, -, blank, context, r, hblank, hcontext, hr, hhistory, hvaluations⟩ := Engine.run_cases h
  obtain ⟨conf₀, hconf₀, hstart⟩ := @Follows.start p ⟨p.main, mode, random⟩ t blank _ _ rfl hcontext
  obtain ⟨hnothing, -⟩ := @initializeExplorer_blank p ⟨p.main, mode, random⟩ blank rfl hblank
  have hbegins : FollowsRecorded p ⟨p.main, mode, random⟩ t blank conf₀ 0
      ⟨0, ⟨⟨context, blank⟩, .empty⟩, .empty⟩ := by
    refine ⟨rfl, ⟨conf₀, hstart⟩, fun l => ?_, fun j => ?_, fun j values hj => ?_⟩
    · exact ⟨fun hl => absurd hl List.not_mem_nil, fun hl => absurd hl (hnothing l)⟩
    · exact ⟨fun hj => absurd hj Bool.false_ne_true, fun hj => absurd hj (Nat.not_lt_zero j)⟩
    · cases hj
  have hends := hbegins.cycles (g := ⟨p.main, mode, random⟩) hp rfl ht
    (fun e he => (OrderedMap.find?_eq_some_iff _ _ _).mpr he) (cycles_eq_range' ht) hr
  rw [Nat.zero_add] at hends
  exact ⟨blank, conf₀, r, hnothing, hconf₀, hends, hhistory, hvaluations⟩

theorem run_values (hp : p.HavocFree) (ht : t.Fits (UnitCfg.inputVariables p.main.root))
    (h : Engine.run ⟨p.main, mode, random⟩ fuel t = .ok (history, valuations)) :
    (∀ k, (valuations.find? k).isSome = true ↔ k ∈ t.cycleToConcreteInputValuations.keys) ∧
    ∀ k values, valuations.find? k = some values → ∃ last, t.Ends (p.version mode) k last ∧
      ∀ x, values.find? x =
        if x ∈ UnitCfg.stateVariables p.main.root then some (last.store x) else none := by
  obtain ⟨blank, conf₀, r, -, hconf₀, hends, -, rfl⟩ := exists_followed hp ht h
  refine ⟨fun k => (hends.valued k).trans (lt_cycles_iff ht), fun k values hk => ?_⟩
  obtain ⟨last, hlast, hvalues⟩ := hends.values k values hk
  exact ⟨last, ⟨conf₀, hconf₀, hlast⟩, hvalues⟩

theorem mem_history_iff (hp : p.HavocFree) (ht : t.Fits (UnitCfg.inputVariables p.main.root))
    (h : Engine.run ⟨p.main, mode, random⟩ fuel t = .ok (history, valuations)) (l : ℤ) :
    l ∈ flattenedLabels history ↔
      ∃ k ∈ t.cycleToConcreteInputValuations.keys, t.Executes (p.version mode) k l := by
  obtain ⟨blank, conf₀, r, hnothing, hconf₀, hends, rfl, -⟩ := exists_followed hp ht h
  obtain ⟨conf, hfollows⟩ := hends.follows
  rw [hends.records l, hfollows.statements l, or_iff_right (hnothing l)]
  constructor
  · rintro ⟨k, hk, hl⟩
    exact ⟨k, (lt_cycles_iff ht).mp hk, conf₀, hconf₀, hl⟩
  · rintro ⟨k, hk, conf', hconf', hl⟩
    rw [hconf₀] at hconf'
    cases hconf'
    exact ⟨k, (lt_cycles_iff ht).mpr hk, hl⟩

end Run

/-- The simulation of a test case is an execution of the version it follows: the state variables have
the values at the ends of its cycles, and its history has the labels it goes through. -/
theorem run_refines (hp : p.HavocFree) {t : TestCase} (ht : t.Fits (UnitCfg.inputVariables p.main.root))
    {history : History} {valuations : OrderedMap ℕ (OrderedMap String Value)}
    (h : Engine.run ⟨p.main, mode, random⟩ fuel t = .ok (history, valuations)) :
    (∀ k, (valuations.find? k).isSome = true ↔ k ∈ t.cycleToConcreteInputValuations.keys) ∧
    (∀ k values, valuations.find? k = some values → ∃ last, t.Ends (p.version mode) k last ∧
      ∀ x, values.find? x =
        if x ∈ UnitCfg.stateVariables p.main.root then some (last.store x) else none) ∧
    ∀ l, l ∈ flattenedLabels history ↔
      ∃ k ∈ t.cycleToConcreteInputValuations.keys, t.Executes (p.version mode) k l :=
  ⟨(run_values hp ht h).1, (run_values hp ht h).2, mem_history_iff hp ht h⟩

end Ahorn.AnnotatedProgram

namespace Ahorn.GuardedChange

open Etfa (UnitCfg.inputVariables)

theorem touching_fits : touching.Fits (UnitCfg.inputVariables program.main.root) := by
  refine ⟨by decide, fun k values hk x => ?_⟩
  obtain ⟨-, rfl⟩ : k = 0 ∧ values = ⟨[("P.a", .bool true), ("P.b", .bool true)], by decide⟩ := by
    have hmem := (OrderedMap.find?_eq_some_iff _ _ _).mp hk
    obtain ⟨hk, hvalues⟩ := Prod.mk.inj (List.mem_singleton.mp hmem)
    exact ⟨hk, hvalues⟩
  rw [← OrderedMap.mem_keys_iff]
  exact Iff.rfl

/-- The new version negates the input. -/
theorem new_negates : ∃ last, touching.Ends (program.version .new) 0 last ∧
    last.store "P.x" = .bool false := by
  have hrun : (Simulator.Engine.run ⟨program.main, .new, fun _ => 0⟩ 10 touching).map (·.2) =
      .ok ⟨[(0, ⟨[("P.x", .bool false)], by decide⟩)], by decide⟩ := by decide +kernel
  cases h : Simulator.Engine.run ⟨program.main, .new, fun _ => 0⟩ 10 touching with
  | error e =>
    rw [h] at hrun
    cases hrun
  | ok r =>
    rw [h] at hrun
    obtain ⟨history, valuations⟩ := r
    obtain rfl : valuations = ⟨[(0, ⟨[("P.x", .bool false)], by decide⟩)], by decide⟩ :=
      Except.ok.inj hrun
    obtain ⟨-, hvalues, -⟩ := program.run_refines .new (fun _ => 0) 10 havocFree touching_fits h
    obtain ⟨last, hlast, hstore⟩ := hvalues 0 _ rfl
    have hx := hstore "P.x"
    rw [if_pos (by decide)] at hx
    exact ⟨last, hlast, (Option.some.inj hx).symm⟩

end Ahorn.GuardedChange

namespace Ahorn.AnnotatedProgram

open Simulator
open Etfa (TestCase UnitCfg.inputVariables)

variable (p : AnnotatedProgram) (mode : ShadowProcessingMode) (random : ℕ → ℤ) (fuel : ℕ)

/-- The coverage of a suite is exact: a statement is covered if and only if the execution of some
test case goes through it in one of its cycles, and a side of a branch if and only if some such
execution takes the branch to where the side leads. -/
theorem runTestCases_covers (hp : p.HavocFree) {ts : List TestCase}
    (hts : ∀ t ∈ ts, t.Fits (UnitCfg.inputVariables p.main.root)) {coverage : Etfa.Coverage}
    (h : Engine.runTestCases ⟨p.main, mode, random⟩ fuel ts = .ok coverage) :
    (∀ l, coverage.coveredStatements.find? l = some true ↔ ∃ t ∈ ts,
      ∃ k ∈ t.cycleToConcreteInputValuations.keys, t.Executes (p.version mode) k l) ∧
    ∀ l side, coverage.Covers l side ↔ ∃ t ∈ ts, ∃ k ∈ t.cycleToConcreteInputValuations.keys,
      ∃ b, t.Takes (p.version mode) k b ∧ b.label = l ∧ LeadsAlike p.main l b.taken side := by
  obtain ⟨blank, hblank, h⟩ := bind_eq_ok h
  obtain ⟨⟨final, drawn⟩, hfold, h⟩ := bind_eq_ok h
  cases h
  obtain ⟨hnothing, hnone⟩ := @initializeExplorer_blank p ⟨p.main, mode, random⟩ blank rfl hblank
  obtain ⟨hstatements, hbranches, -⟩ := foldlM_runTestCase_covers
    (g := ⟨p.main, mode, random⟩) hp rfl hts hfold
  refine ⟨fun l => ?_, fun l side => ?_⟩
  · rw [hstatements l, or_iff_right (hnothing l)]
  · rw [hbranches l side, or_iff_right (hnone l side)]

end Ahorn.AnnotatedProgram

namespace Ahorn.GuardedChange

/-- The change is covered because the test case executes it. -/
theorem touching_covers : ∃ coverage,
    Simulator.Engine.runTestCases ⟨program.main, .old, fun _ => 0⟩ 10 [touching] = .ok coverage ∧
      coverage.Covers 1 true ∧ ∃ k b, touching.Takes (program.version .old) k b ∧ b.label = 1 ∧
        Simulator.LeadsAlike program.main 1 b.taken true := by
  have hrun : (Simulator.Engine.runTestCases ⟨program.main, .old, fun _ => 0⟩ 10 [touching]).map
      (·.coveredBranches.find? 1) = .ok (some (true, false)) := by decide +kernel
  cases h : Simulator.Engine.runTestCases ⟨program.main, .old, fun _ => 0⟩ 10 [touching] with
  | error e =>
    rw [h] at hrun
    cases hrun
  | ok coverage =>
    rw [h] at hrun
    have hcovers : coverage.Covers 1 true := ⟨_, Except.ok.inj hrun, rfl⟩
    obtain ⟨-, hbranches⟩ := program.runTestCases_covers .old (fun _ => 0) 10 havocFree
      (List.forall_mem_singleton.mpr touching_fits) h
    obtain ⟨t, ht, k, -, b, hb⟩ := (hbranches 1 true).mp hcovers
    obtain rfl := List.mem_singleton.mp ht
    exact ⟨coverage, rfl, hcovers, k, b, hb⟩

end Ahorn.GuardedChange
