import Ahorn.SimulatedVersions

set_option autoImplicit false

/-!
# Test cases that traverse a change

The engine completes the test cases it is given with default values, simulates the old version on
them and keeps those that execute an annotated label. The others cannot tell the versions apart.
-/
namespace Ahorn.Shadow

open Simulator (History flattenedLabels makeDefaultValue)

/-- A test case with what its simulation has recorded. -/
structure TestCase extends Etfa.TestCase where
  executionHistory : Option History
  cycleToConcreteStateValuations : Option (OrderedMap ℕ (OrderedMap String Value))

namespace Engine

/-- Give an input its default value in the cycles in which it has none. -/
def augmentInput (flattenedName : String) (dataType : DataType) :
    List ℕ → Etfa.TestCase → Except String Etfa.TestCase
  | [], t => .ok t
  | cycle :: cycles, t =>
    match t.cycleToConcreteInputValuations.find? cycle with
    | none => .error "map::at"
    | some values =>
      match values.find? flattenedName with
      | some _ => augmentInput flattenedName dataType cycles t
      | none => do
        let value ← makeDefaultValue dataType
        augmentInput flattenedName dataType cycles { t with
          cycleToConcreteInputValuations :=
            t.cycleToConcreteInputValuations.assign cycle (values.emplace flattenedName value) }

def augmentVariable (wholeProgramInputs : List String) (t : Etfa.TestCase)
    (flattened : String × Variable) : Except String Etfa.TestCase :=
  if flattened.1 ∈ wholeProgramInputs then
    match t.cycleToConcreteInputValuations.last? with
    | none => .error "rbegin of an empty map"
    | some (last, _) =>
      augmentInput flattened.1 flattened.2.dataType (List.range (last + 1)) t
  else
    match t.initialConcreteStateValuations.find? flattened.1 with
    | some _ => .ok t
    | none => do
      let value ← makeDefaultValue flattened.2.dataType
      .ok { t with
        initialConcreteStateValuations :=
          t.initialConcreteStateValuations.emplace flattened.1 value }

/-- Give variables that the test case does not know their default values. -/
def augment (main : CallTree UnitCfg) (t : Etfa.TestCase) : Except String Etfa.TestCase :=
  main.root.flattenedInterface.entries.foldlM
    (augmentVariable (Etfa.UnitCfg.inputVariables main.root)) t

/-- The test case with what is recorded of the old version, if that executes an annotated label. -/
def collect (main : CallTree UnitCfg) (labels : Finset ℤ) (fuel : ℕ) (random : ℕ → ℤ)
    (t : Etfa.TestCase) : Except String (List TestCase) := do
  let (history, valuations) ← Simulator.Engine.run ⟨main, .old, random⟩ fuel t
  if ∃ l ∈ flattenedLabels history, l ∈ labels then
    .ok [⟨t, some history, some valuations⟩]
  else .ok []

/-- The random numbers of a simulation go on where those of the one before have ended, so they are
given for each test case. -/
def collectAll (main : CallTree UnitCfg) (labels : Finset ℤ) (fuel : ℕ) (random : ℕ → ℕ → ℤ) :
    ℕ → List Etfa.TestCase → Except String (List TestCase)
  | _, [] => .ok []
  | i, t :: ts => do
    let collected ← collect main labels fuel (random i) t
    let rest ← collectAll main labels fuel random (i + 1) ts
    .ok (collected ++ rest)

def collectChangeTraversingTestCases (main : CallTree UnitCfg) (fuel : ℕ) (random : ℕ → ℕ → ℤ)
    (testCases : List Etfa.TestCase) : Except String (List TestCase) := do
  let labels ← ChangeAnnotationCollectionPass.apply true main
  let testCases ← testCases.mapM (augment main)
  collectAll main labels fuel random 0 testCases

end Engine

end Ahorn.Shadow

namespace Ahorn.Simulator

open Etfa (TestCase UnitCfg.inputVariables)

/-- The inputs have values in all cycles, which are counted from the given one on, if there are
any inputs. -/
def SuppliesAll (inputs : List String) (cycle : ℕ)
    (valuations : List (ℕ × OrderedMap String Value)) : Prop :=
  inputs = [] ∨ valuations.map Prod.fst = List.range' cycle valuations.length ∧
    ∀ e ∈ valuations, ∀ x ∈ inputs, ∃ value, e.2.find? x = some value

namespace Engine

variable {g g' : Engine} {fuel : ℕ} {r r₁ r' : Recording}

theorem recordCycles_history {inputs : List (ℕ × OrderedMap String Value)}
    (h : inputs.foldlM (g.recordCycle fuel) r = .ok r₁) :
    flattenedLabels r.simulation.history ⊆ flattenedLabels r₁.simulation.history := by
  refine foldlM_preserves (P := fun r₂ => flattenedLabels r.simulation.history ⊆
    flattenedLabels r₂.simulation.history) (fun input _ r₂ r₃ hr₂ hr₃ => ?_)
    (List.Subset.refl _) h
  exact fun l hl => recordCycle_history hr₃ (hr₂ hl)

theorem recordCycles_alike {inputs : List (ℕ × OrderedMap String Value)} (hmain : g'.main = g.main)
    (h : AlikeRecording g.executor.wholeProgramInputs r r')
    (hplaced : Placed g.main r.simulation.context.toContext)
    (hsupplied : SuppliesAll g.executor.wholeProgramInputs r.cycle inputs)
    (hr : inputs.foldlM (g.recordCycle fuel) r = .ok r₁)
    (hlabels : ∀ l ∈ flattenedLabels r₁.simulation.history, Harmless g.main l) :
    ∃ r₁', inputs.foldlM (g'.recordCycle fuel) r' = .ok r₁' ∧
      AlikeRecording g.executor.wholeProgramInputs r₁ r₁' := by
  induction inputs generalizing r r' with
  | nil =>
    cases hr
    exact ⟨r', rfl, h⟩
  | cons input inputs ih =>
    rw [List.foldlM_cons] at hr
    obtain ⟨r₂, hr₂, hr⟩ := bind_eq_ok hr
    have hhead : g.executor.wholeProgramInputs = [] ∨
        Supplies g.executor.wholeProgramInputs r.cycle input := by
      refine hsupplied.imp_right fun hsupplied => ?_
      have hkeys := hsupplied.1
      rw [List.map_cons, List.length_cons, List.range'_succ] at hkeys
      exact ⟨(List.cons.inj hkeys).1, hsupplied.2 input List.mem_cons_self⟩
    obtain ⟨hplaced₂, hcycle₂, r₂', hr₂', h₂⟩ := recordCycle_alike hmain h hplaced hhead hr₂
      fun l hl => hlabels l (recordCycles_history hr hl)
    have hrest : SuppliesAll g.executor.wholeProgramInputs r₂.cycle inputs := by
      refine hsupplied.imp_right fun hsupplied => ?_
      have hkeys := hsupplied.1
      rw [List.map_cons, List.length_cons, List.range'_succ] at hkeys
      rw [hcycle₂]
      exact ⟨(List.cons.inj hkeys).2, fun e he => hsupplied.2 e (List.mem_cons_of_mem _ he)⟩
    obtain ⟨r₁', hr₁', h₁⟩ := ih h₂ hplaced₂ hrest hr
    refine ⟨r₁', ?_, h₁⟩
    rw [List.foldlM_cons, hr₂']
    exact hr₁'

theorem run_alike {t : TestCase} {history : History}
    {valuations : OrderedMap ℕ (OrderedMap String Value)} (hmain : g'.main = g.main)
    (hsupplied : SuppliesAll g.executor.wholeProgramInputs 0 t.cycleToConcreteInputValuations.entries)
    (h : g.run fuel t = .ok (history, valuations))
    (hlabels : ∀ l ∈ flattenedLabels history, Harmless g.main l) :
    g'.run fuel t = .ok (history, valuations) := by
  have hbegin : g'.initializeExplorer = g.initializeExplorer ∧
      ∀ initial, g'.initializeFromConcreteValuation initial 0 =
        g.initializeFromConcreteValuation initial 0 := by
    obtain ⟨main, mode, random⟩ := g
    obtain ⟨main', mode', random'⟩ := g'
    cases hmain
    have hvaluations : ∀ initial entries valuations,
        initialValuations ⟨main, mode', random'⟩ initial entries valuations =
          initialValuations ⟨main, mode, random⟩ initial entries valuations := by
      intro initial entries valuations
      induction entries generalizing valuations with
      | nil => rfl
      | cons e entries ih =>
        unfold initialValuations
        simp only [ih]
        rfl
    refine ⟨rfl, fun initial => ?_⟩
    unfold initializeFromConcreteValuation
    rw [hvaluations]
    rfl
  obtain ⟨hinitial, hinputs, coverage, context, r, hcoverage, hcontext, hr, rfl, rfl⟩ := run_cases h
  have hstart := initializeFromConcreteValuation_context hcontext
  have hplaced : Placed g.main context.toContext := by
    rw [hstart]
    exact placed_initialContext
  have halike : AlikeRecording g.executor.wholeProgramInputs
      ⟨0, ⟨⟨context, coverage⟩, .empty⟩, .empty⟩ ⟨0, ⟨⟨context, coverage⟩, .empty⟩, .empty⟩ := by
    refine ⟨rfl, ⟨⟨rfl, fun _ => rfl, fun _ _ => rfl⟩, rfl, rfl⟩, rfl, ?_⟩
    change context.cycle = 0
    rw [hstart]
    rfl
  obtain ⟨r', hr', hrecorded⟩ := recordCycles_alike hmain halike hplaced hsupplied hr hlabels
  rw [run_of_cases hinitial hinputs (hbegin.1.trans hcoverage)
    ((hbegin.2 _).trans hcontext) hr', hrecorded.simulation.history, hrecorded.valuations]

end Engine

end Ahorn.Simulator

namespace Ahorn.Shadow.Engine

open Simulator (SuppliesAll flattenedLabels Harmless)

section Augment

variable {t t' t'' : Etfa.TestCase} {inputs : List String} {x : String} {k last : ℕ}

/-- A test case with the same cycles and at least the same input values. -/
structure Extends (t t' : Etfa.TestCase) : Prop where
  isSome : ∀ k, (t'.cycleToConcreteInputValuations.find? k).isSome =
    (t.cycleToConcreteInputValuations.find? k).isSome
  keeps : ∀ k values, t.cycleToConcreteInputValuations.find? k = some values →
    ∃ values', t'.cycleToConcreteInputValuations.find? k = some values' ∧
      ∀ x v, values.find? x = some v → values'.find? x = some v

/-- An input has a value in a cycle. -/
def Supplied (t : Etfa.TestCase) (x : String) (k : ℕ) : Prop :=
  ∃ values v, t.cycleToConcreteInputValuations.find? k = some values ∧ values.find? x = some v

/-- The last cycle of a test case. -/
def IsLast (t : Etfa.TestCase) (last : ℕ) : Prop :=
  (t.cycleToConcreteInputValuations.find? last).isSome = true ∧
    ∀ k, (t.cycleToConcreteInputValuations.find? k).isSome = true → k ≤ last

theorem Extends.refl (t : Etfa.TestCase) : Extends t t :=
  ⟨fun _ => rfl, fun _ values h => ⟨values, h, fun _ _ hv => hv⟩⟩

theorem Extends.trans (h : Extends t t') (h' : Extends t' t'') : Extends t t'' := by
  refine ⟨fun k => (h'.isSome k).trans (h.isSome k), fun k values hk => ?_⟩
  obtain ⟨values', hk', hkeeps⟩ := h.keeps k values hk
  obtain ⟨values'', hk'', hkeeps'⟩ := h'.keeps k values' hk'
  exact ⟨values'', hk'', fun x v hv => hkeeps' x v (hkeeps x v hv)⟩

theorem Supplied.extends (hx : Supplied t x k) (h : Extends t t') : Supplied t' x k := by
  obtain ⟨values, v, hk, hv⟩ := hx
  obtain ⟨values', hk', hkeeps⟩ := h.keeps k values hk
  exact ⟨values', v, hk', hkeeps x v hv⟩

theorem Extends.isLast_iff (h : Extends t t') : IsLast t' last ↔ IsLast t last := by
  unfold IsLast
  simp only [h.isSome]

theorem augmentInput_spec {dataType : DataType} {cycles : List ℕ}
    (h : augmentInput x dataType cycles t = .ok t') :
    Extends t t' ∧ ∀ k ∈ cycles, Supplied t' x k := by
  induction cycles generalizing t with
  | nil =>
    cases h
    exact ⟨.refl _, fun k hk => absurd hk List.not_mem_nil⟩
  | cons cycle cycles ih =>
    unfold augmentInput at h
    cases hcycle : t.cycleToConcreteInputValuations.find? cycle with
    | none =>
      rw [hcycle] at h
      cases h
    | some values =>
      rw [hcycle] at h
      dsimp only at h
      cases hx : values.find? x with
      | some v =>
        rw [hx] at h
        obtain ⟨hextends, hsupplied⟩ := ih h
        exact ⟨hextends, List.forall_mem_cons.mpr
          ⟨Supplied.extends ⟨values, v, hcycle, hx⟩ hextends, hsupplied⟩⟩
      | none =>
        rw [hx] at h
        obtain ⟨value, -, h⟩ := bind_eq_ok h
        obtain ⟨hextends, hsupplied⟩ := ih h
        have hassign : Extends t { t with
            cycleToConcreteInputValuations :=
              t.cycleToConcreteInputValuations.assign cycle (values.emplace x value) } := by
          constructor
          · intro k
            rw [OrderedMap.find?_assign]
            split_ifs with hk
            · rw [hk, hcycle]
              rfl
            · rfl
          · intro k values' hk
            rw [OrderedMap.find?_assign]
            split_ifs with heq
            · rw [heq, hcycle] at hk
              cases hk
              refine ⟨_, rfl, fun y v hv => ?_⟩
              rw [OrderedMap.find?_emplace_ne _ _ fun hy => ?_]
              · exact hv
              · rw [hy, hx] at hv
                cases hv
            · exact ⟨values', hk, fun _ _ hv => hv⟩
        refine ⟨hassign.trans hextends, List.forall_mem_cons.mpr ⟨?_, hsupplied⟩⟩
        refine Supplied.extends ⟨values.emplace x value, value, ?_, ?_⟩ hextends
        · rw [OrderedMap.find?_assign, if_pos rfl]
        · exact OrderedMap.find?_emplace_self value hx

theorem isLast_of_last? {values : OrderedMap String Value}
    (h : t.cycleToConcreteInputValuations.last? = some (last, values)) : IsLast t last := by
  refine ⟨?_, fun k hk => ?_⟩
  · rw [OrderedMap.find?_of_last? h]
    rfl
  · obtain ⟨values', hk⟩ := Option.isSome_iff_exists.mp hk
    have hmem := (t.cycleToConcreteInputValuations.find?_eq_some_iff k values').mp hk
    have hsorted := t.cycleToConcreteInputValuations.sorted
    unfold OrderedMap.last? at h
    obtain ⟨init, hinit⟩ := List.getLast?_eq_some_iff.mp h
    rw [hinit] at hmem hsorted
    rcases List.mem_append.mp hmem with hmem | hmem
    · exact Nat.le_of_lt ((List.pairwise_append.mp hsorted).2.2 _ hmem _ List.mem_cons_self)
    · rw [(Prod.mk.inj (List.mem_singleton.mp hmem)).1]

theorem augmentVariable_spec {e : String × Variable} (h : augmentVariable inputs t e = .ok t') :
    Extends t t' ∧ (e.1 ∈ inputs → ∃ last, IsLast t last ∧ ∀ k ≤ last, Supplied t' e.1 k) := by
  unfold augmentVariable at h
  by_cases hinput : e.1 ∈ inputs
  · rw [if_pos hinput] at h
    cases hlast : t.cycleToConcreteInputValuations.last? with
    | none =>
      rw [hlast] at h
      cases h
    | some l =>
      rw [hlast] at h
      obtain ⟨hextends, hsupplied⟩ := augmentInput_spec h
      exact ⟨hextends, fun _ => ⟨l.1, isLast_of_last? hlast, fun k hk =>
        hsupplied k (List.mem_range.mpr (Nat.lt_succ_of_le hk))⟩⟩
  · rw [if_neg hinput] at h
    refine ⟨?_, fun hmem => absurd hmem hinput⟩
    cases hinitial : t.initialConcreteStateValuations.find? e.1 with
    | some v =>
      rw [hinitial] at h
      cases h
      exact .refl t
    | none =>
      rw [hinitial] at h
      obtain ⟨value, -, h⟩ := bind_eq_ok h
      cases h
      exact ⟨fun _ => rfl, fun _ values hk => ⟨values, hk, fun _ _ hv => hv⟩⟩

theorem augmentVariables_spec {entries : List (String × Variable)}
    (h : entries.foldlM (augmentVariable inputs) t = .ok t') :
    Extends t t' ∧ ∀ e ∈ entries, e.1 ∈ inputs → ∃ last, IsLast t last ∧
      ∀ k ≤ last, Supplied t' e.1 k := by
  induction entries generalizing t with
  | nil =>
    cases h
    exact ⟨.refl _, fun e he => absurd he List.not_mem_nil⟩
  | cons e entries ih =>
    rw [List.foldlM_cons] at h
    obtain ⟨t₁, ht₁, h⟩ := bind_eq_ok h
    obtain ⟨hextends, hsupplied⟩ := augmentVariable_spec ht₁
    obtain ⟨hextends', hrest⟩ := ih h
    refine ⟨hextends.trans hextends', List.forall_mem_cons.mpr ⟨fun hinput => ?_, fun e he hinput => ?_⟩⟩
    · obtain ⟨last, hlast, hall⟩ := hsupplied hinput
      exact ⟨last, hlast, fun k hk => (hall k hk).extends hextends'⟩
    · obtain ⟨last, hlast, hall⟩ := hrest e he hinput
      exact ⟨last, hextends.isLast_iff.mp hlast, hall⟩

/-- After the augmentation all inputs have values in all cycles. -/
theorem augment_supplies {main : CallTree UnitCfg}
    (hinputs : ∀ x ∈ Etfa.UnitCfg.inputVariables main.root, x ∈ main.root.flattenedInterface.keys)
    (h : augment main t = .ok t') :
    SuppliesAll (Etfa.UnitCfg.inputVariables main.root) 0 t'.cycleToConcreteInputValuations.entries := by
  obtain ⟨hextends, hall⟩ := augmentVariables_spec h
  have hsupplied : ∀ x ∈ Etfa.UnitCfg.inputVariables main.root,
      ∃ last, IsLast t' last ∧ ∀ k ≤ last, Supplied t' x k := by
    intro x hx
    obtain ⟨v, hv⟩ := OrderedMap.mem_keys_iff.mp (hinputs x hx)
    obtain ⟨last, hlast, hk⟩ := hall (x, v) ((OrderedMap.find?_eq_some_iff _ _ _).mp hv) hx
    exact ⟨last, hextends.isLast_iff.mpr hlast, hk⟩
  unfold SuppliesAll
  by_cases hnil : Etfa.UnitCfg.inputVariables main.root = []
  · exact Or.inl hnil
  · right
    obtain ⟨x, hx⟩ := List.exists_mem_of_ne_nil _ hnil
    obtain ⟨last, hlast, hk⟩ := hsupplied x hx
    have hkeys : t'.cycleToConcreteInputValuations.keys = List.range (last + 1) := by
      have hmem : ∀ k, k ∈ t'.cycleToConcreteInputValuations.keys ↔ k ∈ List.range (last + 1) := by
        intro k
        rw [OrderedMap.mem_keys_iff, List.mem_range, Nat.lt_succ_iff]
        constructor
        · rintro ⟨values, hvalues⟩
          refine hlast.2 k ?_
          rw [hvalues]
          rfl
        · intro hle
          obtain ⟨values, -, hvalues, -⟩ := hk k hle
          exact ⟨values, hvalues⟩
      have hsorted := t'.cycleToConcreteInputValuations.keys_sorted
      have hnodup : t'.cycleToConcreteInputValuations.keys.Nodup := hsorted.imp fun h => h.ne
      exact ((List.perm_ext_iff_of_nodup hnodup List.nodup_range).mpr hmem).eq_of_pairwise
        (fun a b _ _ hab hba => absurd hab hba.asymm) hsorted List.pairwise_lt_range
    constructor
    · have hlength : t'.cycleToConcreteInputValuations.entries.length = last + 1 := by
        have hlengths := congrArg List.length hkeys
        rwa [OrderedMap.keys, List.length_map, List.length_range] at hlengths
      rw [hlength, ← List.range_eq_range']
      exact hkeys
    · intro e he y hy
      obtain ⟨last', hlast', hk'⟩ := hsupplied y hy
      have hfind := (t'.cycleToConcreteInputValuations.find?_eq_some_iff e.1 e.2).mpr he
      have hle : e.1 ≤ last' := by
        refine hlast'.2 e.1 ?_
        rw [hfind]
        rfl
      obtain ⟨values, v, hvalues, hv⟩ := hk' e.1 hle
      rw [hfind] at hvalues
      cases hvalues
      exact ⟨v, hv⟩

end Augment

section Collect

variable {main : CallTree UnitCfg} {labels : Finset ℤ} {fuel i : ℕ} {random : ℕ → ℕ → ℤ}
  {collected : List TestCase} {ts : List Etfa.TestCase}

theorem collectAll_spec (h : collectAll main labels fuel random i ts = .ok collected) :
    (∀ t ∈ ts, ∃ i history valuations,
      Simulator.Engine.run ⟨main, .old, random i⟩ fuel t = .ok (history, valuations) ∧
      ((∃ l ∈ flattenedLabels history, l ∈ labels) →
        (⟨t, some history, some valuations⟩ : TestCase) ∈ collected)) ∧
    ∀ c ∈ collected, c.toTestCase ∈ ts ∧ ∃ i history valuations,
      Simulator.Engine.run ⟨main, .old, random i⟩ fuel c.toTestCase = .ok (history, valuations) ∧
      c.executionHistory = some history ∧ c.cycleToConcreteStateValuations = some valuations ∧
      ∃ l ∈ flattenedLabels history, l ∈ labels := by
  induction ts generalizing i collected with
  | nil =>
    cases h
    exact ⟨fun t ht => absurd ht List.not_mem_nil, fun c hc => absurd hc List.not_mem_nil⟩
  | cons t ts ih =>
    obtain ⟨first, hfirst, h⟩ := bind_eq_ok h
    obtain ⟨rest, hrest, h⟩ := bind_eq_ok h
    cases h
    obtain ⟨hall, hcollected⟩ := ih hrest
    obtain ⟨⟨history, valuations⟩, hrun, hfirst⟩ := bind_eq_ok hfirst
    constructor
    · refine List.forall_mem_cons.mpr ⟨⟨i, history, valuations, hrun, fun htouched => ?_⟩, fun t' ht' => ?_⟩
      · dsimp only at hfirst
        rw [if_pos htouched] at hfirst
        cases hfirst
        exact List.mem_append_left _ List.mem_cons_self
      · obtain ⟨j, history', valuations', hrun', htouched⟩ := hall t' ht'
        exact ⟨j, history', valuations', hrun', fun hl => List.mem_append_right _ (htouched hl)⟩
    · intro c hc
      rcases List.mem_append.mp hc with hc | hc
      · by_cases htouched : ∃ l ∈ flattenedLabels history, l ∈ labels
        · dsimp only at hfirst
          rw [if_pos htouched] at hfirst
          cases hfirst
          rw [List.mem_singleton.mp hc]
          exact ⟨List.mem_cons_self, i, history, valuations, hrun, rfl, rfl, htouched⟩
        · dsimp only at hfirst
          rw [if_neg htouched] at hfirst
          cases hfirst
          cases hc
      · obtain ⟨hmem, hc⟩ := hcollected c hc
        exact ⟨List.mem_cons_of_mem _ hmem, hc⟩

end Collect

end Ahorn.Shadow.Engine

namespace Ahorn.AnnotatedProgram

open Shadow.Engine (augment collectChangeTraversingTestCases)
open Simulator (flattenedLabels Harmless)

theorem harmless (p : AnnotatedProgram) (hp : p.HavocFree) {labels : Finset ℤ}
    (h : ChangeAnnotationCollectionPass.apply true p.main = .ok labels) {l : ℤ} (hl : l ∉ labels) :
    Harmless p.main l := by
  intro t v i ht hv htype hi
  refine ⟨p.containsChangeExpression_eq_false h ht hv htype hi hl, ?_⟩
  rintro r rfl
  exact hp t l v r ht hv hi

/-- The collected test cases are those whose simulation of the old version has executed an annotated
label. Every other test case has, in both versions and for all random numbers, the same history and
the same values of the state variables, so no test case that tells the versions apart is left out. -/
theorem collects_revealing (p : AnnotatedProgram) (hp : p.HavocFree) {fuel : ℕ} {random : ℕ → ℕ → ℤ}
    {testCases : List Etfa.TestCase} {collected : List Shadow.TestCase}
    (h : collectChangeTraversingTestCases p.main fuel random testCases = .ok collected) :
    ∃ labels, ChangeAnnotationCollectionPass.apply true p.main = .ok labels ∧
      (∀ t ∈ testCases, ∃ t' history valuations, augment p.main t = .ok t' ∧
        (∃ i, Simulator.Engine.run ⟨p.main, .old, random i⟩ fuel t' = .ok (history, valuations)) ∧
        ((⟨t', some history, some valuations⟩ : Shadow.TestCase) ∈ collected ∨
          (∀ l ∈ flattenedLabels history, l ∉ labels) ∧
          ∀ mode random,
            Simulator.Engine.run ⟨p.main, mode, random⟩ fuel t' = .ok (history, valuations))) ∧
      ∀ c ∈ collected, ∃ t ∈ testCases, augment p.main t = .ok c.toTestCase ∧
        ∃ i history valuations,
          Simulator.Engine.run ⟨p.main, .old, random i⟩ fuel c.toTestCase = .ok (history, valuations) ∧
          c.executionHistory = some history ∧ c.cycleToConcreteStateValuations = some valuations ∧
          ∃ l ∈ flattenedLabels history, l ∈ labels := by
  obtain ⟨labels, hlabels, h⟩ := bind_eq_ok h
  obtain ⟨augmented, haugmented, h⟩ := bind_eq_ok h
  obtain ⟨hall, hcollected⟩ := Shadow.Engine.collectAll_spec h
  have hboth := forall₂_of_mapM haugmented
  refine ⟨labels, hlabels, fun t ht => ?_, fun c hc => ?_⟩
  · obtain ⟨t', ht', haugment⟩ := exists_of_forall₂ hboth ht
    obtain ⟨i, history, valuations, hrun, htouched⟩ := hall t' ht'
    refine ⟨t', history, valuations, haugment, ⟨i, hrun⟩, ?_⟩
    by_cases hl : ∃ l ∈ flattenedLabels history, l ∈ labels
    · exact Or.inl (htouched hl)
    · have huntouched : ∀ l ∈ flattenedLabels history, l ∉ labels := fun l hmem hin =>
        hl ⟨l, hmem, hin⟩
      refine Or.inr ⟨huntouched, fun mode random' => ?_⟩
      exact Simulator.Engine.run_alike (g := ⟨p.main, .old, random i⟩) rfl
        (Shadow.Engine.augment_supplies p.inputs haugment) hrun
        fun l hmem => p.harmless hp hlabels (huntouched l hmem)
  · obtain ⟨hmem, hrun⟩ := hcollected c hc
    obtain ⟨t, ht, haugment⟩ := exists_of_mem_mapM haugmented hmem
    exact ⟨t, ht, haugment, hrun⟩

end Ahorn.AnnotatedProgram

namespace Ahorn.GuardedChange

open Shadow.Engine (augment collectChangeTraversingTestCases)

/-- The test case that executes the change is collected; the other one cannot tell the versions
apart. -/
theorem collects_touching :
    ∃ collected, collectChangeTraversingTestCases program.main 10 (fun _ _ => 0) [touching, passing] =
        .ok collected ∧
      collected.map (·.toTestCase) = [touching] ∧ ∃ history valuations, ∀ mode random,
        Simulator.Engine.run ⟨program.main, mode, random⟩ 10 passing = .ok (history, valuations) := by
  have hcollects : (collectChangeTraversingTestCases program.main 10 (fun _ _ => 0)
      [touching, passing]).map (List.map (·.toTestCase)) = .ok [touching] := by decide +kernel
  have haugment : augment program.main passing = .ok passing := by decide +kernel
  cases h : collectChangeTraversingTestCases program.main 10 (fun _ _ => 0) [touching, passing] with
  | error e =>
    rw [h] at hcollects
    cases hcollects
  | ok collected =>
    rw [h] at hcollects
    have htouching : collected.map (·.toTestCase) = [touching] := Except.ok.inj hcollects
    refine ⟨collected, rfl, htouching, ?_⟩
    obtain ⟨labels, -, hall, -⟩ := program.collects_revealing havocFree h
    obtain ⟨t, history, valuations, ht, -, hpassing⟩ :=
      hall passing (List.mem_cons_of_mem _ List.mem_cons_self)
    rw [haugment] at ht
    cases ht
    rcases hpassing with hmem | ⟨-, hsame⟩
    · have hpassing : passing ∈ collected.map (·.toTestCase) :=
        List.mem_map_of_mem (f := Shadow.TestCase.toTestCase) hmem
      rw [htouching] at hpassing
      exact absurd hpassing (by decide)
    · exact ⟨history, valuations, hsame⟩

end Ahorn.GuardedChange
