import Ahorn.ChangeTraversal
import Ahorn.SimulatedTestCases

set_option autoImplicit false

/-!
# Output differences

The engine simulates the new version on its test cases and compares the values of the state variables
with those of the old version, cycle by cycle. It reports the test cases that tell the versions
apart.
-/
namespace Ahorn.Shadow.Engine

def valuesDiffer (new : Option (OrderedMap String Value)) :
    List (String × Value) → Except String Bool
  | [] => .ok false
  | (flattenedName, value) :: values =>
    match new with
    | none => .error "map::at"
    | some valuation =>
      match valuation.find? flattenedName with
      | none => .error "map::at"
      | some value' => if value = value' then valuesDiffer new values else .ok true

def cyclesDiffer (new : OrderedMap ℕ (OrderedMap String Value)) :
    List (ℕ × OrderedMap String Value) → Except String Bool
  | [] => .ok false
  | (cycle, values) :: cycles => do
    let differ ← valuesDiffer (new.find? cycle) values.entries
    if differ then .ok true else cyclesDiffer new cycles

/-- The test case of the new version, where its values differ from those that are recorded. -/
def checkForOutputDifference (main : CallTree UnitCfg) (fuel : ℕ) (random : ℕ → ℤ) (t : TestCase) :
    Except String (List (TestCase × TestCase)) := do
  let (history, new) ← Simulator.Engine.run ⟨main, .new, random⟩ fuel t.toTestCase
  match t.cycleToConcreteStateValuations with
  | none => .error "assertion failed"
  | some old =>
    if new.entries.length = old.entries.length then do
      let differ ← cyclesDiffer new old.entries
      .ok (if differ then [(t, ⟨t.toTestCase, some history, some new⟩)] else [])
    else .error "assertion failed"

def checkForOutputDifferences (main : CallTree UnitCfg) (fuel : ℕ) (random : ℕ → ℕ → ℤ) :
    ℕ → List TestCase → Except String (List (TestCase × TestCase))
  | _, [] => .ok []
  | i, t :: ts => do
    let revealing ← checkForOutputDifference main fuel (random i) t
    let rest ← checkForOutputDifferences main fuel random (i + 1) ts
    .ok (revealing ++ rest)

section Compare

variable {new : OrderedMap ℕ (OrderedMap String Value)} {differ : Bool}

theorem valuesDiffer_iff {new : Option (OrderedMap String Value)} {values : List (String × Value)}
    (h : valuesDiffer new values = .ok differ) : differ = true ↔
      ∃ valuation, new = some valuation ∧ ∃ e ∈ values, ∃ value', valuation.find? e.1 = some value' ∧
        e.2 ≠ value' := by
  induction values with
  | nil =>
    cases h
    exact ⟨fun h => absurd h Bool.false_ne_true, fun ⟨_, _, e, he, _⟩ => absurd he List.not_mem_nil⟩
  | cons e values ih =>
    unfold valuesDiffer at h
    cases new with
    | none => cases h
    | some valuation =>
      dsimp only at h
      cases hfind : valuation.find? e.1 with
      | none =>
        rw [hfind] at h
        cases h
      | some value' =>
        rw [hfind] at h
        dsimp only at h
        by_cases hsame : e.2 = value'
        · rw [if_pos hsame] at h
          rw [ih h]
          constructor
          · rintro ⟨valuation', hnew, e', he', hdiffer⟩
            exact ⟨valuation', hnew, e', List.mem_cons_of_mem _ he', hdiffer⟩
          · rintro ⟨valuation', hnew, e', he', value'', hfind', hne⟩
            cases hnew
            rcases List.mem_cons.mp he' with rfl | he'
            · rw [hfind] at hfind'
              exact absurd (hsame.trans (Option.some.inj hfind')) hne
            · exact ⟨valuation, rfl, e', he', value'', hfind', hne⟩
        · rw [if_neg hsame] at h
          cases h
          exact ⟨fun _ => ⟨valuation, rfl, e, List.mem_cons_self, value', hfind, hsame⟩, fun _ => rfl⟩

theorem cyclesDiffer_iff {cycles : List (ℕ × OrderedMap String Value)}
    (h : cyclesDiffer new cycles = .ok differ) : differ = true ↔
      ∃ e ∈ cycles, ∃ valuation, new.find? e.1 = some valuation ∧
        ∃ e' ∈ e.2.entries, ∃ value', valuation.find? e'.1 = some value' ∧ e'.2 ≠ value' := by
  induction cycles with
  | nil =>
    cases h
    exact ⟨fun h => absurd h Bool.false_ne_true, fun ⟨e, he, _⟩ => absurd he List.not_mem_nil⟩
  | cons e cycles ih =>
    obtain ⟨first, hfirst, h⟩ := bind_eq_ok h
    have hhead := valuesDiffer_iff hfirst
    rw [List.exists_mem_cons_iff]
    cases first with
    | true =>
      cases h
      exact ⟨fun _ => Or.inl (hhead.mp rfl), fun _ => rfl⟩
    | false =>
      have hnot := mt hhead.mpr Bool.false_ne_true
      rw [or_iff_right hnot]
      exact ih h

end Compare

section Check

variable {main : CallTree UnitCfg} {fuel i : ℕ} {random : ℕ → ℕ → ℤ}
  {revealing : List (TestCase × TestCase)} {ts : List TestCase}

/-- Each test case has been simulated in the new version; it is reported if some value differs. -/
theorem checkForOutputDifferences_spec
    (h : checkForOutputDifferences main fuel random i ts = .ok revealing) :
    (∀ t ∈ ts, ∃ i history new old differ,
      Simulator.Engine.run ⟨main, .new, random i⟩ fuel t.toTestCase = .ok (history, new) ∧
      t.cycleToConcreteStateValuations = some old ∧ cyclesDiffer new old.entries = .ok differ ∧
      (differ = true → (t, ⟨t.toTestCase, some history, some new⟩) ∈ revealing)) ∧
    ∀ r ∈ revealing, r.1 ∈ ts ∧ ∃ i history new old,
      Simulator.Engine.run ⟨main, .new, random i⟩ fuel r.1.toTestCase = .ok (history, new) ∧
      r.1.cycleToConcreteStateValuations = some old ∧ cyclesDiffer new old.entries = .ok true ∧
      r.2 = ⟨r.1.toTestCase, some history, some new⟩ := by
  induction ts generalizing i revealing with
  | nil =>
    cases h
    exact ⟨fun t ht => absurd ht List.not_mem_nil, fun r hr => absurd hr List.not_mem_nil⟩
  | cons t ts ih =>
    obtain ⟨first, hfirst, h⟩ := bind_eq_ok h
    obtain ⟨rest, hrest, h⟩ := bind_eq_ok h
    cases h
    obtain ⟨hall, hrevealing⟩ := ih hrest
    obtain ⟨⟨history, new⟩, hrun, hfirst⟩ := bind_eq_ok hfirst
    cases hold : t.cycleToConcreteStateValuations with
    | none =>
      rw [hold] at hfirst
      cases hfirst
    | some old =>
      rw [hold] at hfirst
      dsimp only at hfirst
      by_cases hlength : new.entries.length = old.entries.length
      · rw [if_pos hlength] at hfirst
        obtain ⟨differ, hdiffer, hfirst⟩ := bind_eq_ok hfirst
        cases hfirst
        constructor
        · refine List.forall_mem_cons.mpr ⟨⟨i, history, new, old, differ, hrun, hold, hdiffer,
            fun htrue => ?_⟩, fun t' ht' => ?_⟩
          · rw [if_pos htrue]
            exact List.mem_append_left _ List.mem_cons_self
          · obtain ⟨j, history', new', old', differ', hrun', hold', hdiffer', hmem⟩ := hall t' ht'
            exact ⟨j, history', new', old', differ', hrun', hold', hdiffer',
              fun htrue => List.mem_append_right _ (hmem htrue)⟩
        · intro r hr
          rcases List.mem_append.mp hr with hr | hr
          · cases differ with
            | true =>
              rw [if_pos rfl] at hr
              rw [List.mem_singleton.mp hr]
              exact ⟨List.mem_cons_self, i, history, new, old, hrun, hold, hdiffer, rfl⟩
            | false =>
              rw [if_neg Bool.false_ne_true] at hr
              cases hr
          · obtain ⟨hmem, hr⟩ := hrevealing r hr
            exact ⟨List.mem_cons_of_mem _ hmem, hr⟩
      · rw [if_neg hlength] at hfirst
        cases hfirst

end Check

end Ahorn.Shadow.Engine

namespace Ahorn

/-- The executions of two programs from the initial values of the test case end one of its cycles
with different values of some variable. -/
def Etfa.TestCase.Distinguishes (p p' : Etfa.Program) (names : List String) (t : Etfa.TestCase) : Prop :=
  ∃ k ∈ t.cycleToConcreteInputValuations.keys, ∃ last last', t.Ends p k last ∧ t.Ends p' k last' ∧
    ∃ x ∈ names, last.store x ≠ last'.store x

namespace AnnotatedProgram

open Etfa (TestCase UnitCfg.inputVariables UnitCfg.stateVariables)
open Shadow.Engine (checkForOutputDifferences cyclesDiffer cyclesDiffer_iff)

/-- What the test case has recorded is what the simulation of the old version has recorded. -/
def Recorded (p : AnnotatedProgram) (t : Shadow.TestCase) : Prop :=
  ∃ random fuel history valuations,
    Simulator.Engine.run ⟨p.main, .old, random⟩ fuel t.toTestCase = .ok (history, valuations) ∧
      t.executionHistory = some history ∧ t.cycleToConcreteStateValuations = some valuations

theorem cyclesDiffer_iff_distinguishes (p : AnnotatedProgram) (hp : p.HavocFree)
    {t : Shadow.TestCase} {random : ℕ → ℤ} {fuel : ℕ} {history : Simulator.History}
    {old new : OrderedMap ℕ (OrderedMap String Value)} {differ : Bool}
    (ht : t.Fits (UnitCfg.inputVariables p.main.root)) (hrecorded : p.Recorded t)
    (hold : t.cycleToConcreteStateValuations = some old)
    (hnew : Simulator.Engine.run ⟨p.main, .new, random⟩ fuel t.toTestCase = .ok (history, new))
    (h : cyclesDiffer new old.entries = .ok differ) :
    differ = true ↔ t.Distinguishes (p.version .old) (p.version .new)
      (UnitCfg.stateVariables p.main.root) := by
  obtain ⟨random', fuel', history', old', hrun, -, hold'⟩ := hrecorded
  rw [hold] at hold'
  cases hold'
  obtain ⟨holdCycles, holdValues⟩ := run_values hp ht hrun
  obtain ⟨hnewCycles, hnewValues⟩ := run_values hp ht hnew
  rw [cyclesDiffer_iff h]
  constructor
  · rintro ⟨⟨k, values⟩, hk, valuation, hvaluation, ⟨x, v⟩, hx, v', hv', hne⟩
    obtain ⟨last, hlast, hvalues⟩ := holdValues k values ((old.find?_eq_some_iff k values).mpr hk)
    obtain ⟨last', hlast', hvalues'⟩ := hnewValues k valuation hvaluation
    have hv := (values.find?_eq_some_iff x v).mpr hx
    rw [hvalues x] at hv
    rw [hvalues' x] at hv'
    by_cases hstate : x ∈ UnitCfg.stateVariables p.main.root
    · rw [if_pos hstate] at hv hv'
      refine ⟨k, (hnewCycles k).mp (hvaluation ▸ rfl), last, last', hlast, hlast', x, hstate, ?_⟩
      rwa [Option.some.inj hv, Option.some.inj hv']
    · rw [if_neg hstate] at hv
      cases hv
  · rintro ⟨k, hk, last, last', hlast, hlast', x, hx, hne⟩
    obtain ⟨values, hvalues⟩ := Option.isSome_iff_exists.mp ((holdCycles k).mpr hk)
    obtain ⟨valuation, hvaluation⟩ := Option.isSome_iff_exists.mp ((hnewCycles k).mpr hk)
    obtain ⟨last₁, hlast₁, hstore⟩ := holdValues k values hvalues
    obtain ⟨last₂, hlast₂, hstore'⟩ := hnewValues k valuation hvaluation
    obtain rfl := hlast.unique hlast₁
    obtain rfl := hlast'.unique hlast₂
    have hv := hstore x
    have hv' := hstore' x
    rw [if_pos hx] at hv hv'
    exact ⟨(k, values), (old.find?_eq_some_iff k values).mp hvalues, valuation, hvaluation,
      (x, last.store x), (values.find?_eq_some_iff x _).mp hv, last'.store x, hv', hne⟩

/-- The test cases that are reported are those that tell the versions apart: the executions of the
old and the new version end some cycle with different values of a state variable. Each comes with
what is recorded of the new version. -/
theorem checkForOutputDifferences_reveals (p : AnnotatedProgram) (hp : p.HavocFree) {fuel : ℕ}
    {random : ℕ → ℕ → ℤ} {ts : List Shadow.TestCase}
    {revealing : List (Shadow.TestCase × Shadow.TestCase)}
    (hts : ∀ t ∈ ts, t.Fits (UnitCfg.inputVariables p.main.root) ∧ p.Recorded t)
    (h : checkForOutputDifferences p.main fuel random 0 ts = .ok revealing) :
    (∀ t ∈ ts, (∃ t', (t, t') ∈ revealing) ↔ t.Distinguishes (p.version .old) (p.version .new)
      (UnitCfg.stateVariables p.main.root)) ∧
    ∀ t t', (t, t') ∈ revealing → t ∈ ts ∧ t'.toTestCase = t.toTestCase ∧
      ∃ random history valuations,
        Simulator.Engine.run ⟨p.main, .new, random⟩ fuel t.toTestCase = .ok (history, valuations) ∧
        t'.executionHistory = some history ∧ t'.cycleToConcreteStateValuations = some valuations := by
  obtain ⟨hall, hrevealing⟩ := Shadow.Engine.checkForOutputDifferences_spec h
  refine ⟨fun t ht => ?_, fun t t' hmem => ?_⟩
  · obtain ⟨hfits, hrecorded⟩ := hts t ht
    constructor
    · rintro ⟨t', hmem⟩
      obtain ⟨-, i, history, new, old, hrun, hold, hdiffer, -⟩ := hrevealing _ hmem
      exact (p.cyclesDiffer_iff_distinguishes hp hfits hrecorded hold hrun hdiffer).mp rfl
    · intro hdistinguishes
      obtain ⟨i, history, new, old, differ, hrun, hold, hdiffer, hmem⟩ := hall t ht
      exact ⟨_, hmem ((p.cyclesDiffer_iff_distinguishes hp hfits hrecorded hold hrun hdiffer).mpr
        hdistinguishes)⟩
  · obtain ⟨ht, i, history, new, old, hrun, -, -, heq⟩ := hrevealing _ hmem
    obtain rfl : t' = ⟨t.toTestCase, some history, some new⟩ := heq
    exact ⟨ht, rfl, random i, history, new, hrun, rfl, rfl⟩

end AnnotatedProgram

namespace GuardedChange

open Etfa (UnitCfg.stateVariables)
open Shadow.Engine (checkForOutputDifferences)

/-- The test case that executes the change tells the versions apart. -/
theorem touching_reveals :
    touching.Distinguishes (program.version .old) (program.version .new)
      (UnitCfg.stateVariables program.main.root) := by
  have hreveals : (do
      let (history, old) ← Simulator.Engine.run ⟨program.main, .old, fun _ => 0⟩ 10 touching
      let revealing ← checkForOutputDifferences program.main 10 (fun _ _ => 0) 0
        [⟨touching, some history, some old⟩]
      .ok (revealing.map fun r => r.1.toTestCase) : Except String (List Etfa.TestCase)) =
        .ok [touching] := by decide +kernel
  obtain ⟨⟨history, old⟩, hold, hreveals⟩ := bind_eq_ok hreveals
  obtain ⟨revealing, hchecked, hreveals⟩ := bind_eq_ok hreveals
  have hmap : revealing.map (fun r => r.1.toTestCase) = [touching] := Except.ok.inj hreveals
  obtain ⟨hiff, hrevealing⟩ := program.checkForOutputDifferences_reveals havocFree
    (List.forall_mem_singleton.mpr ⟨touching_fits, _, _, history, old, hold, rfl, rfl⟩) hchecked
  cases revealing with
  | nil => cases hmap
  | cons r rest =>
    have hmem := (hrevealing r.1 r.2 List.mem_cons_self).1
    have hfirst : r.1 = ⟨touching, some history, some old⟩ := List.mem_singleton.mp hmem
    exact (hiff _ List.mem_cons_self).mp ⟨r.2, hfirst ▸ List.mem_cons_self⟩

end GuardedChange

end Ahorn
