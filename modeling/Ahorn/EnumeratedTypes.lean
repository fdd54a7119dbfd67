import Mathlib.Data.List.Basic
import Mathlib.Data.List.Sort
import Mathlib.Data.String.Basic
import Mathlib.Logic.Function.Iterate
import Ahorn.OrderedMap

set_option autoImplicit false

/-!
# Enumerated types

The values of an enumerated type are numbered in the order in which they are added. A clone adds
them in the order of the map in which they are stored.
-/
namespace Ahorn

structure EnumeratedType where
  name : String
  index : ℕ
  valueToIndex : OrderedMap String ℕ

namespace EnumeratedType

def empty (name : String) : EnumeratedType := ⟨name, 0, .empty⟩

/-- Also for a value that is there already the number is used up. -/
def addValue (t : EnumeratedType) (value : String) : EnumeratedType :=
  { t with index := t.index + 1, valueToIndex := t.valueToIndex.emplace value t.index }

def build (name : String) (values : List String) : EnumeratedType :=
  values.foldl addValue (.empty name)

def clone (t : EnumeratedType) : EnumeratedType := build t.name t.valueToIndex.keys

def getIndex (t : EnumeratedType) (value : String) : Except String ℕ :=
  match t.valueToIndex.find? value with
  | some index => .ok index
  | none => .error "map::at"

/-- Every clone, and clone of a clone, gives the values the indices of the original, and different
values different ones. -/
def ClonesPreserve (name : String) (values : List String) : Prop :=
  ∀ n, (∀ value ∈ values, (clone^[n] (build name values)).getIndex value =
      (build name values).getIndex value) ∧
    ∀ value ∈ values, ∀ value' ∈ values, value ≠ value' →
      (clone^[n] (build name values)).getIndex value ≠
        (clone^[n] (build name values)).getIndex value'

/-- The values stand in alphabetical order, up to where only repetitions follow. -/
def Alphabetical (values : List String) : Prop :=
  ∃ sorted, sorted.Pairwise (· < ·) ∧ sorted <+: values ∧ values ⊆ sorted

theorem find?_foldl_addValue (values : List String) (t : EnumeratedType) (value : String) :
    (values.foldl addValue t).valueToIndex.find? value = (t.valueToIndex.find? value).or
      (if value ∈ values then some (t.index + values.idxOf value) else none) := by
  induction values generalizing t with
  | nil => simp
  | cons v values ih =>
    rw [List.foldl_cons, ih, addValue, OrderedMap.find?_emplace]
    by_cases h : value = v
    · subst h
      cases t.valueToIndex.find? value <;> simp
    · have hmem : value ∈ v :: values ↔ value ∈ values := by simp [h]
      rw [if_neg h, List.idxOf_cons_ne values (Ne.symm h)]
      simp only [hmem, Nat.add_succ, Nat.succ_add]

theorem find?_build (name : String) (values : List String) (value : String) :
    (build name values).valueToIndex.find? value =
      if value ∈ values then some (values.idxOf value) else none := by
  unfold build
  rw [find?_foldl_addValue, empty, OrderedMap.find?_empty, Option.none_or, Nat.zero_add]

theorem getIndex_build {name : String} {values : List String} {value : String}
    (h : value ∈ values) : (build name values).getIndex value = .ok (values.idxOf value) := by
  unfold getIndex
  rw [find?_build, if_pos h]

theorem mem_keys_build (name : String) (values : List String) (value : String) :
    value ∈ (build name values).valueToIndex.keys ↔ value ∈ values := by
  rw [OrderedMap.mem_keys_iff, find?_build]
  split_ifs with h <;> simp [h]

theorem keys_build_of_sorted (name : String) {values : List String}
    (h : values.Pairwise (· < ·)) : (build name values).valueToIndex.keys = values :=
  List.Pairwise.eq_of_mem_iff (build name values).valueToIndex.keys_sorted h
    (mem_keys_build name values)

theorem iterate_clone_succ (name : String) (values : List String) (n : ℕ) :
    clone^[n + 1] (build name values) = build name (build name values).valueToIndex.keys := by
  have hname : ∀ values, (build name values).name = name := by
    intro values
    have hfold : ∀ (values : List String) (t : EnumeratedType),
        (values.foldl addValue t).name = t.name := by
      intro values
      induction values with
      | nil => exact fun _ => rfl
      | cons v values ih => exact fun t => ih (t.addValue v)
    exact hfold values (.empty name)
  induction n with
  | zero =>
    change clone (build name values) = _
    unfold clone
    rw [hname]
  | succ n ih =>
    rw [Function.iterate_succ_apply', ih]
    unfold clone
    rw [hname, keys_build_of_sorted name (build name values).valueToIndex.keys_sorted]

theorem getIndex_iterate_clone {name : String} {values : List String} {value : String} (n : ℕ)
    (h : value ∈ values) : (clone^[n + 1] (build name values)).getIndex value =
      .ok ((build name values).valueToIndex.keys.idxOf value) := by
  rw [iterate_clone_succ]
  exact getIndex_build ((mem_keys_build name values value).mpr h)

theorem keys_isPrefix (name : String) {values : List String}
    (h : ∀ value ∈ values,
      (build name values).valueToIndex.keys.idxOf value = values.idxOf value) :
    (build name values).valueToIndex.keys <+: values := by
  have hnodup : (build name values).valueToIndex.keys.Nodup :=
    (build name values).valueToIndex.keys_sorted.imp ne_of_lt
  apply List.prefix_iff_getElem.mpr
  have hget : ∀ i (hi : i < (build name values).valueToIndex.keys.length),
      values.idxOf ((build name values).valueToIndex.keys[i]) = i ∧
        (build name values).valueToIndex.keys[i] ∈ values := by
    intro i hi
    have hmem := (mem_keys_build name values _).mp (List.getElem_mem hi)
    rw [← h _ hmem]
    exact ⟨hnodup.idxOf_getElem i hi, hmem⟩
  have hlength : (build name values).valueToIndex.keys.length ≤ values.length := by
    by_contra hlt
    obtain ⟨hidx, hmem⟩ := hget values.length (by omega)
    have := List.idxOf_lt_length_of_mem hmem
    omega
  refine ⟨hlength, fun i hi => ?_⟩
  obtain ⟨hidx, hmem⟩ := hget i hi
  have hfirst := List.getElem_idxOf (List.idxOf_lt_length_of_mem hmem)
  simpa only [hidx] using hfirst.symm

/-- Clones keep the indices exactly if the values were declared in alphabetical order. -/
theorem clonesPreserve_iff (name : String) (values : List String) :
    ClonesPreserve name values ↔ Alphabetical values := by
  constructor
  · intro h
    refine ⟨_, (build name values).valueToIndex.keys_sorted, keys_isPrefix name fun value hv => ?_,
      fun value hv => (mem_keys_build name values value).mpr hv⟩
    have hclone := (h 1).1 value hv
    rw [getIndex_iterate_clone 0 hv, getIndex_build hv] at hclone
    exact Except.ok.inj hclone
  · rintro ⟨sorted, hsorted, hprefix, hsubset⟩ n
    have hkeys : (build name values).valueToIndex.keys = sorted :=
      List.Pairwise.eq_of_mem_iff (build name values).valueToIndex.keys_sorted hsorted fun value =>
        (mem_keys_build name values value).trans ⟨fun h => hsubset h, fun h => hprefix.subset h⟩
    have hindex : ∀ value ∈ values, (clone^[n] (build name values)).getIndex value =
        .ok (values.idxOf value) := by
      intro value hv
      cases n with
      | zero => exact getIndex_build hv
      | succ n =>
        rw [getIndex_iterate_clone n hv, hkeys, hprefix.idxOf_eq_of_mem (hsubset hv)]
    constructor
    · intro value hv
      rw [hindex value hv, getIndex_build hv]
    · intro value hv value' hv' hne heq
      rw [hindex value hv, hindex value' hv'] at heq
      exact hne ((List.idxOf_inj hv).mp (Except.ok.inj heq))

/-- The clone of a traffic light numbers its colours the other way round. -/
theorem light_not_clonesPreserve : ¬ ClonesPreserve "Light" ["RED", "GREEN"] := by
  intro h
  have hred := (h 1).1 "RED" (by decide)
  revert hred
  decide

end EnumeratedType

end Ahorn
