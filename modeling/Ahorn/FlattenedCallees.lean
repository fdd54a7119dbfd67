import Mathlib.Data.List.Basic
import Ahorn.CfgHierarchy

set_option autoImplicit false

/-!
# Flattened callees

A graph collects its callees and theirs. A callee of a callee that has not been met before is not
there to be added: what is added is what the search for it has ended at.
-/
namespace Ahorn

namespace Hierarchy

variable (h : Hierarchy)

/-- The callees of a unit in the order of the map that holds them. -/
def calleeNames (name : String) : List String :=
  match h.nameToNode.find? name with
  | none => []
  | some node => (OrderedMap.empty.emplaceAll (node.callees.map fun t => (t, ()))).keys

/-- A callee of a callee is looked for. If it is not found, the end of the vector is read. -/
def addNested (flattened : List String) (callee : String) : Except String (List String) :=
  if callee ∈ flattened then .ok flattened else .error "end of vector dereferenced"

def addCallee (getFlattened : String → Except String (List String)) (flattened : List String)
    (callee : String) : Except String (List String) := do
  let nested ← getFlattened callee
  nested.foldlM addNested (flattened ++ [callee])

def getFlattenedCallees : ℕ → String → Except String (List String)
  | 0, _ => .error "out of fuel"
  | fuel + 1, name => (h.calleeNames name).foldlM (addCallee (getFlattenedCallees fuel)) []

def Calls (name callee : String) : Prop := callee ∈ h.calleeNames name

/-- With enough fuel there is a result: every unit that is called, directly or not, once. -/
def FlattensCallees (name : String) : Prop :=
  ∃ flattened : List String,
    (∃ n, ∀ fuel, n ≤ fuel → h.getFlattenedCallees fuel name = .ok flattened) ∧
      flattened.Nodup ∧ ∀ callee, callee ∈ flattened ↔ Relation.TransGen h.Calls name callee

/-- A unit calls what its callees call, and meets it before them. -/
def MeetsNested (name : String) : Prop :=
  ∀ callee, h.Calls name callee → ∀ nested, h.Calls callee nested →
    h.Calls name nested ∧ nested < callee

variable {h}

theorem calleeNames_sorted (name : String) : (h.calleeNames name).Pairwise (· < ·) := by
  unfold calleeNames
  cases h.nameToNode.find? name with
  | none => exact .nil
  | some node => exact OrderedMap.keys_sorted _

theorem calls_iff {name callee : String} :
    h.Calls name callee ↔ ∃ node, h.nameToNode.find? name = some node ∧ callee ∈ node.callees := by
  unfold Calls calleeNames
  cases h.nameToNode.find? name with
  | none => simp
  | some node =>
    have hlookup : (∃ u, (OrderedMap.empty.emplaceAll
        (node.callees.map fun t => (t, ()))).find? callee = some u) ↔ callee ∈ node.callees := by
      rw [OrderedMap.find?_emplaceAll, OrderedMap.find?_empty]
      simp only [Option.none_or]
      constructor
      · rintro ⟨u, hu⟩
        obtain ⟨t, ht, heq⟩ := List.mem_map.mp (OrderedMap.mem_of_lookup hu)
        cases heq
        exact ht
      · intro hmem
        exact OrderedMap.exists_lookup
          (x := (callee, ())) (List.mem_map_of_mem (f := fun t => (t, ())) hmem)
    simp only [OrderedMap.mem_keys_iff, Option.some.injEq, exists_eq_left']
    exact hlookup

theorem exists_rank : ∃ rank : String → ℕ, ∀ {name callee}, h.Calls name callee →
    rank callee < rank name := by
  obtain ⟨rank, hrank⟩ := h.acyclic
  refine ⟨rank, fun hcalls => ?_⟩
  obtain ⟨node, hnode, hmem⟩ := calls_iff.mp hcalls
  exact (hrank hnode _ hmem).1

theorem addNested_foldlM {flattened nested : List String} (hmem : ∀ t ∈ nested, t ∈ flattened) :
    nested.foldlM addNested flattened = .ok flattened := by
  induction nested with
  | nil => rfl
  | cons t nested ih =>
    rw [List.foldlM_cons]
    unfold addNested
    rw [if_pos (hmem t List.mem_cons_self)]
    exact ih fun u hu => hmem u (List.mem_cons_of_mem _ hu)

theorem foldlM_addNested_inv {flattened nested result : List String}
    (hok : nested.foldlM addNested flattened = .ok result) :
    result = flattened ∧ ∀ t ∈ nested, t ∈ flattened := by
  induction nested with
  | nil =>
    cases hok
    exact ⟨rfl, fun t ht => nomatch ht⟩
  | cons t nested ih =>
    rw [List.foldlM_cons] at hok
    obtain ⟨flattened', hadd, hok⟩ := bind_eq_ok hok
    unfold addNested at hadd
    split_ifs at hadd with hmem
    cases hadd
    obtain ⟨rfl, hall⟩ := ih hok
    refine ⟨rfl, fun u hu => ?_⟩
    rcases List.mem_cons.mp hu with rfl | hu
    · exact hmem
    · exact hall u hu

theorem foldlM_addCallee {getFlattened : String → Except String (List String)}
    {callees flattened : List String}
    (hcallees : ∀ t ∈ callees, ∃ nested, getFlattened t = .ok nested ∧
      ∀ u ∈ nested, u ∈ flattened ++ callees ∧ u < t)
    (hsorted : (flattened ++ callees).Pairwise (· < ·)) :
    callees.foldlM (addCallee getFlattened) flattened = .ok (flattened ++ callees) := by
  induction callees generalizing flattened with
  | nil =>
    rw [List.append_nil]
    rfl
  | cons t callees ih =>
    obtain ⟨nested, hnested, hmet⟩ := hcallees t List.mem_cons_self
    have hadd : addCallee getFlattened flattened t = .ok (flattened ++ [t]) := by
      unfold addCallee
      rw [hnested]
      apply addNested_foldlM
      intro u hu
      obtain ⟨hmem, hlt⟩ := hmet u hu
      rcases List.mem_append.mp hmem with hmem | hmem
      · exact List.mem_append_left _ hmem
      · -- what stands behind a callee in the map is greater
        have hge : ∀ v ∈ t :: callees, t ≤ v := by
          intro v hv
          rcases List.mem_cons.mp hv with rfl | hv
          · exact le_refl _
          · exact le_of_lt (List.rel_of_pairwise_cons (List.pairwise_append.mp hsorted).2.1 hv)
        exact absurd hlt (not_lt_of_ge (hge u hmem))
    rw [List.foldlM_cons, hadd]
    have hassoc : flattened ++ t :: callees = (flattened ++ [t]) ++ callees := by simp
    rw [hassoc] at hsorted hcallees ⊢
    exact ih (fun u hu => hcallees u (List.mem_cons_of_mem _ hu)) hsorted

theorem foldlM_addCallee_inv {getFlattened : String → Except String (List String)}
    {callees flattened result : List String}
    (hok : callees.foldlM (addCallee getFlattened) flattened = .ok result) :
    result = flattened ++ callees ∧ ∀ t ∈ callees, ∃ nested, getFlattened t = .ok nested ∧
      ∀ u ∈ nested, ∃ before after, flattened ++ callees = before ++ t :: after ∧
        (u ∈ before ∨ u = t) := by
  induction callees generalizing flattened with
  | nil =>
    cases hok
    exact ⟨(List.append_nil _).symm, fun t ht => nomatch ht⟩
  | cons t callees ih =>
    rw [List.foldlM_cons] at hok
    obtain ⟨flattened', hadd, hok⟩ := bind_eq_ok hok
    obtain ⟨nested, hnested, hadd⟩ := bind_eq_ok hadd
    obtain ⟨rfl, hmem⟩ := foldlM_addNested_inv hadd
    have hassoc : flattened ++ t :: callees = (flattened ++ [t]) ++ callees := by simp
    obtain ⟨hresult, hall⟩ := ih hok
    rw [hassoc]
    refine ⟨hresult, fun u hu => ?_⟩
    rcases List.mem_cons.mp hu with rfl | hu
    · refine ⟨nested, hnested, fun v hv => ⟨flattened, callees, hassoc.symm, ?_⟩⟩
      rcases List.mem_append.mp (hmem v hv) with hv | hv
      · exact Or.inl hv
      · exact Or.inr (List.mem_singleton.mp hv)
    · exact hall u hu

theorem getFlattenedCallees_of_meetsNested {rank : String → ℕ}
    (hrank : ∀ {name callee}, h.Calls name callee → rank callee < rank name) {name : String}
    (hmeets : ∀ d, Relation.ReflTransGen h.Calls name d → h.MeetsNested d) {fuel : ℕ}
    (hfuel : rank name < fuel) : h.getFlattenedCallees fuel name = .ok (h.calleeNames name) := by
  induction fuel generalizing name with
  | zero => omega
  | succ fuel ih =>
    unfold getFlattenedCallees
    refine foldlM_addCallee (fun t ht => ?_) (calleeNames_sorted name)
    refine ⟨_, ih (fun d hd => hmeets d (.head ht hd)) ?_, fun u hu => ?_⟩
    · have := hrank ht
      omega
    · exact hmeets name .refl t ht u hu

theorem meetsNested_of_getFlattenedCallees {fuel : ℕ} {name : String} {flattened : List String}
    (hok : h.getFlattenedCallees fuel name = .ok flattened) :
    flattened = h.calleeNames name ∧
      ∀ d, Relation.ReflTransGen h.Calls name d → h.MeetsNested d := by
  obtain ⟨rank, hrank⟩ := h.exists_rank
  induction fuel generalizing name flattened with
  | zero => cases hok
  | succ fuel ih =>
    obtain ⟨hresult, hall⟩ := foldlM_addCallee_inv hok
    refine ⟨hresult, fun d hd => ?_⟩
    rcases Relation.ReflTransGen.cases_head hd with rfl | ⟨callee, hcallee, hd⟩
    · intro callee hcallee nested hnested
      obtain ⟨l, hl, hmet⟩ := hall callee hcallee
      obtain ⟨rfl, -⟩ := ih hl
      obtain ⟨before, after, heq, hmem⟩ := hmet nested hnested
      have hne : nested ≠ callee := by
        rintro rfl
        exact lt_irrefl _ (hrank hnested)
      have hbefore := hmem.resolve_right hne
      have hsorted := h.calleeNames_sorted name
      have hcalls : nested ∈ h.calleeNames name := by
        rw [← List.nil_append (h.calleeNames name), heq]
        exact List.mem_append_left _ hbefore
      rw [← List.nil_append (h.calleeNames name), heq] at hsorted
      exact ⟨hcalls, (List.pairwise_append.mp hsorted).2.2 _ hbefore _ List.mem_cons_self⟩
    · obtain ⟨l, hl, -⟩ := hall callee hcallee
      exact (ih hl).2 d hd

/-- The flattened callees are the units called, directly or not, exactly if every unit among them
calls what its callees call and meets it before them. -/
theorem flattensCallees_iff (h : Hierarchy) (name : String) : h.FlattensCallees name ↔
    ∀ d, Relation.ReflTransGen h.Calls name d → h.MeetsNested d := by
  constructor
  · rintro ⟨flattened, ⟨n, hok⟩, -, -⟩
    exact (meetsNested_of_getFlattenedCallees (hok n (le_refl n))).2
  · intro hmeets
    obtain ⟨rank, hrank⟩ := h.exists_rank
    refine ⟨h.calleeNames name, ⟨rank name + 1, fun fuel hfuel =>
      getFlattenedCallees_of_meetsNested hrank hmeets hfuel⟩, ?_, fun callee => ?_⟩
    · exact (calleeNames_sorted name).imp ne_of_lt
    · constructor
      · exact fun hcallee => .single hcallee
      · intro hcallee
        induction hcallee with
        | single hcalls => exact hcalls
        | tail _ hcalls ih => exact (hmeets name .refl _ ih _ hcalls).1

/-- A program that calls a function block that calls another one. -/
def chain : Hierarchy :=
  ((empty.emplace "Timer" ⟨.empty, [], .empty⟩ rfl (by simp)).emplace "Lamp"
    ⟨.empty, ["Timer"], .empty⟩ (by decide) (by
      intro t ht
      rw [List.mem_singleton.mp ht]
      exact ⟨_, rfl⟩)).emplace "Main" ⟨.empty, ["Lamp"], .empty⟩ (by decide) (by
        intro t ht
        rw [List.mem_singleton.mp ht]
        exact ⟨_, rfl⟩)

theorem chain_not_flattensCallees : ¬ chain.FlattensCallees "Main" := by
  rintro ⟨flattened, ⟨n, hok⟩, -, -⟩
  have hmeets := (meetsNested_of_getFlattenedCallees (hok n (le_refl n))).2 "Main" .refl
  have hcalls : "Timer" ∈ chain.calleeNames "Main" :=
    (hmeets "Lamp" (by unfold Calls; decide) "Timer" (by unfold Calls; decide)).1
  revert hcalls
  decide

end Hierarchy

end Ahorn
