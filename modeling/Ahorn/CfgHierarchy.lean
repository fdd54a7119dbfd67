import Ahorn.Flattening

set_option autoImplicit false

/-!
# Hierarchies of units

A module or graph is made after those it refers to, so a hierarchy has no cycles; its flattened
interface is computed when it is made.
-/
namespace Ahorn

/-- A unit, the names of the units it refers to, and its flattened interface. -/
structure Node where
  interface : Interface
  callees : List String
  flattenedInterface : VariableMap

/-- Units under their names. The units another one refers to are there and rank below it. -/
structure Hierarchy where
  nameToNode : OrderedMap String Node
  acyclic : ∃ rank : String → ℕ, ∀ {name node}, nameToNode.find? name = some node →
    ∀ t ∈ node.callees, rank t < rank name ∧ ∃ callee, nameToNode.find? t = some callee

namespace Hierarchy

def empty : Hierarchy where
  nameToNode := .empty
  acyclic := ⟨fun _ => 0, by simp⟩

def interfaceOf (h : Hierarchy) (name : String) : Option Interface :=
  (h.nameToNode.find? name).map (·.interface)

/-- The flattened interfaces of the units that a unit refers to. -/
def nameToUnit (h : Hierarchy) (callees : List String) (typeName : String) : Option VariableMap :=
  if typeName ∈ callees then (h.nameToNode.find? typeName).map (·.flattenedInterface) else none

def emplace (h : Hierarchy) (name : String) (node : Node)
    (hname : h.nameToNode.find? name = none)
    (hcallees : ∀ t ∈ node.callees, ∃ callee, h.nameToNode.find? t = some callee) : Hierarchy where
  nameToNode := h.nameToNode.emplace name node
  acyclic := by
    obtain ⟨rank, hrank⟩ := h.acyclic
    have hne : ∀ {t callee}, h.nameToNode.find? t = some callee → t ≠ name := by
      rintro t callee ht rfl
      rw [hname] at ht
      cases ht
    refine ⟨Function.update rank name ((node.callees.map rank).max?.getD 0 + 1), ?_⟩
    intro m node' hm t ht
    rw [OrderedMap.find?_emplace] at hm
    split_ifs at hm with hmn
    · rw [hname, Option.none_or] at hm
      cases hm
      obtain ⟨callee, hcallee⟩ := hcallees t ht
      rw [hmn, Function.update_of_ne (hne hcallee), Function.update_self,
        OrderedMap.find?_emplace_ne _ _ (hne hcallee)]
      have hle : rank t ≤ (node.callees.map rank).max?.getD 0 :=
        List.le_max?_getD_of_mem (List.mem_map_of_mem ht)
      exact ⟨Nat.lt_succ_of_le hle, callee, hcallee⟩
    · obtain ⟨hlt, callee, hcallee⟩ := hrank hm t ht
      rw [Function.update_of_ne (hne hcallee), Function.update_of_ne hmn,
        OrderedMap.find?_emplace_ne _ _ (hne hcallee)]
      exact ⟨hlt, callee, hcallee⟩

def construct (h : Hierarchy) (name : String) (i : Interface) (callees : List String)
    (hname : h.nameToNode.find? name = none)
    (hcallees : ∀ t ∈ callees, ∃ callee, h.nameToNode.find? t = some callee) :
    Except String Hierarchy := do
  let flattened ← updateFlattenedInterface (h.nameToUnit callees) i
  .ok (h.emplace name ⟨i, callees, flattened⟩ hname hcallees)

/-- All units of the one hierarchy are in the other. -/
def Within (h h' : Hierarchy) : Prop :=
  ∀ {name node}, h.nameToNode.find? name = some node →
    ∃ node', h'.nameToNode.find? name = some node'

/-- Every flattened interface is the one computed from those of the units referred to. -/
def Coherent (h : Hierarchy) : Prop :=
  ∀ {name node}, h.nameToNode.find? name = some node →
    updateFlattenedInterface (h.nameToUnit node.callees) node.interface =
      .ok node.flattenedInterface

theorem coherent_empty : empty.Coherent := by
  intro name node h
  cases h

theorem Coherent.uses {h : Hierarchy} (hc : h.Coherent) {name t : String} {node : Node}
    (hn : h.nameToNode.find? name = some node) (ht : node.interface.Uses t) :
    t ∈ node.callees ∧ ∃ callee, h.nameToNode.find? t = some callee := by
  obtain ⟨rep, hrep⟩ := exists_unit_of_updateFlattenedInterface (hc hn) ht
  unfold nameToUnit at hrep
  split_ifs at hrep with hmem
  obtain ⟨callee, hcallee, -⟩ := Option.map_eq_some_iff.mp hrep
  exact ⟨hmem, callee, hcallee⟩

theorem Coherent.construct {h h' : Hierarchy} (hc : h.Coherent) {name : String} {i : Interface}
    {callees : List String} {hname hcallees}
    (hok : h.construct name i callees hname hcallees = .ok h') : h'.Coherent := by
  unfold Hierarchy.construct at hok
  cases hf : updateFlattenedInterface (h.nameToUnit callees) i with
  | error e =>
    rw [hf] at hok
    cases hok
  | ok flattened =>
    rw [hf] at hok
    cases hok
    have hne : ∀ {t callee}, h.nameToNode.find? t = some callee → t ≠ name := by
      rintro t callee ht rfl
      rw [hname] at ht
      cases ht
    have hsame : ∀ cs : List String, (∀ t ∈ cs, ∃ callee, h.nameToNode.find? t = some callee) →
        (h.emplace name ⟨i, callees, flattened⟩ hname hcallees).nameToUnit cs =
          h.nameToUnit cs := by
      intro cs hcs
      funext t
      unfold nameToUnit
      split_ifs with ht
      · obtain ⟨callee, hcallee⟩ := hcs t ht
        change (OrderedMap.find? (h.nameToNode.emplace name _) t).map _ = _
        rw [OrderedMap.find?_emplace_ne _ _ (hne hcallee)]
      · rfl
    intro m node hm
    change OrderedMap.find? (h.nameToNode.emplace name _) m = _ at hm
    rw [OrderedMap.find?_emplace] at hm
    split_ifs at hm with hmn
    · rw [hname, Option.none_or] at hm
      cases hm
      rw [hsame _ hcallees]
      exact hf
    · obtain ⟨rank, hrank⟩ := h.acyclic
      rw [hsame _ fun t ht => (hrank hm t ht).2]
      exact hc hm

/-- A hierarchy as the constructor makes it. -/
inductive Built : Hierarchy → Prop where
  | empty : Built empty
  | construct {h h' : Hierarchy} {name : String} {i : Interface} {callees : List String}
      {hname hcallees} : Built h → h.construct name i callees hname hcallees = .ok h' → Built h'

theorem Built.coherent {h : Hierarchy} (hb : h.Built) : h.Coherent := by
  induction hb with
  | empty => exact coherent_empty
  | construct _ hok ih => exact ih.construct hok

end Hierarchy

/-- The flattened interface of a unit from the interfaces alone, bottom up. -/
def fromScratch (interfaceOf : String → Option Interface) : ℕ → String → Except String VariableMap
  | 0, _ => .error "out of fuel"
  | fuel + 1, name =>
    match interfaceOf name with
    | none => .error "No module for given name exists."
    | some i =>
      updateFlattenedInterface (fun typeName => (fromScratch interfaceOf fuel typeName).toOption) i

theorem Hierarchy.Coherent.fromScratch_eq {h : Hierarchy} (hc : h.Coherent) (name : String) :
    ∃ fuel₀, ∀ fuel ≥ fuel₀, ∀ node, h.nameToNode.find? name = some node →
      fromScratch h.interfaceOf fuel name = .ok node.flattenedInterface := by
  obtain ⟨rank, hrank⟩ := h.acyclic
  have hall : ∀ fuel name node, rank name < fuel → h.nameToNode.find? name = some node →
      fromScratch h.interfaceOf fuel name = .ok node.flattenedInterface := by
    intro fuel
    induction fuel with
    | zero =>
      intro name node hlt
      omega
    | succ fuel ih =>
      intro name node hlt hn
      rw [fromScratch, Hierarchy.interfaceOf, hn, ← hc hn]
      apply updateFlattenedInterface_congr
      intro t ht
      obtain ⟨hmem, callee, hcallee⟩ := hc.uses hn ht
      have hlower := (hrank hn t hmem).1
      rw [ih t callee (by omega) hcallee, Hierarchy.nameToUnit, if_pos hmem, hcallee]
      rfl
  exact ⟨rank name + 1, fun fuel hfuel node hn => hall fuel name node hfuel hn⟩

/-- The types of the instances in an interface. -/
def Interface.referenced (i : Interface) : List String :=
  i.getVariables.filterMap fun v =>
    match v.dataType with
    | .derivedType typeName => some typeName
    | _ => none

theorem Interface.mem_referenced {i : Interface} {t : String} : t ∈ i.referenced ↔ i.Uses t := by
  unfold referenced Uses
  rw [List.mem_filterMap]
  refine exists_congr fun v => and_congr_right fun _ => ?_
  cases v.dataType <;> simp [eq_comm]

/-- Make the unit of a name, after those it refers to. -/
def Hierarchy.build (getPou : String → Option Interface) :
    ℕ → Hierarchy → String → Except String Hierarchy
  | 0, _, _ => .error "out of fuel"
  | fuel + 1, h, name =>
    match h.nameToNode.find? name with
    | some _ => .ok h
    | none =>
      match getPou name with
      | none => .error "No pou for given name exists."
      | some i => do
        let h ← i.referenced.foldlM (build getPou fuel) h
        if hcallees : ∀ t ∈ i.referenced, (h.nameToNode.find? t).isSome then
          if hname : h.nameToNode.find? name = none then
            h.construct name i i.referenced hname fun t ht =>
              Option.isSome_iff_exists.mp (hcallees t ht)
          else .ok h
        else .error "map::at"

/-- The interfaces of the program organisation units. Instances are nested without cycles. -/
structure Project where
  nameToPou : OrderedMap String Interface
  acyclic : ∃ rank : String → ℕ, ∀ {name i}, nameToPou.find? name = some i →
    ∀ t, i.Uses t → rank t < rank name ∧ ∃ callee, nameToPou.find? t = some callee

namespace Project

def ranked (nameToPou : OrderedMap String Interface) (rank : String → ℕ)
    (h : ∀ e ∈ nameToPou.entries, ∀ t ∈ e.2.referenced,
      rank t < rank e.1 ∧ (nameToPou.find? t).isSome) : Project where
  nameToPou := nameToPou
  acyclic := by
    refine ⟨rank, ?_⟩
    intro name i hi t ht
    obtain ⟨hlt, hsome⟩ := h (name, i) ((OrderedMap.find?_eq_some_iff _ _ _).mp hi) t
      (Interface.mem_referenced.mpr ht)
    exact ⟨hlt, Option.isSome_iff_exists.mp hsome⟩

/-- The compiler makes a module for each unit, and the builder then a graph for each module. -/
def compile (p : Project) (fuel : ℕ) : Except String Hierarchy :=
  p.nameToPou.keys.foldlM (Hierarchy.build p.nameToPou.find? fuel) .empty

/-- Part of the hierarchy of a project. -/
structure Part (p : Project) (h : Hierarchy) : Prop where
  built : h.Built
  interface : ∀ {name node}, h.nameToNode.find? name = some node →
    p.nameToPou.find? name = some node.interface

variable {p : Project}

theorem Part.construct {h : Hierarchy} (hp : p.Part h) {name : String} {i : Interface}
    (hi : p.nameToPou.find? name = some i) (hname : h.nameToNode.find? name = none)
    (hcallees : ∀ t ∈ i.referenced, ∃ callee, h.nameToNode.find? t = some callee) :
    ∃ h', h.construct name i i.referenced hname hcallees = .ok h' ∧ p.Part h' ∧ h.Within h' ∧
      ∃ node, h'.nameToNode.find? name = some node := by
  obtain ⟨flattened, hflattened⟩ := @updateFlattenedInterface_ok (h.nameToUnit i.referenced) i (by
      intro t ht
      obtain ⟨callee, hcallee⟩ := hcallees t (Interface.mem_referenced.mpr ht)
      unfold Hierarchy.nameToUnit
      rw [if_pos (Interface.mem_referenced.mpr ht), hcallee]
      exact ⟨_, rfl⟩)
  have hok : h.construct name i i.referenced hname hcallees =
      .ok (h.emplace name ⟨i, i.referenced, flattened⟩ hname hcallees) := by
    unfold Hierarchy.construct
    rw [hflattened]
    rfl
  refine ⟨_, hok, ⟨hp.built.construct hok, ?_⟩, ?_, ?_⟩
  · intro m node hm
    change (h.nameToNode.emplace name _).find? m = _ at hm
    rw [OrderedMap.find?_emplace] at hm
    split_ifs at hm with hmn
    · rw [hname, Option.none_or] at hm
      cases hm
      rw [hmn]
      exact hi
    · exact hp.interface hm
  · intro m node hm
    refine ⟨node, ?_⟩
    change (h.nameToNode.emplace name _).find? m = _
    rw [OrderedMap.find?_emplace_ne, hm]
    rintro rfl
    rw [hname] at hm
    cases hm
  · exact ⟨_, OrderedMap.find?_emplace_self _ hname⟩

theorem part_empty : p.Part .empty := ⟨.empty, fun h => by cases h⟩

theorem Part.foldlM {f : Hierarchy → String → Except String Hierarchy}
    (hf : ∀ {h h' name}, p.Part h → f h name = .ok h' → p.Part h') {names : List String}
    {h h' : Hierarchy} (hp : p.Part h) (hok : names.foldlM f h = .ok h') : p.Part h' := by
  induction names generalizing h with
  | nil =>
    cases hok
    exact hp
  | cons name names ih =>
    rw [List.foldlM_cons] at hok
    cases hname : f h name with
    | error e =>
      rw [hname] at hok
      cases hok
    | ok h₁ =>
      rw [hname] at hok
      exact ih (hf hp hname) hok

theorem Part.build {fuel : ℕ} {h h' : Hierarchy} {name : String} (hp : p.Part h)
    (hok : Hierarchy.build p.nameToPou.find? fuel h name = .ok h') : p.Part h' := by
  induction fuel generalizing h h' name with
  | zero => cases hok
  | succ fuel ih =>
    unfold Hierarchy.build at hok
    cases hn : h.nameToNode.find? name with
    | some node =>
      rw [hn] at hok
      cases hok
      exact hp
    | none =>
      cases hi : p.nameToPou.find? name with
      | none =>
        rw [hn, hi] at hok
        cases hok
      | some i =>
        simp only [hn, hi] at hok
        cases hf : i.referenced.foldlM (Hierarchy.build p.nameToPou.find? fuel) h with
        | error e =>
          rw [hf] at hok
          cases hok
        | ok h₁ =>
          rw [hf] at hok
          have hp₁ := Part.foldlM ih hp hf
          change (if hcallees : _ then _ else _) = _ at hok
          split at hok
          · rename_i hcallees
            split at hok
            · rename_i hname
              obtain ⟨h₂, hok₂, hp₂, -⟩ := hp₁.construct hi hname fun t ht =>
                Option.isSome_iff_exists.mp (hcallees t ht)
              rw [hok₂] at hok
              cases hok
              exact hp₂
            · cases hok
              exact hp₁
          · cases hok

theorem compile_part {fuel : ℕ} {h : Hierarchy} (hok : p.compile fuel = .ok h) : p.Part h :=
  Part.foldlM Part.build part_empty hok

/-- A step that makes the unit of a name and keeps those made before. -/
def Makes (p : Project) (f : Hierarchy → String → Except String Hierarchy) (name : String) : Prop :=
  ∀ h, p.Part h → ∃ h', f h name = .ok h' ∧ p.Part h' ∧ h.Within h' ∧
    ∃ node, h'.nameToNode.find? name = some node

theorem Makes.foldlM {f : Hierarchy → String → Except String Hierarchy} {names : List String}
    (hf : ∀ name ∈ names, p.Makes f name) {h : Hierarchy} (hp : p.Part h) :
    ∃ h', names.foldlM f h = .ok h' ∧ p.Part h' ∧ h.Within h' ∧
      ∀ name ∈ names, ∃ node, h'.nameToNode.find? name = some node := by
  induction names generalizing h with
  | nil => exact ⟨h, rfl, hp, fun {_ node} hm => ⟨node, hm⟩, by simp⟩
  | cons name names ih =>
    obtain ⟨h₁, hok, hp₁, hwithin, node, hnode⟩ := hf name List.mem_cons_self h hp
    obtain ⟨h₂, hok₂, hp₂, hwithin₂, hall⟩ :=
      ih (fun m hm => hf m (List.mem_cons_of_mem _ hm)) hp₁
    refine ⟨h₂, ?_, hp₂, ?_, ?_⟩
    · rw [List.foldlM_cons, hok]
      exact hok₂
    · intro m node' hm
      obtain ⟨node₁, hm₁⟩ := hwithin hm
      exact hwithin₂ hm₁
    · intro m hm
      rcases List.mem_cons.mp hm with rfl | hm
      · exact hwithin₂ hnode
      · exact hall m hm

theorem makes_build {rank : String → ℕ}
    (hrank : ∀ {name i}, p.nameToPou.find? name = some i →
      ∀ t, i.Uses t → rank t < rank name ∧ ∃ callee, p.nameToPou.find? t = some callee)
    (fuel : ℕ) {name : String} {i : Interface} (hi : p.nameToPou.find? name = some i)
    (hfuel : rank name < fuel) : p.Makes (Hierarchy.build p.nameToPou.find? fuel) name := by
  induction fuel generalizing name i with
  | zero => omega
  | succ fuel ih =>
    intro h hp
    unfold Hierarchy.build
    cases hn : h.nameToNode.find? name with
    | some node => exact ⟨h, rfl, hp, fun {_ node} hm => ⟨node, hm⟩, node, hn⟩
    | none =>
      have hcallees : ∀ t ∈ i.referenced, p.Makes (Hierarchy.build p.nameToPou.find? fuel) t := by
        intro t ht
        obtain ⟨hlt, callee, hcallee⟩ := hrank hi t (Interface.mem_referenced.mp ht)
        exact ih hcallee (by omega)
      obtain ⟨h₁, hok, hp₁, hwithin, hall⟩ := Makes.foldlM hcallees hp
      simp only [hi]
      rw [hok]
      have hsome : ∀ t ∈ i.referenced, (h₁.nameToNode.find? t).isSome := fun t ht =>
        Option.isSome_iff_exists.mpr (hall t ht)
      by_cases hname : h₁.nameToNode.find? name = none
      · obtain ⟨h₂, hok₂, hp₂, hwithin₂, hnode⟩ := hp₁.construct hi hname hall
        refine ⟨h₂, ?_, hp₂, ?_, hnode⟩
        · change (if hcallees : _ then _ else _) = _
          rw [dif_pos hsome, dif_pos hname]
          exact hok₂
        · intro m node hm
          obtain ⟨node₁, hm₁⟩ := hwithin hm
          exact hwithin₂ hm₁
      · refine ⟨h₁, ?_, hp₁, hwithin, Option.ne_none_iff_exists'.mp hname⟩
        change (if hcallees : _ then _ else _) = _
        rw [dif_pos hsome, dif_neg hname]

theorem compile_ok (p : Project) : ∃ fuel₀, ∀ fuel ≥ fuel₀, ∃ h, p.compile fuel = .ok h ∧
    h.Built ∧ ∀ name, h.interfaceOf name = p.nameToPou.find? name := by
  obtain ⟨rank, hrank⟩ := p.acyclic
  refine ⟨(p.nameToPou.keys.map rank).max?.getD 0 + 1, ?_⟩
  intro fuel hfuel
  have hmakes : ∀ name ∈ p.nameToPou.keys,
      p.Makes (Hierarchy.build p.nameToPou.find? fuel) name := by
    intro name hname
    obtain ⟨⟨_, i⟩, hmem, rfl⟩ := List.mem_map.mp hname
    have hle : rank _ ≤ (p.nameToPou.keys.map rank).max?.getD 0 :=
      List.le_max?_getD_of_mem (List.mem_map_of_mem hname)
    exact makes_build hrank fuel ((OrderedMap.find?_eq_some_iff _ _ _).mpr hmem) (by omega)
  obtain ⟨h, hok, hp, -, hall⟩ := Makes.foldlM hmakes ⟨.empty, fun hm => by cases hm⟩
  refine ⟨h, hok, hp.built, ?_⟩
  intro name
  unfold Hierarchy.interfaceOf
  cases hn : h.nameToNode.find? name with
  | some node => rw [hp.interface hn, Option.map_some]
  | none =>
    cases hi : p.nameToPou.find? name with
    | none => rfl
    | some i =>
      have hmem : name ∈ p.nameToPou.keys :=
        List.mem_map_of_mem (f := Prod.fst) ((OrderedMap.find?_eq_some_iff _ _ _).mp hi)
      obtain ⟨node, hnode⟩ := hall name hmem
      rw [hn] at hnode
      cases hnode

end Project

/-- The builder makes a graph for each module, with the interface of the module. -/
def Hierarchy.buildGraphs (modules : Hierarchy) (fuel : ℕ) : Except String Hierarchy :=
  modules.nameToNode.keys.foldlM (Hierarchy.build modules.interfaceOf fuel) .empty

theorem Hierarchy.Coherent.buildGraphs_ok {modules : Hierarchy} (hc : modules.Coherent) :
    ∃ fuel₀, ∀ fuel ≥ fuel₀, ∃ graphs, modules.buildGraphs fuel = .ok graphs ∧ graphs.Built ∧
      ∀ name, graphs.interfaceOf name = modules.interfaceOf name := by
  have hfind : ∀ name, (modules.nameToNode.mapValues (·.interface)).find? name =
      modules.interfaceOf name := fun name => OrderedMap.find?_mapValues _ _ name
  let p : Project :=
    { nameToPou := modules.nameToNode.mapValues (·.interface)
      acyclic := by
        obtain ⟨rank, hrank⟩ := modules.acyclic
        refine ⟨rank, ?_⟩
        intro name i hi t ht
        rw [hfind] at hi
        obtain ⟨node, hn, rfl⟩ := Option.map_eq_some_iff.mp hi
        obtain ⟨hmem, callee, hcallee⟩ := hc.uses hn ht
        refine ⟨(hrank hn t hmem).1, callee.interface, ?_⟩
        rw [hfind, interfaceOf, hcallee]
        rfl }
  obtain ⟨fuel₀, hok⟩ := p.compile_ok
  refine ⟨fuel₀, ?_⟩
  intro fuel hfuel
  obtain ⟨graphs, hgraphs, hbuilt, hi⟩ := hok fuel hfuel
  refine ⟨graphs, ?_, hbuilt, fun name => (hi name).trans (hfind name)⟩
  have hkeys : p.nameToPou.keys = modules.nameToNode.keys := by
    change (modules.nameToNode.entries.map _).map _ = modules.nameToNode.entries.map _
    rw [List.map_map]
    rfl
  rw [Project.compile, hkeys, show p.nameToPou.find? = modules.interfaceOf from funext hfind]
    at hgraphs
  exact hgraphs

end Ahorn
