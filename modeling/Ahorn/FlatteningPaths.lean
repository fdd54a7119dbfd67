import Ahorn.CfgHierarchy
import Ahorn.EtfaReachable

set_option autoImplicit false

/-!
# What a flattened interface stands for

A flattened variable stands for a path of instances that ends in an elementary variable. It has the
type of that variable, but its initial value only where the path has no instance on it.
-/
namespace Ahorn

/-- A path of instances that ends in an elementary variable. -/
inductive InstancePath (interfaceOf : String → Option Interface) :
    String → List String → Variable → Prop where
  | elementary {name : String} {i : Interface} {v : Variable} : interfaceOf name = some i →
      v ∈ i.getVariables → v.dataType.isDerived = false →
      InstancePath interfaceOf name [v.name] v
  | nested {name t : String} {i : Interface} {f v : Variable} {path : List String} :
      interfaceOf name = some i → f ∈ i.getVariables → f.dataType = .derivedType t →
      InstancePath interfaceOf t path v → InstancePath interfaceOf name (f.name :: path) v

/-- The names on a path with dots between them. -/
def dotted : List String → String
  | [] => ""
  | [x] => x
  | f :: x :: path => f ++ "." ++ dotted (x :: path)

/-- One flattened variable for each path, declared as the variable at its end. -/
structure FaithfulInterface (interfaceOf : String → Option Interface) (name : String)
    (flattened : VariableMap) : Prop where
  complete : ∀ {path v}, InstancePath interfaceOf name path v →
    { v with name := dotted path } ∈ flattened.getVariables
  sound : ∀ {w}, w ∈ flattened.getVariables →
    ∃! path, ∃ v, InstancePath interfaceOf name path v ∧ w = { v with name := dotted path }

def flattenedVariable (path : List String) (v : Variable) : Variable where
  name := dotted path
  dataType := v.dataType
  storageType := v.storageType
  initialization := if path.length = 1 then v.initialization else none

variable {interfaceOf : String → Option Interface}

namespace InstancePath

theorem length_pos {name : String} {path : List String} {v : Variable}
    (h : InstancePath interfaceOf name path v) : 0 < path.length := by
  cases h <;> simp

theorem dotted_cons {name : String} {path : List String} {v : Variable} (f : String)
    (h : InstancePath interfaceOf name path v) : dotted (f :: path) = f ++ "." ++ dotted path := by
  cases h <;> rfl

theorem dotted_inj {name : String} {path path' : List String} {v v' : Variable}
    (h : InstancePath interfaceOf name path v) (h' : InstancePath interfaceOf name path' v')
    (hd : dotted path = dotted path') : path = path' ∧ v = v' := by
  induction h generalizing path' v' with
  | @elementary name i v hi hv hd' =>
    cases h' with
    | @elementary _ i' v' hi' hv' hd' =>
      rw [hi] at hi'
      cases hi'
      have hname : v.name = v'.name := hd
      cases VariableMap.eq_of_name hv hv' hname
      exact ⟨rfl, rfl⟩
    | @nested _ t i' f _ path hi' hf ht hpath =>
      rw [hpath.dotted_cons] at hd
      exact absurd hd (i.identifiers v hv).ne_append
  | @nested name t i f v path hi hf ht hpath ih =>
    rw [hpath.dotted_cons] at hd
    cases h' with
    | @elementary _ i' v' hi' hv' hd' =>
      exact absurd hd.symm (i'.identifiers v' hv').ne_append
    | @nested _ t' i' f' _ path' hi' hf' ht' hpath' =>
      rw [hi] at hi'
      cases hi'
      rw [hpath'.dotted_cons] at hd
      obtain ⟨hff, hdd⟩ := (i.identifiers f hf).append_inj (i.identifiers f' hf') hd
      cases VariableMap.eq_of_name hf hf' hff
      rw [ht] at ht'
      cases ht'
      obtain ⟨rfl, rfl⟩ := ih hpath' hdd
      exact ⟨rfl, rfl⟩

end InstancePath

theorem nestedVariable_flattenedVariable {name t : String} {path : List String} {v : Variable}
    (f : String) (h : InstancePath interfaceOf name path v) :
    nestedVariable f t (flattenedVariable path v) = flattenedVariable (f :: path) v := by
  have hname : (nestedVariable f t (flattenedVariable path v)).name = dotted (f :: path) := by
    rw [nestedVariable_name, h.dotted_cons]
    rfl
  have hpos := h.length_pos
  have hlength : (f :: path).length ≠ 1 := by
    rw [List.length_cons]
    omega
  unfold flattenedVariable
  rw [if_neg hlength, ← hname]
  rfl

theorem Hierarchy.Coherent.mem_flattenedInterface {h : Hierarchy} (hc : h.Coherent) {name : String}
    {node : Node} (hn : h.nameToNode.find? name = some node) (w : Variable) :
    w ∈ node.flattenedInterface.getVariables ↔
      ∃ path v, InstancePath h.interfaceOf name path v ∧ w = flattenedVariable path v := by
  obtain ⟨rank, hrank⟩ := h.acyclic
  generalize hr : rank name = r
  induction r using Nat.strong_induction_on generalizing name node w with
  | _ r ih =>
    have hi : h.interfaceOf name = some node.interface := by
      unfold interfaceOf
      rw [hn]
      rfl
    rw [mem_updateFlattenedInterface (hc hn)]
    constructor
    · rintro (⟨hw, hd⟩ | ⟨f, hf, t, rep, ht, hrep, u, hu, rfl⟩)
      · exact ⟨[w.name], w, .elementary hi hw hd, rfl⟩
      · obtain ⟨hmem, callee, hcallee⟩ := hc.uses hn ⟨f, hf, ht⟩
        unfold nameToUnit at hrep
        rw [if_pos hmem, hcallee] at hrep
        cases hrep
        obtain ⟨path, v, hpath, rfl⟩ := (ih (rank t) (hr ▸ (hrank hn t hmem).1) hcallee u rfl).mp hu
        exact ⟨f.name :: path, v, .nested hi hf ht hpath,
          nestedVariable_flattenedVariable f.name hpath⟩
    · rintro ⟨path, v, hpath, rfl⟩
      cases hpath with
      | elementary hi' hv hd =>
        rw [hi] at hi'
        cases hi'
        exact Or.inl ⟨hv, hd⟩
      | @nested _ t _ f _ path hi' hf ht hpath =>
        rw [hi] at hi'
        cases hi'
        obtain ⟨hmem, callee, hcallee⟩ := hc.uses hn ⟨f, hf, ht⟩
        refine Or.inr ⟨f, hf, t, callee.flattenedInterface, ht, ?_, flattenedVariable path v, ?_,
          (nestedVariable_flattenedVariable f.name hpath).symm⟩
        · unfold nameToUnit
          rw [if_pos hmem, hcallee]
          rfl
        · exact (ih (rank t) (hr ▸ (hrank hn t hmem).1) hcallee _ rfl).mpr ⟨path, v, hpath, rfl⟩

theorem Hierarchy.Coherent.faithful_iff {h : Hierarchy} (hc : h.Coherent) {name : String}
    {node : Node} (hn : h.nameToNode.find? name = some node) :
    FaithfulInterface h.interfaceOf name node.flattenedInterface ↔
      ∀ path v, InstancePath h.interfaceOf name path v → 2 ≤ path.length →
        v.initialization = none := by
  constructor
  · intro hfaithful path v hpath hlength
    obtain ⟨path', v', hpath', hv⟩ :=
      (hc.mem_flattenedInterface hn _).mp (hfaithful.complete hpath)
    obtain ⟨rfl, rfl⟩ := hpath.dotted_inj hpath' (congrArg Variable.name hv)
    have hinit : v.initialization = if path.length = 1 then v.initialization else none :=
      congrArg Variable.initialization hv
    rw [if_neg (by omega)] at hinit
    exact hinit
  · intro hnone
    have hdeclared : ∀ {path v}, InstancePath h.interfaceOf name path v →
        flattenedVariable path v = { v with name := dotted path } := by
      intro path v hpath
      unfold flattenedVariable
      by_cases hlength : path.length = 1
      · rw [if_pos hlength]
      · have hpos := hpath.length_pos
        rw [if_neg hlength, hnone path v hpath (by omega)]
    constructor
    · intro path v hpath
      rw [← hdeclared hpath]
      exact (hc.mem_flattenedInterface hn _).mpr ⟨path, v, hpath, rfl⟩
    · intro w hw
      obtain ⟨path, v, hpath, rfl⟩ := (hc.mem_flattenedInterface hn w).mp hw
      refine ⟨path, ⟨v, hpath, hdeclared hpath⟩, ?_⟩
      rintro path' ⟨v', hpath', hv'⟩
      exact (hpath'.dotted_inj hpath (congrArg Variable.name hv').symm).1

namespace Etfa.Engine

theorem initialState_ok {inputs : List String} {entries : List (String × Variable)}
    (versions : Versions) (st : State)
    (hdistinct : entries.Pairwise fun x y => x.1 < y.1)
    (hok : ∀ x v, (x, v) ∈ entries → ∃ e, initialValuation inputs x v = .ok e) :
    ∃ (versions' : Versions) (st' : State),
      initialState inputs entries (versions, st) = .ok (versions', st') ∧
      (∀ n e, st.symbolicValuations.find? n = some e →
        st'.symbolicValuations.find? n = some e) ∧
      ∀ x v e, (x, v) ∈ entries → initialValuation inputs x v = .ok e →
        st.symbolicValuations.find? (contextualized x 0 0) = none →
        st'.symbolicValuations.find? (contextualized x 0 0) = some e := by
  induction entries generalizing versions st with
  | nil => exact ⟨versions, st, rfl, fun _ _ h => h, fun _ _ _ h => absurd h List.not_mem_nil⟩
  | cons entry entries ih =>
    obtain ⟨x, v⟩ := entry
    obtain ⟨e, he⟩ := hok x v List.mem_cons_self
    obtain ⟨versions', st', hrest, hkeep, hnew⟩ := ih (versions.emplace x 0)
      { st with
        symbolicValuations := st.symbolicValuations.emplace (contextualized x 0 0) e
        flattenedNameToVersion := st.flattenedNameToVersion.emplace x 0 }
      hdistinct.of_cons fun y w hy => hok y w (List.mem_cons_of_mem _ hy)
    refine ⟨versions', st', ?_, ?_, ?_⟩
    · rw [initialState, he]
      exact hrest
    · intro n e' hn
      apply hkeep
      change (OrderedMap.emplace _ _ _).find? n = _
      rw [OrderedMap.find?_emplace]
      split_ifs with hname
      · rw [← hname, hn, Option.some_or]
      · exact hn
    · intro y w e' hy hw hfresh
      rcases List.mem_cons.mp hy with hfirst | hrest
      · cases hfirst
        rw [he] at hw
        cases hw
        exact hkeep _ _ (OrderedMap.find?_emplace_self _ hfresh)
      · apply hnew y w e' hrest hw
        have hlt : x < y := List.rel_of_pairwise_cons hdistinct hrest
        change (OrderedMap.emplace _ _ _).find? _ = _
        rw [OrderedMap.find?_emplace_ne, hfresh]
        intro hname
        exact absurd (contextualized_injective hname).1 (ne_of_gt hlt)

/-- The declared initial value of a variable, or the default of its type. -/
def declaredValuation (v : Variable) : Except String (SortedTerm String) :=
  match v.initialization with
  | some value => .ok (makeValue value)
  | none => makeDefaultValue v.dataType

end Etfa.Engine

/-- The graph of a unit with the variables of its interface under their fully qualified names. -/
def Node.unitCfg (node : Node) (name : String) (type : CfgType) (cfg : Cfg) : UnitCfg where
  toCfg := cfg
  type := type
  name := name
  interface := node.interface.getVariables
  flattenedInterface := OrderedMap.empty.emplaceAll
    (node.flattenedInterface.getVariables.map fun w => (name ++ "." ++ w.name, w))

open Etfa.Engine in
/-- The state the engine starts in has a value for every variable in an instance, the declared one
or the default. -/
def StartsAsDeclared (interfaceOf : String → Option Interface) (p : Etfa.Program) : Prop :=
  (∀ path v, InstancePath interfaceOf p.main.name path v → ∃ s, v.dataType.sort = .ok s) →
    ∀ vertex, ∃ versions st,
      initialState p.wholeProgramInputs p.main.flattenedInterface.entries
        (.empty, ⟨vertex, .empty, [.booleanValue true], .empty⟩) = .ok (versions, st) ∧
      ∀ path v, InstancePath interfaceOf p.main.name path v → 2 ≤ path.length →
        ∃ e, declaredValuation v = .ok e ∧
          st.symbolicValuations.find?
            (contextualized (p.main.name ++ "." ++ dotted path) 0 0) = some e

theorem Node.mem_unitCfg {node : Node} {name x : String} {type : CfgType} {cfg : Cfg}
    {w : Variable} :
    (x, w) ∈ (node.unitCfg name type cfg).flattenedInterface.entries ↔
      x = name ++ "." ++ w.name ∧ w ∈ node.flattenedInterface.getVariables := by
  rw [← OrderedMap.find?_eq_some_iff]
  change (OrderedMap.find? (OrderedMap.emplaceAll _ _) x) = _ ↔ _
  rw [OrderedMap.find?_emplaceAll, OrderedMap.find?_empty, Option.none_or]
  constructor
  · intro hx
    obtain ⟨u, hu, he⟩ := List.mem_map.mp (OrderedMap.mem_of_lookup hx)
    cases he
    exact ⟨rfl, hu⟩
  · rintro ⟨rfl, hw⟩
    apply OrderedMap.lookup_eq_some_of_mem
    · exact List.mem_map.mpr ⟨w, hw, rfl⟩
    intro u hu
    obtain ⟨u', hu', he⟩ := List.mem_map.mp hu
    obtain ⟨hname, rfl⟩ := Prod.mk.inj he
    apply VariableMap.eq_of_name hu' hw
    have hl := congrArg String.toList hname
    simp only [String.toList_append, List.append_assoc] at hl
    exact String.toList_injective (List.append_cancel_left (List.append_cancel_left hl))

section Start

open Etfa.Engine

variable {h : Hierarchy} {name : String} {node : Node} {p : Etfa.Program} {type : CfgType}
  {cfg : Cfg}

theorem InstancePath.notMem_wholeProgramInputs (hp : p.main = node.unitCfg name type cfg)
    {path : List String} {v : Variable}
    (hpath : InstancePath h.interfaceOf name path v) (hlength : 2 ≤ path.length) :
    name ++ "." ++ dotted path ∉ p.wholeProgramInputs := by
  unfold Etfa.Program.wholeProgramInputs
  rw [hp]
  intro hmem
  obtain ⟨u, hu, hname⟩ := List.mem_map.mp hmem
  have hu : u ∈ node.interface.getVariables := (List.mem_filter.mp hu).1
  have hl := congrArg String.toList hname
  simp only [Node.unitCfg, String.toList_append, List.append_assoc] at hl
  have hdotted : u.name = dotted path :=
    String.toList_injective (List.append_cancel_left (List.append_cancel_left hl))
  cases hpath with
  | elementary => simp at hlength
  | nested hi hf ht hpath =>
    rw [hpath.dotted_cons] at hdotted
    exact absurd hdotted (node.interface.identifiers u hu).ne_append

theorem Hierarchy.Coherent.startsAsDeclared (hc : h.Coherent)
    (hn : h.nameToNode.find? name = some node) (hp : p.main = node.unitCfg name type cfg)
    (hnone : ∀ path v, InstancePath h.interfaceOf name path v → 2 ≤ path.length →
      v.initialization = none) : StartsAsDeclared h.interfaceOf p := by
  have hname : p.main.name = name := by rw [hp]; rfl
  unfold StartsAsDeclared
  rw [hname]
  intro hsorts vertex
  have hentry : ∀ x w, (x, w) ∈ p.main.flattenedInterface.entries ↔
      ∃ path v, InstancePath h.interfaceOf name path v ∧ w = flattenedVariable path v ∧
        x = name ++ "." ++ dotted path := by
    intro x w
    rw [hp, Node.mem_unitCfg, hc.mem_flattenedInterface hn]
    constructor
    · rintro ⟨rfl, path, v, hpath, rfl⟩
      exact ⟨path, v, hpath, rfl, rfl⟩
    · rintro ⟨path, v, hpath, rfl, rfl⟩
      exact ⟨rfl, path, v, hpath, rfl⟩
  have hdefault : ∀ {d : DataType} {s}, d.sort = .ok s → ∃ e, makeDefaultValue d = .ok e := by
    intro d s hs
    unfold makeDefaultValue
    rw [hs]
    cases s <;> exact ⟨_, rfl⟩
  obtain ⟨versions, st, hok, -, hvalues⟩ := @initialState_ok p.wholeProgramInputs _
    .empty ⟨vertex, .empty, [.booleanValue true], .empty⟩ p.main.flattenedInterface.sorted (by
      intro x w hx
      obtain ⟨path, v, hpath, rfl, -⟩ := (hentry x w).mp hx
      obtain ⟨s, hs⟩ := hsorts path v hpath
      unfold initialValuation
      split
      · unfold makeConstant
        rw [show (flattenedVariable path v).dataType.sort = .ok s from hs]
        exact ⟨_, rfl⟩
      · split
        · exact ⟨_, rfl⟩
        · exact hdefault hs)
  refine ⟨versions, st, hok, ?_⟩
  intro path v hpath hlength
  obtain ⟨s, hs⟩ := hsorts path v hpath
  obtain ⟨e, he⟩ := hdefault hs
  refine ⟨e, ?_, ?_⟩
  · unfold declaredValuation
    rw [hnone path v hpath hlength]
    exact he
  · apply hvalues _ _ e ((hentry _ _).mpr ⟨path, v, hpath, rfl, rfl⟩) ?_ rfl
    unfold initialValuation
    rw [if_neg (hpath.notMem_wholeProgramInputs hp hlength)]
    have hinit : (flattenedVariable path v).initialization = none := if_neg (by omega)
    rw [hinit]
    exact he

end Start

namespace Project

/-- Modules and graphs have faithful interfaces, and the engine starts with the declared values, if
and only if nothing in an instance has a declared initial value. -/
theorem flattening_faithful_iff (p : Project) : ∃ fuel₀, ∀ fuel ≥ fuel₀, ∃ modules,
    p.compile fuel = .ok modules ∧ ∃ fuel₁, ∀ fuel' ≥ fuel₁, ∃ graphs,
      modules.buildGraphs fuel' = .ok graphs ∧
      ∀ name i, p.nameToPou.find? name = some i → ∃ module graph,
        modules.nameToNode.find? name = some module ∧
        graphs.nameToNode.find? name = some graph ∧
        ((FaithfulInterface p.nameToPou.find? name module.flattenedInterface ∧
          FaithfulInterface p.nameToPou.find? name graph.flattenedInterface ∧
          ∀ (q : Etfa.Program) (type : CfgType) (cfg : Cfg),
            q.main = graph.unitCfg name type cfg → StartsAsDeclared p.nameToPou.find? q) ↔
        ∀ path v, InstancePath p.nameToPou.find? name path v → 2 ≤ path.length →
          v.initialization = none) := by
  obtain ⟨fuel₀, hcompile⟩ := p.compile_ok
  refine ⟨fuel₀, ?_⟩
  intro fuel hfuel
  obtain ⟨modules, hmodules, hbuilt, hi⟩ := hcompile fuel hfuel
  refine ⟨modules, hmodules, ?_⟩
  have hcm : modules.Coherent := hbuilt.coherent
  obtain ⟨fuel₁, hbuild⟩ := hcm.buildGraphs_ok
  refine ⟨fuel₁, ?_⟩
  intro fuel' hfuel'
  obtain ⟨graphs, hgraphs, hbuilt', hi'⟩ := hbuild fuel' hfuel'
  refine ⟨graphs, hgraphs, ?_⟩
  have hcg : graphs.Coherent := hbuilt'.coherent
  have hinterface : modules.interfaceOf = p.nameToPou.find? := funext hi
  have hinterface' : graphs.interfaceOf = p.nameToPou.find? := by
    rw [← hinterface]
    exact funext hi'
  intro name i hname
  have hpresent : ∀ {h : Hierarchy}, h.interfaceOf = p.nameToPou.find? →
      ∃ node, h.nameToNode.find? name = some node := by
    intro h hh
    have hsome := congrFun hh name
    rw [hname] at hsome
    obtain ⟨node, hnode, -⟩ := Option.map_eq_some_iff.mp hsome
    exact ⟨node, hnode⟩
  obtain ⟨module, hmodule⟩ := hpresent hinterface
  obtain ⟨graph, hgraph⟩ := hpresent hinterface'
  refine ⟨module, graph, hmodule, hgraph, ?_⟩
  have hfm := hcm.faithful_iff hmodule
  have hfg := hcg.faithful_iff hgraph
  have hstart := fun hnone (q : Etfa.Program) (type : CfgType) (cfg : Cfg)
    (hq : q.main = graph.unitCfg name type cfg) => hcg.startsAsDeclared hgraph hq hnone
  rw [hinterface] at hfm
  rw [hinterface'] at hfg hstart
  constructor
  · rintro ⟨hm, -, -⟩
    exact hfm.mp hm
  · intro hnone
    exact ⟨hfm.mpr hnone, hfg.mpr hnone, hstart hnone⟩

def counter : Interface := .ofVariables [⟨"x", .int, .local, some (.int 5)⟩] (by decide)

def counting : Interface := .ofVariables [⟨"f", .derivedType "Counter", .local, none⟩] (by decide)

/-- A program with an instance of a function block whose variable starts with a value. -/
def initialized : Project :=
  ranked ((OrderedMap.empty.emplace "Counter" counter).emplace "Main" counting)
    (fun name => if name = "Main" then 1 else 0) (by decide)

/-- The declared initial value of a variable in an instance is lost. -/
theorem exists_initial_value_lost : ∃ modules node, initialized.compile 2 = .ok modules ∧
    modules.nameToNode.find? "Main" = some node ∧
    node.flattenedInterface.getVariables = [⟨"f.x", .int, .local, none⟩] ∧
    ¬ FaithfulInterface initialized.nameToPou.find? "Main" node.flattenedInterface := by
  have hrun : ((initialized.compile 2).toOption.bind fun modules =>
      (modules.nameToNode.find? "Main").map (·.flattenedInterface.getVariables)) =
      some [⟨"f.x", .int, .local, none⟩] := by decide +kernel
  obtain ⟨modules, hmodules, hnode⟩ := Option.bind_eq_some_iff.mp hrun
  obtain ⟨node, hfind, hvariables⟩ := Option.map_eq_some_iff.mp hnode
  refine ⟨modules, node, toOption_eq_some hmodules, hfind, hvariables, ?_⟩
  intro hfaithful
  have hpath : InstancePath initialized.nameToPou.find? "Main" ["f", "x"]
      ⟨"x", .int, .local, some (.int 5)⟩ :=
    .nested (i := counting) (f := ⟨"f", .derivedType "Counter", .local, none⟩) rfl (by decide) rfl
      (.elementary (i := counter) (v := ⟨"x", .int, .local, some (.int 5)⟩) rfl (by decide) rfl)
  have hmem := hfaithful.complete hpath
  rw [hvariables] at hmem
  revert hmem
  decide

end Project

end Ahorn
