import Ahorn.ControlFlowGraph
import Ahorn.Names
import Ahorn.Results

set_option autoImplicit false

/-!
# Flattened interfaces

A unit refers to the units whose types its variables have. Its flattened interface holds its
elementary variables and those of all instances in it, under their names behind the names of the
instances. Modules and graphs flatten their interfaces alike, when they are made and whenever a
variable is added or removed.
-/
namespace Ahorn

def DataType.isDerived : DataType → Bool
  | derivedType _ => true
  | _ => false

/-- Variables under their names. -/
structure VariableMap where
  nameToVariable : OrderedMap String Variable
  named : ∀ {name v}, nameToVariable.find? name = some v → v.name = name

namespace VariableMap

theorem ext_nameToVariable {m m' : VariableMap} (h : m.nameToVariable = m'.nameToVariable) :
    m = m' := by
  cases m
  cases m'
  cases h
  rfl

instance : DecidableEq VariableMap := fun m m' =>
  decidable_of_iff (m.nameToVariable = m'.nameToVariable)
    ⟨ext_nameToVariable, fun h => congrArg nameToVariable h⟩

def empty : VariableMap where
  nameToVariable := .empty
  named := by simp

def emplace (m : VariableMap) (v : Variable) : VariableMap where
  nameToVariable := m.nameToVariable.emplace v.name v
  named := by
    intro name w h
    rw [OrderedMap.find?_emplace] at h
    split_ifs at h with hname
    · cases hold : m.nameToVariable.find? v.name with
      | none =>
        rw [hold, Option.none_or] at h
        cases h
        exact hname.symm
      | some w' =>
        rw [hold, Option.some_or] at h
        cases h
        rw [hname, m.named hold]
    · exact m.named h

def erase (m : VariableMap) (name : String) : VariableMap where
  nameToVariable := m.nameToVariable.erase name
  named := by
    intro x v h
    rw [OrderedMap.find?_erase] at h
    split_ifs at h
    exact m.named h

def getVariables (m : VariableMap) : List Variable := m.nameToVariable.entries.map Prod.snd

def emplaceAll (m : VariableMap) (vs : List Variable) : VariableMap := vs.foldl emplace m

theorem emplaceAll_append (m : VariableMap) (vs ws : List Variable) :
    m.emplaceAll (vs ++ ws) = (m.emplaceAll vs).emplaceAll ws :=
  List.foldl_append

theorem find?_emplaceAll (m : VariableMap) (vs : List Variable) (x : String) :
    (m.emplaceAll vs).nameToVariable.find? x =
      (m.nameToVariable.find? x).or (vs.find? (·.name = x)) := by
  induction vs generalizing m with
  | nil => simp [emplaceAll]
  | cons v vs ih =>
    change ((m.emplace v).emplaceAll vs).nameToVariable.find? x = _
    rw [ih, emplace, OrderedMap.find?_emplace, List.find?_cons]
    by_cases hx : x = v.name
    · subst hx
      cases m.nameToVariable.find? v.name <;> simp
    · simp [hx, Ne.symm hx]

theorem mem_getVariables {m : VariableMap} {v : Variable} :
    v ∈ m.getVariables ↔ m.nameToVariable.find? v.name = some v := by
  unfold getVariables
  constructor
  · intro h
    obtain ⟨⟨x, w⟩, hm, rfl⟩ := List.mem_map.mp h
    have hfind := (OrderedMap.find?_eq_some_iff _ _ _).mpr hm
    rw [m.named hfind]
    exact hfind
  · intro h
    exact List.mem_map.mpr ⟨_, (OrderedMap.find?_eq_some_iff _ _ _).mp h, rfl⟩

theorem ext_getVariables {m m' : VariableMap} (h : ∀ v, v ∈ m.getVariables ↔ v ∈ m'.getVariables) :
    m = m' := by
  apply ext_nameToVariable
  apply OrderedMap.ext_find?
  intro x
  apply Option.ext
  intro v
  constructor
  · intro hv
    have hname := m.named hv
    rw [← hname] at hv ⊢
    exact mem_getVariables.mp ((h v).mp (mem_getVariables.mpr hv))
  · intro hv
    have hname := m'.named hv
    rw [← hname] at hv ⊢
    exact mem_getVariables.mp ((h v).mpr (mem_getVariables.mpr hv))

end VariableMap

/-- A name without a dot: dots separate the instances. -/
def Identifier (name : String) : Prop := '.' ∉ name.toList

instance (name : String) : Decidable (Identifier name) :=
  inferInstanceAs (Decidable ('.' ∉ name.toList))

structure Interface extends VariableMap where
  identifiers : ∀ v ∈ toVariableMap.getVariables, Identifier v.name

namespace Interface

def empty : Interface where
  toVariableMap := .empty
  identifiers := by
    intro v hv
    cases hv

/-- Of several variables of one name the first is kept. -/
def ofVariables (vs : List Variable) (hvs : ∀ v ∈ vs, Identifier v.name) : Interface where
  toVariableMap := VariableMap.empty.emplaceAll vs
  identifiers := by
    intro v hv
    rw [VariableMap.mem_getVariables, VariableMap.find?_emplaceAll] at hv
    change none.or _ = _ at hv
    rw [Option.none_or] at hv
    exact hvs v (List.mem_of_find?_eq_some hv)

/-- Insertion throws when there is a variable of that name. -/
def addVariable (i : Interface) (v : Variable) (hv : Identifier v.name) : Except String Interface :=
  match i.nameToVariable.find? v.name with
  | none =>
    .ok {
      toVariableMap := i.emplace v
      identifiers := by
        intro w hw
        rw [VariableMap.mem_getVariables, VariableMap.emplace, OrderedMap.find?_emplace] at hw
        split_ifs at hw with hname
        · rw [hname]
          exact hv
        · exact i.identifiers w (VariableMap.mem_getVariables.mpr hw) }
  | some _ => .error "Variable already exists."

def removeVariable (i : Interface) (name : String) : Interface where
  toVariableMap := i.erase name
  identifiers := by
    intro w hw
    rw [VariableMap.mem_getVariables, VariableMap.erase, OrderedMap.find?_erase] at hw
    split_ifs at hw
    exact i.identifiers w (VariableMap.mem_getVariables.mpr hw)

/-- Some variable of the interface is an instance of the type. -/
def Uses (i : Interface) (typeName : String) : Prop :=
  ∃ v ∈ i.getVariables, v.dataType = .derivedType typeName

end Interface

def replaceFirst (s : String) (count : ℕ) (replacement : String) : String :=
  replacement ++ String.ofList (s.toList.drop count)

/-- The variable that stands for a flattened variable of the type of an instance. -/
def nestedVariable (variableName typeName : String) (flattened : Variable) : Variable where
  name := replaceFirst (typeName ++ "." ++ flattened.name) typeName.length variableName
  dataType := flattened.dataType
  storageType := flattened.storageType

/-- The flattened variables that a variable of the interface stands for. -/
def flattenedVariables (nameToUnit : String → Option VariableMap) (v : Variable) :
    Except String (List Variable) :=
  match v.dataType with
  | .derivedType typeName =>
    match nameToUnit typeName with
    | none => .error "map::at"
    | some typeRepresentative =>
      .ok (typeRepresentative.getVariables.map (nestedVariable v.name typeName))
  | _ => .ok [v]

def flattenAll (nameToUnit : String → Option VariableMap) :
    List Variable → VariableMap → Except String VariableMap
  | [], flattened => .ok flattened
  | v :: vs, flattened => do
    let ws ← flattenedVariables nameToUnit v
    flattenAll nameToUnit vs (flattened.emplaceAll ws)

def updateFlattenedInterface (nameToUnit : String → Option VariableMap) (i : Interface) :
    Except String VariableMap :=
  flattenAll nameToUnit i.getVariables .empty

@[simp] theorem nestedVariable_name (f t : String) (w : Variable) :
    (nestedVariable f t w).name = f ++ "." ++ w.name := by
  have hlength : t.length = t.toList.length := String.length_toList.symm
  apply String.toList_injective
  simp [nestedVariable, replaceFirst, hlength]

theorem flattenedVariables_ok {nameToUnit : String → Option VariableMap} {v : Variable}
    (h : ∀ t, v.dataType = .derivedType t → ∃ rep, nameToUnit t = some rep) :
    ∃ ws, flattenedVariables nameToUnit v = .ok ws := by
  unfold flattenedVariables
  split
  · rename_i t ht
    obtain ⟨rep, hrep⟩ := h t ht
    rw [hrep]
    exact ⟨_, rfl⟩
  · exact ⟨_, rfl⟩

theorem mem_flattenedVariables {nameToUnit : String → Option VariableMap} {v w : Variable}
    {ws : List Variable} (h : flattenedVariables nameToUnit v = .ok ws) :
    w ∈ ws ↔ (v.dataType.isDerived = false ∧ w = v) ∨
      ∃ t rep, v.dataType = .derivedType t ∧ nameToUnit t = some rep ∧
        ∃ u ∈ rep.getVariables, w = nestedVariable v.name t u := by
  unfold flattenedVariables at h
  split at h
  · rename_i t ht
    rw [ht]
    split at h
    · cases h
    · rename_i rep hrep
      cases h
      simp only [List.mem_map, DataType.isDerived, Bool.true_eq_false, false_and, false_or,
        DataType.derivedType.injEq]
      constructor
      · rintro ⟨u, hu, rfl⟩
        exact ⟨t, rep, rfl, hrep, u, hu, rfl⟩
      · rintro ⟨_, rep', rfl, hrep', u, hu, rfl⟩
        rw [hrep] at hrep'
        cases hrep'
        exact ⟨u, hu, rfl⟩
  · rename_i hne
    cases h
    have hd : v.dataType.isDerived = false := by
      cases hv : v.dataType <;> first | rfl | exact absurd hv (hne _)
    simp only [List.mem_singleton, hd, true_and]
    constructor
    · exact Or.inl
    · rintro (h | ⟨t, _, ht, _⟩)
      · exact h
      · exact absurd ht (hne t)

/-- A variable of the interface, or one nested in an instance of it. -/
def Flattens (nameToUnit : String → Option VariableMap) (i : Interface) (w : Variable) : Prop :=
  (w ∈ i.getVariables ∧ w.dataType.isDerived = false) ∨
    ∃ v ∈ i.getVariables, ∃ t rep, v.dataType = .derivedType t ∧ nameToUnit t = some rep ∧
      ∃ u ∈ rep.getVariables, w = nestedVariable v.name t u

theorem flattenAll_ok {nameToUnit : String → Option VariableMap} {vs : List Variable}
    (m : VariableMap)
    (h : ∀ v ∈ vs, ∀ t, v.dataType = .derivedType t → ∃ rep, nameToUnit t = some rep) :
    ∃ f, flattenAll nameToUnit vs m = .ok f := by
  induction vs generalizing m with
  | nil => exact ⟨m, rfl⟩
  | cons v vs ih =>
    obtain ⟨ws, hws⟩ := flattenedVariables_ok (h v List.mem_cons_self)
    rw [flattenAll, hws]
    exact ih _ fun w hw => h w (List.mem_cons_of_mem _ hw)

theorem flattenAll_spec {nameToUnit : String → Option VariableMap} {vs : List Variable}
    {m f : VariableMap} (h : flattenAll nameToUnit vs m = .ok f) :
    ∃ ws, f = m.emplaceAll ws ∧
      ∀ w, w ∈ ws ↔ ∃ v ∈ vs, ∃ us, flattenedVariables nameToUnit v = .ok us ∧ w ∈ us := by
  induction vs generalizing m with
  | nil =>
    cases h
    exact ⟨[], rfl, by simp⟩
  | cons v vs ih =>
    rw [flattenAll] at h
    cases hus : flattenedVariables nameToUnit v with
    | error e =>
      rw [hus] at h
      cases h
    | ok us =>
      rw [hus] at h
      obtain ⟨ws, rfl, hws⟩ := ih h
      refine ⟨us ++ ws, (VariableMap.emplaceAll_append _ _ _).symm, ?_⟩
      intro w
      rw [List.mem_append, hws]
      constructor
      · rintro (hw | ⟨v', hv', us', hus', hw⟩)
        · exact ⟨v, List.mem_cons_self, us, hus, hw⟩
        · exact ⟨v', List.mem_cons_of_mem _ hv', us', hus', hw⟩
      · rintro ⟨v', hv', us', hus', hw⟩
        rcases List.mem_cons.mp hv' with rfl | hv'
        · rw [hus] at hus'
          cases hus'
          exact Or.inl hw
        · exact Or.inr ⟨v', hv', us', hus', hw⟩

theorem updateFlattenedInterface_ok {nameToUnit : String → Option VariableMap} {i : Interface}
    (h : ∀ t, i.Uses t → ∃ rep, nameToUnit t = some rep) :
    ∃ f, updateFlattenedInterface nameToUnit i = .ok f := by
  apply flattenAll_ok
  intro v hv t ht
  exact h t ⟨v, hv, ht⟩

theorem VariableMap.eq_of_name {m : VariableMap} {v w : Variable} (hv : v ∈ m.getVariables)
    (hw : w ∈ m.getVariables) (h : v.name = w.name) : v = w := by
  rw [VariableMap.mem_getVariables] at hv hw
  rw [h, hw] at hv
  cases hv
  rfl

theorem Identifier.append_inj {f g x y : String} (hf : Identifier f) (hg : Identifier g)
    (h : f ++ "." ++ x = g ++ "." ++ y) : f = g ∧ x = y := by
  have hl := congrArg String.toList h
  simp only [String.toList_append, List.append_assoc] at hl
  obtain ⟨hfg, hxy⟩ := append_cons_inj_of_notMem_left hf hg hl
  exact ⟨String.toList_injective hfg, String.toList_injective hxy⟩

theorem Identifier.ne_append {f g x : String} (hf : Identifier f) : f ≠ g ++ "." ++ x := by
  rintro rfl
  apply hf
  simp

theorem Flattens.eq_of_name {nameToUnit : String → Option VariableMap} {i : Interface}
    {w w' : Variable} (h : Flattens nameToUnit i w) (h' : Flattens nameToUnit i w')
    (hname : w.name = w'.name) : w = w' := by
  rcases h with ⟨hw, -⟩ | ⟨v, hv, t, rep, ht, hrep, u, hu, rfl⟩
  · rcases h' with ⟨hw', -⟩ | ⟨v', hv', t', rep', ht', hrep', u', hu', rfl⟩
    · exact VariableMap.eq_of_name hw hw' hname
    · rw [nestedVariable_name] at hname
      exact absurd hname (i.identifiers w hw).ne_append
  · rcases h' with ⟨hw', -⟩ | ⟨v', hv', t', rep', ht', hrep', u', hu', rfl⟩
    · rw [nestedVariable_name] at hname
      exact absurd hname.symm (i.identifiers w' hw').ne_append
    · simp only [nestedVariable_name] at hname
      obtain ⟨hvv, huu⟩ := (i.identifiers v hv).append_inj (i.identifiers v' hv') hname
      cases VariableMap.eq_of_name hv hv' hvv
      rw [ht] at ht'
      cases ht'
      rw [hrep] at hrep'
      cases hrep'
      rw [VariableMap.eq_of_name hu hu' huu]

/-- The flattened interface holds the variables of the interface and those nested in it. -/
theorem mem_updateFlattenedInterface {nameToUnit : String → Option VariableMap} {i : Interface}
    {f : VariableMap} (h : updateFlattenedInterface nameToUnit i = .ok f) (w : Variable) :
    w ∈ f.getVariables ↔ Flattens nameToUnit i w := by
  obtain ⟨ws, rfl, hws⟩ := flattenAll_spec h
  have hmem : ∀ w, w ∈ ws ↔ Flattens nameToUnit i w := by
    intro w
    rw [hws]
    unfold Flattens
    constructor
    · rintro ⟨v, hv, us, hus, hw⟩
      rcases (mem_flattenedVariables hus).mp hw with ⟨hd, rfl⟩ | ⟨t, rep, ht, hrep, u, hu, rfl⟩
      · exact Or.inl ⟨hv, hd⟩
      · exact Or.inr ⟨v, hv, t, rep, ht, hrep, u, hu, rfl⟩
    · rintro (⟨hw, hd⟩ | ⟨v, hv, t, rep, ht, hrep, u, hu, rfl⟩)
      · obtain ⟨us, hus⟩ := @flattenedVariables_ok nameToUnit w
          (by
            intro t ht
            rw [ht] at hd
            cases hd)
        exact ⟨w, hw, us, hus, (mem_flattenedVariables hus).mpr (Or.inl ⟨hd, rfl⟩)⟩
      · obtain ⟨us, hus⟩ := @flattenedVariables_ok nameToUnit v
          (by
            intro t' ht'
            rw [ht] at ht'
            cases ht'
            exact ⟨rep, hrep⟩)
        exact ⟨v, hv, us, hus, (mem_flattenedVariables hus).mpr
          (Or.inr ⟨t, rep, ht, hrep, u, hu, rfl⟩)⟩
  rw [VariableMap.mem_getVariables, VariableMap.find?_emplaceAll]
  change (none.or (ws.find? (·.name = w.name)) = some w) ↔ _
  rw [Option.none_or, ← hmem]
  constructor
  · intro hfind
    exact List.mem_of_find?_eq_some hfind
  · intro hw
    cases hfind : ws.find? (·.name = w.name) with
    | none =>
      rw [List.find?_eq_none] at hfind
      simpa using hfind w hw
    | some w' =>
      have hname : w'.name = w.name := by simpa using List.find?_some hfind
      have hw' := (hmem w').mp (List.mem_of_find?_eq_some hfind)
      rw [hw'.eq_of_name ((hmem w).mp hw) hname]

/-- Every type in use is looked up. -/
theorem exists_unit_of_updateFlattenedInterface {nameToUnit : String → Option VariableMap}
    {i : Interface} {f : VariableMap} (h : updateFlattenedInterface nameToUnit i = .ok f)
    {t : String}
    (ht : i.Uses t) : ∃ rep, nameToUnit t = some rep := by
  have hall : ∀ (vs : List Variable) (m : VariableMap), flattenAll nameToUnit vs m = .ok f →
      ∀ v ∈ vs, v.dataType = .derivedType t → ∃ rep, nameToUnit t = some rep := by
    intro vs
    induction vs with
    | nil =>
      intro m _ v hv
      cases hv
    | cons v vs ih =>
      intro m hm w hw hwt
      rw [flattenAll] at hm
      cases hus : flattenedVariables nameToUnit v with
      | error e =>
        rw [hus] at hm
        cases hm
      | ok us =>
        rw [hus] at hm
        rcases List.mem_cons.mp hw with rfl | hw
        · simp only [flattenedVariables, hwt] at hus
          split at hus
          · cases hus
          · rename_i rep hrep
            exact ⟨rep, hrep⟩
        · exact ih _ hm w hw hwt
  obtain ⟨v, hv, hvt⟩ := ht
  exact hall _ _ h v hv hvt

theorem updateFlattenedInterface_congr {nameToUnit nameToUnit' : String → Option VariableMap}
    {i : Interface} (h : ∀ t, i.Uses t → nameToUnit t = nameToUnit' t) :
    updateFlattenedInterface nameToUnit i = updateFlattenedInterface nameToUnit' i := by
  have hall : ∀ (vs : List Variable) (m : VariableMap), (∀ v ∈ vs, v ∈ i.getVariables) →
      flattenAll nameToUnit vs m = flattenAll nameToUnit' vs m := by
    intro vs
    induction vs with
    | nil =>
      intro m _
      rfl
    | cons v vs ih =>
      intro m hvs
      have hv : flattenedVariables nameToUnit v = flattenedVariables nameToUnit' v := by
        unfold flattenedVariables
        split
        · rename_i t ht
          rw [h t ⟨v, hvs v List.mem_cons_self, ht⟩]
        · rfl
      rw [flattenAll, flattenAll, hv]
      apply congrArg
      funext ws
      exact ih _ fun w hw => hvs w (List.mem_cons_of_mem _ hw)
  exact hall _ _ fun _ hv => hv

theorem Flattens.mono {nameToUnit : String → Option VariableMap} {i i' : Interface} {w : Variable}
    (h : ∀ v ∈ i.getVariables, v ∈ i'.getVariables ∨ flattenedVariables nameToUnit v = .ok [])
    (hw : Flattens nameToUnit i w) : Flattens nameToUnit i' w := by
  rcases hw with ⟨hw, hd⟩ | ⟨v, hv, t, rep, ht, hrep, u, hu, rfl⟩
  · rcases h w hw with hw' | hnone
    · exact Or.inl ⟨hw', hd⟩
    · exact absurd ((mem_flattenedVariables hnone).mpr (Or.inl ⟨hd, rfl⟩)) List.not_mem_nil
  · rcases h v hv with hv' | hnone
    · exact Or.inr ⟨v, hv', t, rep, ht, hrep, u, hu, rfl⟩
    · have hmem := (mem_flattenedVariables (w := nestedVariable v.name t u) hnone).mpr
        (Or.inr ⟨t, rep, ht, hrep, u, hu, rfl⟩)
      exact absurd hmem List.not_mem_nil

theorem Interface.mem_addVariable {i i' : Interface} {v : Variable} {hv : Identifier v.name}
    (h : i.addVariable v hv = .ok i') (w : Variable) :
    w ∈ i'.getVariables ↔ w = v ∨ w ∈ i.getVariables := by
  unfold addVariable at h
  split at h
  · rename_i hfresh
    cases h
    rw [VariableMap.mem_getVariables, VariableMap.mem_getVariables]
    change (i.nameToVariable.emplace v.name v).find? w.name = some w ↔ _
    rw [OrderedMap.find?_emplace]
    split_ifs with hname
    · rw [hname, hfresh, Option.none_or]
      simp [eq_comm]
    · have hne : w ≠ v := fun h => hname (congrArg Variable.name h)
      simp [hne]
  · cases h

theorem Interface.mem_removeVariable (i : Interface) (x : String) (w : Variable) :
    w ∈ (i.removeVariable x).getVariables ↔ w ∈ i.getVariables ∧ w.name ≠ x := by
  rw [VariableMap.mem_getVariables, VariableMap.mem_getVariables]
  change (i.nameToVariable.erase x).find? w.name = some w ↔ _
  rw [OrderedMap.find?_erase]
  split_ifs with hname
  · simp [hname]
  · simp [hname]

end Ahorn
