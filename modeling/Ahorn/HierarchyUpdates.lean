import Mathlib.Logic.Relation
import Ahorn.CfgHierarchy

set_option autoImplicit false

/-!
# Variables that come and go

When a variable is added to the interface of a graph or removed from it, the graph updates its
flattened interface, and then those of the graphs that refer to it, in the order of their names. The
graphs that refer to those are not told.
-/
namespace Ahorn.Hierarchy

/-- Another interface or flattened interface in the place of the old one. -/
def replace (h : Hierarchy) (name : String) (node node' : Node)
    (hn : h.nameToNode.find? name = some node) (hcallees : node'.callees = node.callees) :
    Hierarchy where
  nameToNode := h.nameToNode.assign name node'
  acyclic := by
    obtain ⟨rank, hrank⟩ := h.acyclic
    have hthere : ∀ t, (∃ callee, h.nameToNode.find? t = some callee) →
        ∃ callee, (h.nameToNode.assign name node').find? t = some callee := by
      rintro t ⟨callee, ht⟩
      rw [OrderedMap.find?_assign]
      split_ifs
      · exact ⟨_, rfl⟩
      · exact ⟨callee, ht⟩
    refine ⟨rank, ?_⟩
    intro m node'' hm t ht
    rw [OrderedMap.find?_assign] at hm
    split_ifs at hm with hmn
    · cases hm
      rw [hcallees] at ht
      rw [hmn]
      exact ⟨(hrank hn t ht).1, hthere t (hrank hn t ht).2⟩
    · exact ⟨(hrank hm t ht).1, hthere t (hrank hm t ht).2⟩

def refresh (h : Hierarchy) (name : String) : Except String Hierarchy :=
  match hn : h.nameToNode.find? name with
  | none => .error "map::at"
  | some node =>
    match updateFlattenedInterface (h.nameToUnit node.callees) node.interface with
    | .error e => .error e
    | .ok flattened =>
      .ok (h.replace name node { node with flattenedInterface := flattened } hn rfl)

def refreshAll : List String → Hierarchy → Except String Hierarchy
  | [], h => .ok h
  | name :: names, h => do
    let h ← h.refresh name
    refreshAll names h

/-- The units that refer to a unit, in the order of their names. -/
def callers (h : Hierarchy) (name : String) : List String :=
  (h.nameToNode.entries.filter fun e => name ∈ e.2.callees).map Prod.fst

def addVariable (h : Hierarchy) (name : String) (v : Variable) (hv : Identifier v.name) :
    Except String Hierarchy :=
  match hn : h.nameToNode.find? name with
  | none => .error "map::at"
  | some node => do
    let i ← node.interface.addVariable v hv
    refreshAll (name :: h.callers name) (h.replace name node { node with interface := i } hn rfl)

def removeVariable (h : Hierarchy) (name variableName : String) : Except String Hierarchy :=
  match hn : h.nameToNode.find? name with
  | none => .error "map::at"
  | some node =>
    refreshAll (name :: h.callers name)
      (h.replace name node { node with interface := node.interface.removeVariable variableName }
        hn rfl)

inductive Operation where
  | addVariable (name : String) (v : Variable) (identifier : Identifier v.name)
  | removeVariable (name variableName : String)

def apply (h : Hierarchy) : Operation → Except String Hierarchy
  | .addVariable name v identifier => h.addVariable name v identifier
  | .removeVariable name variableName => h.removeVariable name variableName

/-- A unit has an instance of another one. -/
def Uses (h : Hierarchy) (name typeName : String) : Prop :=
  ∃ node, h.nameToNode.find? name = some node ∧ node.interface.Uses typeName

/-- A variable of a unit stands for some flattened variable. -/
def Contributes (h : Hierarchy) (name : String) (v : Variable) : Prop :=
  ∃ node, h.nameToNode.find? name = some node ∧
    flattenedVariables (h.nameToUnit node.callees) v ≠ .ok []

namespace Operation

def name : Operation → String
  | addVariable name _ _ => name
  | removeVariable name _ => name

/-- The operation adds or takes away a flattened variable. -/
def Changes (h : Hierarchy) : Operation → Prop
  | addVariable name v _ => h.Contributes name v
  | removeVariable name x => ∃ node v, h.nameToNode.find? name = some node ∧
      node.interface.nameToVariable.find? x = some v ∧ h.Contributes name v

/-- Every unit that uses the unit through others also refers to it, and has a name behind those it
uses the unit through. -/
def Reaches (h : Hierarchy) (name : String) : Prop :=
  ∀ m, Relation.TransGen h.Uses m name →
    m ∈ h.callers name ∧ ∀ t, h.Uses m t → Relation.TransGen h.Uses t name → t < m

end Operation

/-- The hierarchies in a run whose operations reach all units they concern. -/
inductive Run (h₀ : Hierarchy) : Hierarchy → Prop where
  | start : Run h₀ h₀
  | step {h h' : Hierarchy} {op : Operation} : Run h₀ h →
      (op.Changes h → Operation.Reaches h op.name) → h.apply op = .ok h' → Run h₀ h'

/-- The flattened interface of a unit is the one computed from those of the units referred to. -/
def CoherentAt (h : Hierarchy) (name : String) : Prop :=
  ∀ node, h.nameToNode.find? name = some node →
    updateFlattenedInterface (h.nameToUnit node.callees) node.interface =
      .ok node.flattenedInterface

/-- Both hierarchies have the same interfaces and references. -/
def SameShape (h h' : Hierarchy) : Prop :=
  ∀ name, (h.nameToNode.find? name).map (fun node => (node.interface, node.callees)) =
    (h'.nameToNode.find? name).map fun node => (node.interface, node.callees)

def flattenedOf (h : Hierarchy) (name : String) : Option VariableMap :=
  (h.nameToNode.find? name).map (·.flattenedInterface)

theorem mem_callers {h : Hierarchy} {name m : String} :
    m ∈ h.callers name ↔ ∃ node, h.nameToNode.find? m = some node ∧ name ∈ node.callees := by
  unfold callers
  constructor
  · intro hm
    obtain ⟨⟨x, node⟩, he, rfl⟩ := List.mem_map.mp hm
    obtain ⟨he, hcallee⟩ := List.mem_filter.mp he
    exact ⟨node, (OrderedMap.find?_eq_some_iff _ _ _).mpr he, by simpa using hcallee⟩
  · rintro ⟨node, hn, hcallee⟩
    apply List.mem_map.mpr
    refine ⟨(m, node), List.mem_filter.mpr ⟨?_, by simpa using hcallee⟩, rfl⟩
    exact (OrderedMap.find?_eq_some_iff _ _ _).mp hn

theorem callers_sorted (h : Hierarchy) (name : String) :
    (h.callers name).Pairwise (· < ·) := by
  unfold callers
  exact List.pairwise_map.mpr (h.nameToNode.sorted.filter _)

variable {h h' : Hierarchy}

theorem nameToUnit_eq (h : Hierarchy) (callees : List String) (t : String) :
    h.nameToUnit callees t = if t ∈ callees then h.flattenedOf t else none := rfl

theorem SameShape.node (hs : h.SameShape h') {m : String} {node' : Node}
    (hm : h'.nameToNode.find? m = some node') : ∃ node, h.nameToNode.find? m = some node ∧
      node.interface = node'.interface ∧ node.callees = node'.callees := by
  have hshape := hs m
  rw [hm] at hshape
  cases hn : h.nameToNode.find? m with
  | none =>
    rw [hn] at hshape
    cases hshape
  | some node =>
    rw [hn] at hshape
    have heq := Prod.mk.inj (Option.some.inj hshape)
    exact ⟨node, rfl, heq.1, heq.2⟩

theorem SameShape.uses (hs : h.SameShape h') {m t : String} (ht : h'.Uses m t) : h.Uses m t := by
  obtain ⟨node', hm, ht⟩ := ht
  obtain ⟨node, hn, hi, -⟩ := hs.node hm
  exact ⟨node, hn, hi ▸ ht⟩

theorem CoherentAt.congr {m : String} (hc : h.CoherentAt m) (hs : h.SameShape h')
    (hsame : h'.flattenedOf m = h.flattenedOf m)
    (huses : ∀ t, h.Uses m t → h'.flattenedOf t = h.flattenedOf t) : h'.CoherentAt m := by
  intro node' hm
  obtain ⟨node, hn, hi, hcallees⟩ := hs.node hm
  have hflattened : node.flattenedInterface = node'.flattenedInterface := by
    unfold flattenedOf at hsame
    rw [hm, hn] at hsame
    exact (Option.some.inj hsame).symm
  rw [← hflattened, ← hc node hn, ← hi, ← hcallees]
  apply updateFlattenedInterface_congr
  intro t ht
  rw [nameToUnit_eq, nameToUnit_eq, huses t ⟨node, hn, ht⟩]

theorem notMem_callees {m : String} {node : Node} (hn : h.nameToNode.find? m = some node) :
    m ∉ node.callees := by
  obtain ⟨rank, hrank⟩ := h.acyclic
  intro hm
  exact absurd (hrank hn m hm).1 (lt_irrefl _)

theorem flattenedOf_replace {name : String} {node node' : Node}
    {hn : h.nameToNode.find? name = some node} {hcallees : node'.callees = node.callees}
    (m : String) : (h.replace name node node' hn hcallees).flattenedOf m =
      if m = name then some node'.flattenedInterface else h.flattenedOf m := by
  change ((h.nameToNode.assign name node').find? m).map _ = _
  rw [OrderedMap.find?_assign]
  split_ifs <;> rfl

theorem refresh_spec {a : String} (hok : h.refresh a = .ok h') :
    h.SameShape h' ∧ h'.CoherentAt a ∧ (∀ m, m ≠ a → h'.flattenedOf m = h.flattenedOf m) ∧
      (h.CoherentAt a → h'.flattenedOf a = h.flattenedOf a) := by
  unfold refresh at hok
  split at hok
  · cases hok
  · rename_i node hn
    split at hok
    · cases hok
    · rename_i flattened hflattened
      cases hok
      refine ⟨?_, ?_, ?_, ?_⟩
      · intro m
        change _ = ((h.nameToNode.assign a _).find? m).map _
        rw [OrderedMap.find?_assign]
        split_ifs with hm
        · rw [hm, hn]
          rfl
        · rfl
      · intro node' hm
        change (h.nameToNode.assign a _).find? a = _ at hm
        rw [OrderedMap.find?_assign, if_pos rfl] at hm
        cases hm
        dsimp only
        rw [← hflattened]
        apply updateFlattenedInterface_congr
        intro t ht
        rw [nameToUnit_eq, nameToUnit_eq, flattenedOf_replace]
        split_ifs with hmem hta
        · exact absurd (hta ▸ hmem) (notMem_callees hn)
        · rfl
        · rfl
      · intro m hm
        rw [flattenedOf_replace, if_neg hm]
      · intro hc
        have hold := hc node hn
        rw [hflattened] at hold
        cases hold
        rw [flattenedOf_replace, if_pos rfl]
        unfold flattenedOf
        rw [hn]
        rfl

theorem refreshAll_coherent {dirty : String → Prop} {names : List String}
    (horder : ∀ pre a post, names = pre ++ a :: post → dirty a → ∀ m, h.Uses m a →
      dirty m ∧ m ∈ post)
    (hc : ∀ m, h.CoherentAt m ∨ (m ∈ names ∧ dirty m))
    (hok : refreshAll names h = .ok h') : (∀ m, h'.CoherentAt m) ∧ h.SameShape h' := by
  induction names generalizing h with
  | nil =>
    cases hok
    refine ⟨?_, fun _ => rfl⟩
    intro m
    rcases hc m with hm | ⟨hm, -⟩
    · exact hm
    · cases hm
  | cons a names ih =>
    rw [refreshAll] at hok
    cases hr : h.refresh a with
    | error e =>
      rw [hr] at hok
      cases hok
    | ok h₁ =>
      rw [hr] at hok
      obtain ⟨hshape, ha, hne, hkeep⟩ := refresh_spec hr
      have hnext : ∀ m, h₁.CoherentAt m ∨ (m ∈ names ∧ dirty m) := by
        intro m
        by_cases hma : m = a
        · exact Or.inl (hma ▸ ha)
        rcases hc m with hm | ⟨hm, hd⟩
        · -- what the unit uses has changed only where it is dirty, and then the unit comes later
          by_cases huses : h.Uses m a
          · rcases hc a with hca | ⟨-, hda⟩
            · refine Or.inl (hm.congr hshape (hne m hma) ?_)
              intro t _
              by_cases hta : t = a
              · rw [hta]
                exact hkeep hca
              · exact hne t hta
            · obtain ⟨hd, hpost⟩ := horder [] a names rfl hda m huses
              exact Or.inr ⟨hpost, hd⟩
          · refine Or.inl (hm.congr hshape (hne m hma) ?_)
            intro t ht
            apply hne
            rintro rfl
            exact huses ht
        · exact Or.inr ⟨(List.mem_cons.mp hm).resolve_left hma, hd⟩
      obtain ⟨hall, hshape'⟩ := ih (h := h₁) (by
        intro pre b post hnames hdb m hm
        exact horder (a :: pre) b post (by rw [hnames]; rfl) hdb m (hshape.uses hm)) hnext hok
      exact ⟨hall, fun m => (hshape m).trans (hshape' m)⟩

theorem Coherent.rank_lt (hc : h.Coherent) {rank : String → ℕ}
    (hrank : ∀ {name node}, h.nameToNode.find? name = some node →
      ∀ t ∈ node.callees, rank t < rank name ∧ ∃ callee, h.nameToNode.find? t = some callee)
    {a b : String} (hab : Relation.TransGen h.Uses a b) : rank b < rank a := by
  have hone : ∀ {m t}, h.Uses m t → rank t < rank m := by
    rintro m t ⟨node, hn, ht⟩
    exact (hrank hn t (hc.uses hn ht).1).1
  induction hab with
  | single h1 => exact hone h1
  | tail _ h1 ih => exact lt_trans (hone h1) ih

theorem refreshAll_cons {a : String} {names : List String}
    (hok : refreshAll (a :: names) h = .ok h') : ∃ node flattened,
      h.nameToNode.find? a = some node ∧
      updateFlattenedInterface (h.nameToUnit node.callees) node.interface = .ok flattened := by
  rw [refreshAll] at hok
  cases hr : h.refresh a with
  | error e =>
    rw [hr] at hok
    cases hok
  | ok h₁ =>
    unfold refresh at hr
    split at hr
    · cases hr
    · rename_i node hn
      split at hr
      · cases hr
      · rename_i flattened hflattened
        exact ⟨node, flattened, hn, hflattened⟩

section Change

variable {name : String} {node : Node} {i : Interface}
  {hn : h.nameToNode.find? name = some node}

theorem flattenedOf_replace_interface (m : String) :
    (h.replace name node { node with interface := i } hn rfl).flattenedOf m = h.flattenedOf m := by
  rw [flattenedOf_replace]
  split_ifs with hm
  · unfold flattenedOf
    rw [hm, hn]
    rfl
  · rfl

theorem nameToUnit_replace_interface (callees : List String) :
    (h.replace name node { node with interface := i } hn rfl).nameToUnit callees =
      h.nameToUnit callees := by
  funext t
  rw [nameToUnit_eq, nameToUnit_eq, flattenedOf_replace_interface]

theorem Coherent.replace_interface (hc : h.Coherent) {m : String} (hm : m ≠ name) :
    (h.replace name node { node with interface := i } hn rfl).CoherentAt m := by
  intro node' hm'
  change (h.nameToNode.assign name _).find? m = _ at hm'
  rw [OrderedMap.find?_assign, if_neg hm] at hm'
  rw [nameToUnit_replace_interface]
  exact hc hm'

theorem find?_replace_interface :
    (h.replace name node { node with interface := i } hn rfl).nameToNode.find? name =
      some { node with interface := i } := by
  change (h.nameToNode.assign name _).find? name = _
  rw [OrderedMap.find?_assign, if_pos rfl]

theorem Coherent.refreshAll_neutral (hc : h.Coherent)
    (hneutral : ∀ w, Flattens (h.nameToUnit node.callees) i w ↔
      Flattens (h.nameToUnit node.callees) node.interface w)
    (hok : refreshAll (name :: h.callers name)
      (h.replace name node { node with interface := i } hn rfl) = .ok h') : h'.Coherent := by
  obtain ⟨node₁, flattened, hn₁, hflattened⟩ := refreshAll_cons hok
  rw [find?_replace_interface] at hn₁
  cases hn₁
  rw [nameToUnit_replace_interface] at hflattened
  have hsame : flattened = node.flattenedInterface := by
    apply VariableMap.ext_getVariables
    intro w
    rw [mem_updateFlattenedInterface hflattened, hneutral,
      mem_updateFlattenedInterface (hc hn)]
  have hall : ∀ m, (h.replace name node { node with interface := i } hn rfl).CoherentAt m ∨
      (m ∈ name :: h.callers name ∧ False) := by
    intro m
    by_cases hm : m = name
    · left
      subst hm
      intro node' hm'
      rw [find?_replace_interface] at hm'
      cases hm'
      rw [nameToUnit_replace_interface]
      dsimp only
      rw [hflattened, hsame]
    · exact Or.inl (hc.replace_interface hm)
  have hdone := (@refreshAll_coherent _ _ (fun _ => False) _
    (fun _ _ _ _ hd => hd.elim) hall hok).1
  intro m node' hm
  exact hdone m node' hm

theorem Coherent.refreshAll_reaches (hc : h.Coherent) (hreaches : Operation.Reaches h name)
    (hok : refreshAll (name :: h.callers name)
      (h.replace name node { node with interface := i } hn rfl) = .ok h') : h'.Coherent := by
  obtain ⟨node₁, flattened, hn₁, hflattened⟩ := refreshAll_cons hok
  rw [find?_replace_interface] at hn₁
  cases hn₁
  obtain ⟨rank, hrank⟩ := h.acyclic
  -- the units that use the changed one, through others or not
  let dirty : String → Prop := fun m => m = name ∨ Relation.TransGen h.Uses m name
  have hrank_le : ∀ {a}, dirty a → rank name ≤ rank a := by
    rintro a (rfl | ha)
    · exact le_rfl
    · exact (hc.rank_lt hrank ha).le
  have huses : ∀ {m a}, dirty a →
      (h.replace name node { node with interface := i } hn rfl).Uses m a → h.Uses m a := by
    rintro m a ha ⟨node', hm, hma⟩
    change (h.nameToNode.assign name _).find? m = _ at hm
    rw [OrderedMap.find?_assign] at hm
    split_ifs at hm with hmn
    · cases hm
      obtain ⟨rep, hrep⟩ := exists_unit_of_updateFlattenedInterface hflattened hma
      rw [nameToUnit_eq] at hrep
      split_ifs at hrep with hmem
      exact absurd (hrank hn a hmem).1 (not_lt.mpr (hrank_le ha))
    · exact ⟨node', hm, hma⟩
  have hclosed : ∀ {m a}, dirty a → h.Uses m a → Relation.TransGen h.Uses m name := by
    rintro m a (rfl | ha) hm
    · exact .single hm
    · exact .head hm ha
  have hall : ∀ m, (h.replace name node { node with interface := i } hn rfl).CoherentAt m ∨
      (m ∈ name :: h.callers name ∧ dirty m) := by
    intro m
    by_cases hm : m = name
    · exact Or.inr ⟨hm ▸ List.mem_cons_self, Or.inl hm⟩
    · exact Or.inl (hc.replace_interface hm)
  have hdone := (@refreshAll_coherent _ _ dirty _ (by
    intro pre a post hnames ha m hm
    have hma := huses ha hm
    have htrans := hclosed ha hma
    obtain ⟨hcaller, hbehind⟩ := hreaches m htrans
    refine ⟨Or.inr htrans, ?_⟩
    cases pre with
    | nil =>
      obtain ⟨rfl, rfl⟩ := List.cons.inj hnames
      exact hcaller
    | cons b pre =>
      have hcallers := (List.cons.inj hnames).2
      have hsorted := h.callers_sorted name
      rw [hcallers] at hsorted hcaller
      have hamem : a ∈ h.callers name := by
        rw [hcallers]
        exact List.mem_append_right _ List.mem_cons_self
      have han : a ≠ name := by
        rintro rfl
        obtain ⟨node', hn', hself⟩ := mem_callers.mp hamem
        exact notMem_callees hn' hself
      have hlt : a < m := hbehind a hma (ha.resolve_left han)
      rcases List.mem_append.mp hcaller with hpre | hpost
      · have hgt := (List.pairwise_append.mp hsorted).2.2 m hpre a List.mem_cons_self
        exact absurd hlt (lt_asymm hgt)
      · rcases List.mem_cons.mp hpost with rfl | hpost
        · exact absurd hlt (lt_irrefl _)
        · exact hpost) hall hok).1
  intro m node' hm
  exact hdone m node' hm

end Change

/-- An operation that reaches all units it concerns keeps the hierarchy coherent. -/
theorem Coherent.apply (hc : h.Coherent) {op : Operation}
    (hreaches : op.Changes h → Operation.Reaches h op.name) (hok : h.apply op = .ok h') :
    h'.Coherent := by
  cases op with
  | addVariable name v identifier =>
    change h.addVariable name v identifier = _ at hok
    unfold addVariable at hok
    split at hok
    · cases hok
    rename_i node hn
    cases hi : node.interface.addVariable v identifier with
    | error e =>
      rw [hi] at hok
      cases hok
    | ok i =>
      rw [hi] at hok
      by_cases hnone : flattenedVariables (h.nameToUnit node.callees) v = .ok []
      · refine hc.refreshAll_neutral (fun w => ?_) hok
        constructor
        · apply Flattens.mono
          intro u hu
          rcases (Interface.mem_addVariable hi u).mp hu with rfl | hu
          · exact Or.inr hnone
          · exact Or.inl hu
        · apply Flattens.mono
          intro u hu
          exact Or.inl ((Interface.mem_addVariable hi u).mpr (Or.inr hu))
      · exact hc.refreshAll_reaches (hreaches ⟨node, hn, hnone⟩) hok
  | removeVariable name x =>
    change h.removeVariable name x = _ at hok
    unfold removeVariable at hok
    split at hok
    · cases hok
    rename_i node hn
    by_cases hneutral : ∀ v, node.interface.nameToVariable.find? x = some v →
        flattenedVariables (h.nameToUnit node.callees) v = .ok []
    · refine hc.refreshAll_neutral (fun w => ?_) hok
      constructor
      · apply Flattens.mono
        intro u hu
        exact Or.inl ((Interface.mem_removeVariable _ x u).mp hu).1
      · apply Flattens.mono
        intro u hu
        by_cases hname : u.name = x
        · rw [VariableMap.mem_getVariables, hname] at hu
          exact Or.inr (hneutral u hu)
        · exact Or.inl ((Interface.mem_removeVariable _ x u).mpr ⟨hu, hname⟩)
    · rw [not_forall] at hneutral
      obtain ⟨v, hv⟩ := hneutral
      rw [Classical.not_imp] at hv
      exact hc.refreshAll_reaches (hreaches ⟨node, v, hn, hv.1, node, hn, hv.2⟩) hok

theorem Run.coherent {h₀ : Hierarchy} (hc : h₀.Coherent) (hr : Run h₀ h) : h.Coherent := by
  induction hr with
  | start => exact hc
  | step _ hreaches hok ih => exact ih.apply hreaches hok

/-- In a run whose operations reach all units they concern, the flattened interfaces are always
those computed from scratch. -/
theorem Run.flattened_from_scratch {h₀ : Hierarchy} (hb : Built h₀) (hr : Run h₀ h)
    (name : String) :
    ∃ fuel₀, ∀ fuel ≥ fuel₀, ∀ node, h.nameToNode.find? name = some node →
      fromScratch h.interfaceOf fuel name = .ok node.flattenedInterface := by
  have hc : h.Coherent := hr.coherent hb.coherent
  exact hc.fromScratch_eq name

/-- A function block in another one in a program. -/
def inner : Interface := .ofVariables [⟨"x", .bool, .local, none⟩] (by decide)

def middle : Interface := .ofVariables [⟨"b", .derivedType "Inner", .local, none⟩] (by decide)

def outer : Interface := .ofVariables [⟨"a", .derivedType "Middle", .local, none⟩] (by decide)

def nested : Project :=
  .ranked (((OrderedMap.empty.emplace "Inner" inner).emplace "Middle" middle).emplace "Outer" outer)
    (fun name => if name = "Outer" then 2 else if name = "Middle" then 1 else 0) (by decide)

def addition (name : String) : Operation := .addVariable name ⟨"y", .bool, .local, none⟩ (by decide)

theorem nested_uses {fuel : ℕ} (hok : nested.compile fuel = .ok h) {m t : String}
    (ht : h.Uses m t) :
    (m = "Outer" ∧ t = "Middle") ∨ (m = "Middle" ∧ t = "Inner") := by
  obtain ⟨node, hn, ht⟩ := ht
  have hall : ∀ e ∈ nested.nameToPou.entries, ∀ t ∈ e.2.referenced,
      (e.1 = "Outer" ∧ t = "Middle") ∨ (e.1 = "Middle" ∧ t = "Inner") := by decide
  have hentry := (OrderedMap.find?_eq_some_iff _ _ _).mp ((Project.compile_part hok).interface hn)
  exact hall _ hentry t (Interface.mem_referenced.mpr ht)

theorem nested_reaches {fuel : ℕ} (hok : nested.compile fuel = .ok h) :
    Operation.Reaches h "Middle" := by
  have hnot : ∀ {m}, Relation.TransGen h.Uses m "Middle" → m = "Outer" := by
    intro m hm
    induction hm using Relation.TransGen.head_induction_on with
    | single hs =>
      rcases nested_uses hok hs with ⟨hm, -⟩ | ⟨-, ht⟩
      · exact hm
      · exact absurd ht (by decide)
    | head hs _ ih =>
      rcases nested_uses hok hs with ⟨hm, -⟩ | ⟨-, ht⟩
      · exact hm
      · rw [ih] at ht
        exact absurd ht (by decide)
  intro m hm
  have hc : h.Coherent := (Project.compile_part hok).built.coherent
  constructor
  · obtain ⟨t, hs, -⟩ := Relation.TransGen.head'_iff.mp hm
    rcases nested_uses hok hs with ⟨-, rfl⟩ | ⟨hmiddle, -⟩
    · obtain ⟨node, hn, ht⟩ := hs
      exact mem_callers.mpr ⟨node, hn, (hc.uses hn ht).1⟩
    · rw [hnot hm] at hmiddle
      exact absurd hmiddle (by decide)
  · intro t hs ht
    rw [hnot ht] at hs
    rcases nested_uses hok hs with ⟨-, habsurd⟩ | ⟨-, habsurd⟩ <;> exact absurd habsurd (by decide)

theorem flattened_from_scratch_nested : ∃ h₀ h node, Built h₀ ∧ Run h₀ h ∧
    h.nameToNode.find? "Outer" = some node ∧
    node.flattenedInterface.getVariables =
      [⟨"a.b.x", .bool, .local, none⟩, ⟨"a.y", .bool, .local, none⟩] ∧
    ∃ fuel₀, ∀ fuel ≥ fuel₀, ∀ node, h.nameToNode.find? "Outer" = some node →
      fromScratch h.interfaceOf fuel "Outer" = .ok node.flattenedInterface := by
  have hrun : ((nested.compile 3).toOption.bind fun h₀ =>
      (h₀.apply (addition "Middle")).toOption.bind fun h =>
        (h.nameToNode.find? "Outer").map (·.flattenedInterface.getVariables)) =
      some [⟨"a.b.x", .bool, .local, none⟩, ⟨"a.y", .bool, .local, none⟩] := by decide +kernel
  obtain ⟨h₀, hcompile, hrun⟩ := Option.bind_eq_some_iff.mp hrun
  obtain ⟨h, happly, hrun⟩ := Option.bind_eq_some_iff.mp hrun
  obtain ⟨node, hnode, hvariables⟩ := Option.map_eq_some_iff.mp hrun
  have hbuilt := (Project.compile_part (toOption_eq_some hcompile)).built
  have hreached : Run h₀ h := @Run.step h₀ h₀ h (addition "Middle") .start
    (fun _ => nested_reaches (toOption_eq_some hcompile)) (toOption_eq_some happly)
  exact ⟨h₀, h, node, hbuilt, hreached, hnode, hvariables,
    Run.flattened_from_scratch hbuilt hreached "Outer"⟩

theorem exists_stale_flattenedInterface : ∃ h h' node flattened, Built h ∧
    h.apply (addition "Inner") = .ok h' ∧
    h'.nameToNode.find? "Outer" = some node ∧
    fromScratch h'.interfaceOf 3 "Outer" = .ok flattened ∧
    node.flattenedInterface.getVariables = [⟨"a.b.x", .bool, .local, none⟩] ∧
    flattened.getVariables = [⟨"a.b.x", .bool, .local, none⟩, ⟨"a.b.y", .bool, .local, none⟩] := by
  have hrun : ((nested.compile 3).toOption.bind fun h =>
      (h.apply (addition "Inner")).toOption.bind fun h' =>
      (h'.nameToNode.find? "Outer").bind fun node =>
        (fromScratch h'.interfaceOf 3 "Outer").toOption.map fun flattened =>
          (node.flattenedInterface.getVariables, flattened.getVariables)) =
      some ([⟨"a.b.x", .bool, .local, none⟩],
        [⟨"a.b.x", .bool, .local, none⟩, ⟨"a.b.y", .bool, .local, none⟩]) := by decide +kernel
  obtain ⟨h, hcompile, hrun⟩ := Option.bind_eq_some_iff.mp hrun
  obtain ⟨h', happly, hrun⟩ := Option.bind_eq_some_iff.mp hrun
  obtain ⟨node, hnode, hrun⟩ := Option.bind_eq_some_iff.mp hrun
  obtain ⟨flattened, hscratch, hvariables⟩ := Option.map_eq_some_iff.mp hrun
  obtain ⟨hold, hnew⟩ := Prod.mk.inj hvariables
  exact ⟨h, h', node, flattened, (Project.compile_part (toOption_eq_some hcompile)).built,
    toOption_eq_some happly, hnode, toOption_eq_some hscratch, hold, hnew⟩

end Ahorn.Hierarchy
