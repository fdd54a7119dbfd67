import Mathlib.Data.Fin.Basic
import Mathlib.Data.Fintype.Basic
import Mathlib.Data.String.Basic
import Mathlib.Logic.Relation
import Ahorn.OrderedMap
import Ahorn.Results

set_option autoImplicit false

/-!
# Labels of added vertices

A vertex that is added to a graph gets the next free label. The search for it begins with minus one,
which is compared with the labels as an unsigned number: the greatest label there is.
-/
namespace Ahorn

/-- An unsigned number of 32 bits. -/
abbrev Label := Fin (2 ^ 32)

def Label.last : Label := Fin.last (2 ^ 32 - 1)

/-- A graph by the labels of its vertices. -/
structure LabelledCfg where
  labelToVertex : OrderedMap Label Unit
  exitLabel : Label
  exit_mem : exitLabel ∈ labelToVertex.keys
  callees : List String

/-- The graphs of a hierarchy under their names. -/
abbrev LabelledHierarchy := OrderedMap String LabelledCfg

namespace LabelledCfg

def emplace (cfg : LabelledCfg) (label : Label) : LabelledCfg where
  labelToVertex := cfg.labelToVertex.emplace label ()
  exitLabel := cfg.exitLabel
  exit_mem := by
    obtain ⟨u, hu⟩ := OrderedMap.mem_keys_iff.mp cfg.exit_mem
    apply OrderedMap.mem_keys_iff.mpr
    rw [OrderedMap.find?_emplace]
    split_ifs
    · exact ⟨(), by cases cfg.labelToVertex.find? label <;> rfl⟩
    · exact ⟨u, hu⟩
  callees := cfg.callees

def raise (next label : Label) : Label := if next ≤ label then label + 1 else next

end LabelledCfg

namespace LabelledHierarchy

variable (h : LabelledHierarchy)

def exitLabels (cfg : LabelledCfg) : List Label :=
  (cfg.callees.filterMap h.find?).map (·.exitLabel)

/-- The loop over the callers begins where it is to end. -/
def nextFreeLabel (cfg : LabelledCfg) : Label :=
  (h.exitLabels cfg).foldl LabelledCfg.raise
    (cfg.labelToVertex.keys.foldl LabelledCfg.raise Label.last)

def addVertex (name : String) : Except String (Label × LabelledHierarchy) :=
  match h.find? name with
  | none => .error "map::at"
  | some cfg =>
    let label := h.nextFreeLabel cfg
    if label = Label.last then .error "assertion failed"
    else .ok (label, h.assign name (cfg.emplace label))

/-- Graphs next to each other: the one calls the other. -/
def Adjacent (name name' : String) : Prop :=
  (∃ cfg, h.find? name = some cfg ∧ name' ∈ cfg.callees) ∨
    ∃ cfg, h.find? name' = some cfg ∧ name ∈ cfg.callees

/-- No vertex of a graph that callees and callers lead to has the label. -/
def Unused (name : String) (label : Label) : Prop :=
  ∀ name' cfg, Relation.ReflTransGen h.Adjacent name name' → h.find? name' = some cfg →
    label ∉ cfg.labelToVertex.keys

/-- Every vertex that is added one after the other gets a label of its own. -/
def AddsFresh : LabelledHierarchy → List String → Prop
  | _, [] => True
  | h, name :: names => ∃ label h', h.addVertex name = .ok (label, h') ∧ h.Unused name label ∧
      AddsFresh h' names

/-- The exits that count: those behind the last exit with the greatest label, all of them if only a
vertex of the graph itself has it, and none where the greatest label is not in use. -/
def countingExits (cfg : LabelledCfg) : Option (List Label) :=
  if Label.last ∈ h.exitLabels cfg then
    some ((h.exitLabels cfg).reverse.takeWhile (· ≠ Label.last)).reverse
  else if Label.last ∈ cfg.labelToVertex.keys then some (h.exitLabels cfg)
  else none

def numberBehind (labels : List Label) : ℕ := (labels.map (·.val + 1)).foldl max 0

/-- The graph or an exit of its callees has the greatest label there is, and the number behind the
exits that count is not in use. -/
def WrapsAround (name : String) : Prop :=
  ∃ cfg labels label, h.find? name = some cfg ∧ h.countingExits cfg = some labels ∧
    label.val = numberBehind labels ∧ h.Unused name label

def Meets (condition : LabelledHierarchy → String → Prop) : LabelledHierarchy → List String → Prop
  | _, [] => True
  | h, name :: names => condition h name ∧
      ∀ label h', h.addVertex name = .ok (label, h') → Meets condition h' names

section NextFreeLabel

theorem le_last (label : Label) : label ≤ Label.last := Fin.le_last label

theorem raise_last (next : Label) : LabelledCfg.raise next Label.last = 0 := by
  unfold LabelledCfg.raise
  rw [if_pos (le_last next)]
  rfl

theorem foldl_raise_last {labels : List Label} (hlast : Label.last ∉ labels) :
    labels.foldl LabelledCfg.raise Label.last = Label.last := by
  induction labels with
  | nil => rfl
  | cons label labels ih =>
    have hne : label ≠ Label.last := fun heq => hlast (heq ▸ List.mem_cons_self)
    have hlt : ¬ Label.last ≤ label := fun hle => hne (le_antisymm (le_last label) hle)
    rw [List.foldl_cons, LabelledCfg.raise, if_neg hlt]
    exact ih fun hmem => hlast (List.mem_cons_of_mem _ hmem)

theorem val_raise {next label : Label} (hlast : label ≠ Label.last) :
    (LabelledCfg.raise next label).val = max next.val (label.val + 1) := by
  have hlt : label.val < 2 ^ 32 - 1 := by
    have hle := Fin.lt_def.mp (lt_of_le_of_ne (le_last label) hlast)
    exact hle
  have hval : (label + 1).val = label.val + 1 := by
    rw [Fin.val_add]
    exact Nat.mod_eq_of_lt (by change label.val + 1 < 2 ^ 32; omega)
  unfold LabelledCfg.raise
  split_ifs with hle
  · rw [hval]
    have := Fin.le_def.mp hle
    omega
  · have := Fin.lt_def.mp (not_le.mp hle)
    omega

theorem val_foldl_raise {labels : List Label} (hlast : Label.last ∉ labels) (next : Label) :
    (labels.foldl LabelledCfg.raise next).val = (labels.map (·.val + 1)).foldl max next.val := by
  induction labels generalizing next with
  | nil => rfl
  | cons label labels ih =>
    rw [List.foldl_cons, ih fun hmem => hlast (List.mem_cons_of_mem _ hmem),
      val_raise fun heq => hlast (heq ▸ List.mem_cons_self)]
    rfl

theorem foldl_raise_keys {labels : List Label} (hsorted : labels.Pairwise (· < ·))
    (hlast : Label.last ∈ labels) : labels.foldl LabelledCfg.raise Label.last = 0 := by
  obtain ⟨before, after, rfl⟩ := List.append_of_mem hlast
  have hafter : after = [] := by
    apply List.eq_nil_iff_forall_not_mem.mpr
    intro label hmem
    have hlt := List.rel_of_pairwise_cons (List.pairwise_append.mp hsorted).2.1 hmem
    exact absurd (le_last label) (not_le_of_gt hlt)
  rw [hafter, List.foldl_append, List.foldl_cons, List.foldl_nil, raise_last]

theorem foldl_raise_of_mem {labels : List Label} (hlast : Label.last ∈ labels) (next : Label) :
    (labels.foldl LabelledCfg.raise next).val =
      numberBehind (labels.reverse.takeWhile (· ≠ Label.last)).reverse := by
  induction labels using List.reverseRecOn with
  | nil => cases hlast
  | append_singleton labels label ih =>
    rw [List.foldl_append, List.foldl_cons, List.foldl_nil, List.reverse_append,
      List.reverse_singleton, List.singleton_append]
    by_cases heq : label = Label.last
    · rw [heq, raise_last, List.takeWhile_cons_of_neg (by simp)]
      rfl
    · have hmem : Label.last ∈ labels := by
        rcases List.mem_append.mp hlast with hmem | hmem
        · exact hmem
        · exact absurd (List.mem_singleton.mp hmem).symm heq
      rw [val_raise heq, ih hmem, List.takeWhile_cons_of_pos (by simpa using heq),
        List.reverse_cons]
      unfold numberBehind
      rw [List.map_append, List.foldl_append]
      rfl

variable {h : LabelledHierarchy}

theorem nextFreeLabel_eq (cfg : LabelledCfg) :
    (h.countingExits cfg = none → h.nextFreeLabel cfg = Label.last) ∧
      ∀ labels, h.countingExits cfg = some labels →
        (h.nextFreeLabel cfg).val = numberBehind labels := by
  unfold nextFreeLabel countingExits
  by_cases hexit : Label.last ∈ h.exitLabels cfg
  · rw [if_pos hexit]
    refine ⟨nofun, fun labels hlabels => ?_⟩
    rw [← Option.some.inj hlabels]
    exact foldl_raise_of_mem hexit _
  · rw [if_neg hexit]
    by_cases hown : Label.last ∈ cfg.labelToVertex.keys
    · rw [if_pos hown, foldl_raise_keys cfg.labelToVertex.keys_sorted hown]
      refine ⟨nofun, fun labels hlabels => ?_⟩
      rw [← Option.some.inj hlabels]
      exact val_foldl_raise hexit 0
    · rw [if_neg hown, foldl_raise_last hown, foldl_raise_last hexit]
      exact ⟨fun _ => rfl, nofun⟩

theorem not_unused_last {name : String} {cfg : LabelledCfg} (hcfg : h.find? name = some cfg)
    {labels : List Label} (hlabels : h.countingExits cfg = some labels) :
    ¬ h.Unused name Label.last := by
  intro hunused
  unfold countingExits at hlabels
  split_ifs at hlabels with hexit hown
  · obtain ⟨callee, hcallee, hlast⟩ := List.mem_map.mp hexit
    obtain ⟨calleeName, hname, hfind⟩ := List.mem_filterMap.mp hcallee
    exact hunused calleeName callee (.single (Or.inl ⟨cfg, hcfg, hname⟩)) hfind
      (hlast ▸ callee.exit_mem)
  · exact hunused name cfg .refl hcfg hown

theorem addVertex_unused_iff (h : LabelledHierarchy) (name : String) :
    (∃ label h', h.addVertex name = .ok (label, h') ∧ h.Unused name label) ↔
      h.WrapsAround name := by
  unfold addVertex WrapsAround
  cases hcfg : h.find? name with
  | none => simp
  | some cfg =>
    obtain ⟨hnone, hsome⟩ := nextFreeLabel_eq (h := h) cfg
    constructor
    · rintro ⟨label, h', hadd, hunused⟩
      dsimp only at hadd
      split_ifs at hadd with hlast
      cases hadd
      cases hlabels : h.countingExits cfg with
      | none => exact absurd (hnone hlabels) hlast
      | some labels => exact ⟨cfg, labels, _, rfl, hlabels, hsome labels hlabels, hunused⟩
    · rintro ⟨cfg', labels, label, heq, hlabels, hval, hunused⟩
      cases heq
      have hnext : h.nextFreeLabel cfg = label := Fin.ext ((hsome labels hlabels).trans hval.symm)
      have hlast : label ≠ Label.last := by
        rintro rfl
        exact not_unused_last hcfg hlabels hunused
      dsimp only
      rw [hnext, if_neg hlast]
      exact ⟨label, _, rfl, hunused⟩

/-- Every vertex that is added gets a label of its own exactly if every search wraps around to an
unused one. -/
theorem addsFresh_iff (h : LabelledHierarchy) (names : List String) :
    h.AddsFresh names ↔ h.Meets WrapsAround names := by
  induction names generalizing h with
  | nil => exact Iff.rfl
  | cons name names ih =>
    unfold AddsFresh Meets
    rw [← addVertex_unused_iff]
    constructor
    · rintro ⟨label, h', hadd, hunused, hrest⟩
      refine ⟨⟨label, h', hadd, hunused⟩, fun label' h'' hadd' => ?_⟩
      rw [hadd] at hadd'
      cases hadd'
      exact (ih h').mp hrest
    · rintro ⟨⟨label, h', hadd, hunused⟩, hrest⟩
      exact ⟨label, h', hadd, hunused, (ih h').mpr (hrest label h' hadd)⟩

/-- No vertex can be added to a hierarchy whose labels are all below the greatest one. -/
theorem addVertex_fails (name : String)
    (hlabels : ∀ name' cfg, h.find? name' = some cfg → Label.last ∉ cfg.labelToVertex.keys) :
    ∃ e, h.addVertex name = .error e := by
  unfold addVertex
  cases hcfg : h.find? name with
  | none => exact ⟨_, rfl⟩
  | some cfg =>
    have hexits : Label.last ∉ h.exitLabels cfg := by
      intro hmem
      obtain ⟨callee, hcallee, hlast⟩ := List.mem_map.mp hmem
      obtain ⟨calleeName, -, hfind⟩ := List.mem_filterMap.mp hcallee
      exact hlabels calleeName callee hfind (hlast ▸ callee.exit_mem)
    have hnext : h.nextFreeLabel cfg = Label.last := by
      unfold nextFreeLabel
      rw [foldl_raise_last (hlabels name cfg hcfg), foldl_raise_last hexits]
    exact ⟨_, if_pos hnext⟩

/-- A program with the vertices 3 to 5 and its function block with the vertices 0 to 2. -/
def lamp : LabelledHierarchy :=
  OrderedMap.empty.emplaceAll
    [("Lamp", ⟨OrderedMap.empty.emplaceAll [(0, ()), (1, ()), (2, ())], 2, by decide, []⟩),
      ("Main", ⟨OrderedMap.empty.emplaceAll [(3, ()), (4, ()), (5, ())], 5, by decide, ["Lamp"]⟩)]

theorem lamp_not_addsFresh : ¬ lamp.AddsFresh ["Main"] := by
  rintro ⟨label, h', hadd, -⟩
  have herror : lamp.addVertex "Main" = .error "assertion failed" := rfl
  rw [herror] at hadd
  cases hadd

end NextFreeLabel

end LabelledHierarchy

end Ahorn
