import Mathlib.Algebra.GroupWithZero.Nat
import Mathlib.Data.List.Nodup
import Ahorn.SsaVersions
import Ahorn.TacNormalForm

set_option autoImplicit false

/-!
# The names that passes make up

No pass asks the interface whether a name is in use. Each is safe from clashes exactly as far as the
names of the program do not look like its own.
-/
namespace Ahorn

namespace VariableMap

theorem map_name_getVariables (m : VariableMap) :
    m.getVariables.map (·.name) = m.nameToVariable.keys := by
  unfold getVariables OrderedMap.keys
  rw [List.map_map]
  apply List.map_congr_left
  intro x hx
  exact m.named ((OrderedMap.find?_eq_some_iff _ _ _).mpr hx)

theorem nodup_names (m : VariableMap) : (m.getVariables.map (·.name)).Nodup := by
  rw [map_name_getVariables]
  exact List.Pairwise.map _ (fun _ _ h => ne_of_lt h) m.nameToVariable.sorted

theorem nodup_getVariables (m : VariableMap) : m.getVariables.Nodup :=
  List.Nodup.of_map _ m.nodup_names

end VariableMap

/-- No insertion of one of these variables into an interface is dropped. -/
def InsertsAll (vs : List Variable) : Prop := (VariableMap.empty.emplaceAll vs).getVariables.Perm vs

theorem find?_of_nodup_names {vs : List Variable} (h : (vs.map (·.name)).Nodup) {v : Variable}
    (hv : v ∈ vs) : vs.find? (·.name = v.name) = some v := by
  induction vs with
  | nil => cases hv
  | cons w vs ih =>
    rw [List.map_cons, List.nodup_cons] at h
    rw [List.find?_cons]
    rcases List.mem_cons.mp hv with rfl | hv
    · simp
    · have hne : w.name ≠ v.name := fun heq => h.1 (heq ▸ List.mem_map_of_mem hv)
      simp only [hne, decide_false]
      exact ih h.2 hv

theorem insertsAll_iff (vs : List Variable) : InsertsAll vs ↔ (vs.map (·.name)).Nodup := by
  constructor
  · intro h
    exact (h.map (·.name)).nodup_iff.mp (VariableMap.nodup_names _)
  · intro h
    apply (List.perm_ext_iff_of_nodup (VariableMap.nodup_getVariables _)
      (List.Nodup.of_map _ h)).mpr
    intro v
    rw [VariableMap.mem_getVariables, VariableMap.find?_emplaceAll]
    change (none : Option Variable).or _ = _ ↔ _
    rw [Option.none_or]
    exact ⟨List.mem_of_find?_eq_some, find?_of_nodup_names h⟩

section Temporaries

def Expression.temporaryCount : Expression → ℕ
  | unary _ e => e.temporaryCount + e.isBinary.toNat
  | binary _ l r =>
    l.temporaryCount + l.isOperation.toNat + (r.temporaryCount + r.isOperation.toNat)
  | booleanConstant _ | integerConstant _ | timeConstant _ | enumeratedValue _
  | nondeterministicConstant _ | reference _ | change _ _ | booleanToInteger _
  | integerToBoolean _ => 0

def Instruction.temporaryCount : Instruction → ℕ
  | assignmentInstruction _ _ e => e.temporaryCount
  | ifInstruction e _ _ => e.temporaryCount + e.isOperation.toNat
  | callInstruction _ _ _ | gotoInstruction _ | havocInstruction _ | whileInstruction _ _ _ => 0

def BlockVertex.temporaryCount (v : BlockVertex) : ℕ :=
  if v.type = .regular then (v.instructions.map (·.temporaryCount)).sum else 0

def BlockUnit.temporaryCount (cfg : BlockUnit) : ℕ :=
  (cfg.labelToVertex.entries.map fun x => x.2.temporaryCount).sum

/-- No variable of the unit has the name of a temporary variable that the pass introduces. -/
def BlockUnit.LeavesTemporaries (cfg : BlockUnit) (value : ℕ) : Prop :=
  ∀ v ∈ cfg.interface.getVariables, ∀ n, value ≤ n → n < value + cfg.temporaryCount →
    v.name ≠ temporaryName n

namespace TacPass

/-- The pass has gone on by a number of temporary variables. -/
structure Introduces (count : ℕ) (s s' : State) : Prop where
  value : s'.value = s.value + count
  names : s'.temporaryVariables.map (·.name) =
    s.temporaryVariables.map (·.name) ++ (List.range' s.value count).map temporaryName

namespace Introduces

theorem refl (s : State) : Introduces 0 s s where
  value := rfl
  names := by simp

theorem insertInstruction (i : Instruction) (s : State) : Introduces 0 s (s.insertInstruction i) where
  value := rfl
  names := by simp [State.insertInstruction]

theorem trans {m n : ℕ} {s s' s'' : State} (h : Introduces m s s') (h' : Introduces n s' s'') :
    Introduces (m + n) s s'' where
  value := by rw [h'.value, h.value, Nat.add_assoc]
  names := by
    rw [h'.names, h.names, h.value, List.append_assoc, ← List.map_append, List.range'_append_1]

end Introduces

theorem introduce_introduces {e e' : Expression} {s s' : State}
    (h : introduceTemporaryVariableExpression e s = .ok (e', s')) : Introduces 1 s s' := by
  obtain ⟨dataType, -, h⟩ := bind_eq_ok h
  cases h
  exact ⟨rfl, by simp [State.insertInstruction]⟩

theorem substitute_introduces {e e' : Expression} {s s' : State}
    (h : substitute e s = .ok (e', s')) : Introduces e.isOperation.toNat s s' := by
  unfold substitute at h
  split_ifs at h with hoperation
  · rw [hoperation]
    exact introduce_introduces h
  · cases h
    rw [Bool.eq_false_iff.mpr hoperation]
    exact .refl _

theorem isOperation_of_encode {e e' : Expression} {s s' : State} (h : encode e s = .ok (e', s')) :
    e'.isOperation = e.isOperation := by
  unfold Expression.isOperation
  rw [(encode_kind h).1, (encode_kind h).2]

theorem encode_introduces {e e' : Expression} {s s' : State} (h : encode e s = .ok (e', s')) :
    Introduces e.temporaryCount s s' := by
  induction e generalizing s e' s' with
  | booleanConstant _ | integerConstant _ | enumeratedValue _ | reference _ =>
    cases h
    exact .refl _
  | timeConstant _ | nondeterministicConstant _ | change _ _ | booleanToInteger _
  | integerToBoolean _ => cases h
  | unary op e ih =>
    obtain ⟨encoded, s₁, operand, henc, rfl, hcases⟩ := encode_unary h
    refine (ih henc).trans ?_
    rw [← (encode_kind henc).2]
    rcases hcases with ⟨hbinary, htemp⟩ | ⟨hbinary, -, rfl⟩
    · rw [hbinary]
      exact introduce_introduces htemp
    · rw [hbinary]
      exact .refl _
  | binary op l r ihl ihr =>
    obtain ⟨left, s₁, left', s₂, right, s₃, right', hleft, hleft', hright, hright', rfl⟩ :=
      encode_binary h
    have hl := (ihl hleft).trans (substitute_introduces hleft')
    have hr := (ihr hright).trans (substitute_introduces hright')
    rw [isOperation_of_encode hleft] at hl
    rw [isOperation_of_encode hright] at hr
    exact hl.trans hr

theorem visit_introduces {i : Instruction} {s s' : State} (h : visit i s = .ok s') :
    Introduces i.temporaryCount s s' := by
  cases i with
  | assignmentInstruction type r e =>
    obtain ⟨⟨encoded, s₁⟩, he, h⟩ := bind_eq_ok h
    cases h
    exact (encode_introduces he).trans (.insertInstruction _ _)
  | ifInstruction e t x =>
    obtain ⟨⟨encoded, s₁⟩, he, h⟩ := bind_eq_ok h
    obtain ⟨⟨condition, s₂⟩, hsubstitute, h⟩ := bind_eq_ok h
    cases h
    have hcondition := substitute_introduces hsubstitute
    rw [isOperation_of_encode he] at hcondition
    exact ((encode_introduces he).trans hcondition).trans (.insertInstruction _ _)
  | callInstruction _ _ _ | havocInstruction _ =>
    cases h
    exact .insertInstruction _ _
  | whileInstruction _ _ _ | gotoInstruction _ => cases h

theorem visitAll_introduces {is : List Instruction} {s s' : State}
    (h : is.foldlM (fun s i => visit i s) s = .ok s') :
    Introduces (is.map (·.temporaryCount)).sum s s' := by
  induction is generalizing s with
  | nil =>
    cases h
    exact .refl _
  | cons i is ih =>
    obtain ⟨s₁, hi, h⟩ := bind_eq_ok h
    rw [List.map_cons, List.sum_cons]
    exact (visit_introduces hi).trans (ih h)

theorem visitInstruction_introduces {v : BlockVertex} {s s' : State}
    (h : visitInstruction v s = .ok s') : Introduces v.temporaryCount s s' := by
  unfold visitInstruction at h
  unfold BlockVertex.temporaryCount
  cases htype : v.type with
  | entry | exit =>
    rw [htype] at h
    cases h
    exact .refl _
  | regular =>
    cases hb : v.instruction with
    | none =>
      rw [htype, hb] at h
      cases h
    | some b =>
      simp only [htype, hb] at h
      rw [visitBlock_eq] at h
      rw [if_pos rfl, instructions_of_some hb]
      exact visitAll_introduces h

theorem visitVertices_introduces {cfg : BlockUnit} {vs vs' : List BlockVertex} {s s' : State}
    (h : visitVertices cfg vs s = .ok (vs', s')) :
    Introduces (vs.map (·.temporaryCount)).sum s s' := by
  induction vs generalizing vs' s with
  | nil =>
    cases h
    exact .refl _
  | cons v vs ih =>
    obtain ⟨⟨v', s₁⟩, hv, h⟩ := bind_eq_ok h
    obtain ⟨⟨vs'', s₂⟩, hvs, h⟩ := bind_eq_ok h
    cases h
    rw [List.map_cons, List.sum_cons]
    refine Introduces.trans ?_ (ih hvs)
    obtain ⟨s₃, hvisit, hv⟩ := bind_eq_ok hv
    obtain ⟨hvalue, hnames⟩ := visitInstruction_introduces hvisit
    split_ifs at hv
    · cases hv
      exact ⟨hvalue, hnames⟩
    · obtain ⟨v'', -, hv⟩ := bind_eq_ok hv
      cases hv
      exact ⟨hvalue, hnames⟩

theorem insertsAll_iff_leavesTemporaries {cfg : BlockUnit} {value : ℕ} {vs : List BlockVertex}
    {s : State} (h : visitVertices cfg (cfg.labelToVertex.entries.map Prod.snd) ⟨value, [], []⟩ =
      .ok (vs, s)) :
    InsertsAll (cfg.interface.getVariables ++ s.temporaryVariables) ↔
      cfg.LeavesTemporaries value := by
  have hnames := (visitVertices_introduces h).names
  rw [List.map_map] at hnames
  change _ = [] ++ (List.range' value cfg.temporaryCount).map temporaryName at hnames
  have hnodup : ((List.range' value cfg.temporaryCount).map temporaryName).Nodup :=
    List.Nodup.map temporaryName_injective List.nodup_range'
  rw [insertsAll_iff, List.map_append, hnames, List.nil_append, List.nodup_append]
  unfold BlockUnit.LeavesTemporaries
  constructor
  · rintro ⟨-, -, hdisjoint⟩ v hv n hle hlt
    exact hdisjoint _ (List.mem_map_of_mem hv) _
      (List.mem_map_of_mem (List.mem_range'_1.mpr ⟨hle, hlt⟩))
  · intro hleaves
    refine ⟨cfg.interface.nodup_names, hnodup, ?_⟩
    intro name hname name' hname'
    obtain ⟨v, hv, rfl⟩ := List.mem_map.mp hname
    obtain ⟨n, hn, rfl⟩ := List.mem_map.mp hname'
    obtain ⟨hle, hlt⟩ := List.mem_range'_1.mp hn
    exact hleaves v hv n hle hlt

end TacPass

end Temporaries

namespace CallTransformationPass

section Interface

variable (nameToInterface : OrderedMap String VariableMap) (cfg : TypedUnit)

def isInput (v : Variable) : Bool := !v.dataType.isDerived && isAugmentedInput cfg.type v

def isOutput (v : Variable) : Bool := !v.dataType.isDerived && isAugmentedOutput cfg.type v

/-- The variables of an instance whose values are kept. -/
def nestedOf (v : Variable) : List Variable :=
  match v.dataType with
  | .derivedType typeName => (stateOf nameToInterface cfg typeName).toOption.getD []
  | _ => []

/-- A variable of the new interface, by what it is made from. -/
inductive Origin where
  | own (v : Variable)
  | input (v : Variable)
  | output (v : Variable)
  | state (v nested : Variable)

def Origin.name : Origin → String
  | own v => v.name
  | input v => v.name ++ "_input"
  | output v => v.name ++ "_output"
  | state v nested => v.name ++ nested.name

/-- The variable of the old interface behind it. -/
def Origin.source : Origin → Variable
  | own v | input v | output v | state v _ => v

def originsOf (v : Variable) : List Origin :=
  .own v :: ((if isInput cfg v then [.input v] else []) ++
    (if isOutput cfg v then [.output v] else []) ++ (nestedOf nameToInterface cfg v).map (.state v))

/-- Nothing the pass makes up is called like a variable of the unit or like something else it makes
up. -/
structure Unclashing : Prop where
  input : ∀ v ∈ cfg.interface.getVariables, isInput cfg v → ∀ w ∈ cfg.interface.getVariables,
    w.name ≠ v.name ++ "_input"
  output : ∀ v ∈ cfg.interface.getVariables, isOutput cfg v → ∀ w ∈ cfg.interface.getVariables,
    w.name ≠ v.name ++ "_output"
  state : ∀ v ∈ cfg.interface.getVariables, ∀ n ∈ nestedOf nameToInterface cfg v,
    ∀ w ∈ cfg.interface.getVariables, w.name ≠ v.name ++ n.name
  stateInput : ∀ v ∈ cfg.interface.getVariables, ∀ n ∈ nestedOf nameToInterface cfg v,
    ∀ w ∈ cfg.interface.getVariables, isInput cfg w → w.name ++ "_input" ≠ v.name ++ n.name
  stateOutput : ∀ v ∈ cfg.interface.getVariables, ∀ n ∈ nestedOf nameToInterface cfg v,
    ∀ w ∈ cfg.interface.getVariables, isOutput cfg w → w.name ++ "_output" ≠ v.name ++ n.name
  states : ∀ v ∈ cfg.interface.getVariables, ∀ n ∈ nestedOf nameToInterface cfg v,
    ∀ v' ∈ cfg.interface.getVariables, ∀ n' ∈ nestedOf nameToInterface cfg v',
      v.name ++ n.name = v'.name ++ n'.name → v = v'

variable {nameToInterface cfg}

theorem nestedVariables_sublist {vs ws : List Variable} (h : nestedVariables vs = .ok ws) :
    ws.Sublist vs := by
  induction vs generalizing ws with
  | nil =>
    cases h
    exact .slnil
  | cons v vs ih =>
    unfold nestedVariables at h
    have hcons : (nestedVariables vs).map (v :: ·) = .ok ws → ws.Sublist (v :: vs) := by
      intro h
      cases hvs : nestedVariables vs with
      | error e =>
        rw [hvs] at h
        cases h
      | ok us =>
        rw [hvs] at h
        cases h
        exact (ih hvs).cons_cons v
    cases htype : v.dataType with
    | int | real | bool | time =>
      rw [htype] at h
      exact hcons h
    | derivedType t =>
      rw [htype] at h
      exact (ih h).cons v
    | safeBool | enumeratedType _ | inconclusiveType | simpleType _ =>
      rw [htype] at h
      cases h

theorem nodup_names_nestedOf (v : Variable) :
    ((nestedOf nameToInterface cfg v).map (·.name)).Nodup := by
  unfold nestedOf
  cases v.dataType with
  | derivedType t =>
    dsimp only
    cases hstate : stateOf nameToInterface cfg t with
    | error e => exact List.nodup_nil
    | ok ws =>
      change (ws.map (·.name)).Nodup
      unfold stateOf at hstate
      split at hstate
      · cases hstate
      · rename_i interface _
        have hsublist := (nestedVariables_sublist hstate).trans List.filter_sublist
        exact interface.nodup_names.sublist (hsublist.map _)
  | int | real | bool | time | safeBool | enumeratedType _ | inconclusiveType | simpleType _ =>
    exact List.nodup_nil

theorem mem_originsOf {v : Variable} {o : Origin} : o ∈ originsOf nameToInterface cfg v ↔
    o = .own v ∨ (isInput cfg v = true ∧ o = .input v) ∨ (isOutput cfg v = true ∧ o = .output v) ∨
      ∃ n ∈ nestedOf nameToInterface cfg v, o = .state v n := by
  unfold originsOf
  cases isInput cfg v <;> cases isOutput cfg v <;> simp [eq_comm]

theorem source_of_mem_originsOf {v : Variable} {o : Origin}
    (h : o ∈ originsOf nameToInterface cfg v) : o.source = v := by
  rcases mem_originsOf.mp h with rfl | ⟨-, rfl⟩ | ⟨-, rfl⟩ | ⟨n, -, rfl⟩ <;> rfl

theorem nodup_originsOf (v : Variable) : (originsOf nameToInterface cfg v).Nodup := by
  have hstates : ((nestedOf nameToInterface cfg v).map (Origin.state v)).Nodup :=
    List.Nodup.map (fun _ _ h => (Origin.state.inj h).2)
      (List.Nodup.of_map _ (nodup_names_nestedOf v))
  unfold originsOf
  cases isInput cfg v <;> cases isOutput cfg v <;> simpa using hstates

theorem map_name_augment {v : Variable} {ws : List Variable}
    (h : augment nameToInterface cfg v = .ok ws) :
    ws.map (·.name) = (originsOf nameToInterface cfg v).map (·.name) := by
  unfold augment at h
  unfold originsOf isInput isOutput nestedOf
  cases htype : v.dataType with
  | int | real | bool | time | safeBool =>
    rw [htype] at h
    cases h
    cases isAugmentedInput cfg.type v <;> cases isAugmentedOutput cfg.type v <;> rfl
  | enumeratedType _ | inconclusiveType | simpleType _ =>
    rw [htype] at h
    cases h
  | derivedType t =>
    simp only [htype] at h ⊢
    split_ifs at h
    cases hstate : stateOf nameToInterface cfg t with
    | error e =>
      rw [hstate] at h
      cases h
    | ok nested =>
      rw [hstate] at h
      cases h
      simp [DataType.isDerived, Except.toOption, Origin.name, stateVariable, Function.comp_def]

theorem map_name_augmentedVariables {vs : List Variable}
    (h : augmentedVariables nameToInterface cfg = .ok vs) : vs.map (·.name) =
      (cfg.interface.getVariables.flatMap (originsOf nameToInterface cfg)).map (·.name) := by
  unfold augmentedVariables at h
  cases hmap : cfg.interface.getVariables.mapM (augment nameToInterface cfg) with
  | error e =>
    rw [hmap] at h
    cases h
  | ok wss =>
    rw [hmap] at h
    cases h
    have hall := forall₂_of_mapM hmap
    clear hmap
    generalize cfg.interface.getVariables = us at hall
    induction hall with
    | nil => rfl
    | cons hws _ ih =>
      rw [List.flatten_cons, List.map_append, List.flatMap_cons, List.map_append, ih,
        map_name_augment hws]

theorem nodup_origins :
    (cfg.interface.getVariables.flatMap (originsOf nameToInterface cfg)).Nodup := by
  apply List.nodup_flatMap.mpr
  refine ⟨fun v _ => nodup_originsOf v, ?_⟩
  apply cfg.interface.nodup_getVariables.imp
  intro v w hne o hv hw
  exact hne ((source_of_mem_originsOf hv).symm.trans (source_of_mem_originsOf hw))

theorem append_input_ne_append_output (x y : String) : x ++ "_input" ≠ y ++ "_output" := by
  intro h
  have hl := congrArg (List.reverse ∘ String.toList) h
  simp [Function.comp] at hl

theorem append_right_inj {x y z : String} (h : x ++ z = y ++ z) : x = y := by
  have hl := congrArg String.toList h
  rw [String.toList_append, String.toList_append] at hl
  exact String.toList_injective (List.append_cancel_right hl)

theorem append_left_inj {x y z : String} (h : z ++ x = z ++ y) : x = y := by
  have hl := congrArg String.toList h
  rw [String.toList_append, String.toList_append] at hl
  exact String.toList_injective (List.append_cancel_left hl)

def Origin.rank : Origin → ℕ
  | own _ => 0
  | input _ => 1
  | output _ => 2
  | state _ _ => 3

theorem Unclashing.eq_of_name (h : Unclashing nameToInterface cfg) {v w : Variable}
    (hv : v ∈ cfg.interface.getVariables) (hw : w ∈ cfg.interface.getVariables) {o p : Origin}
    (ho : o ∈ originsOf nameToInterface cfg v) (hp : p ∈ originsOf nameToInterface cfg w)
    (hrank : o.rank ≤ p.rank) (hname : o.name = p.name) : o = p := by
  have hnames : v.name = w.name → v = w := VariableMap.eq_of_name hv hw
  rcases mem_originsOf.mp ho with rfl | ⟨hinput, rfl⟩ | ⟨houtput, rfl⟩ | ⟨n, hn, rfl⟩ <;>
    rcases mem_originsOf.mp hp with rfl | ⟨hinput', rfl⟩ | ⟨houtput', rfl⟩ | ⟨n', hn', rfl⟩ <;>
    simp [Origin.rank] at hrank
  · rw [hnames hname]
  · exact absurd hname (h.input w hw hinput' v hv)
  · exact absurd hname (h.output w hw houtput' v hv)
  · exact absurd hname (h.state w hw n' hn' v hv)
  · rw [hnames (append_right_inj hname)]
  · exact absurd hname (append_input_ne_append_output _ _)
  · exact absurd hname (h.stateInput w hw n' hn' v hv hinput)
  · rw [hnames (append_right_inj hname)]
  · exact absurd hname (h.stateOutput w hw n' hn' v hv houtput)
  · have hvw := h.states v hv n hn w hw n' hn' hname
    subst hvw
    rw [List.inj_on_of_nodup_map (nodup_names_nestedOf v) hn hn' (append_left_inj hname)]

theorem nodup_names_origins_iff :
    ((cfg.interface.getVariables.flatMap (originsOf nameToInterface cfg)).map (·.name)).Nodup ↔
      Unclashing nameToInterface cfg := by
  rw [List.nodup_map_iff_inj_on nodup_origins]
  constructor
  · intro hinj
    have hmem : ∀ {v o}, v ∈ cfg.interface.getVariables → o ∈ originsOf nameToInterface cfg v →
        o ∈ cfg.interface.getVariables.flatMap (originsOf nameToInterface cfg) :=
      fun hv ho => List.mem_flatMap.mpr ⟨_, hv, ho⟩
    have hown : ∀ {v}, v ∈ cfg.interface.getVariables → _ := fun {v} hv =>
      hmem hv (mem_originsOf.mpr (Or.inl rfl))
    have hin : ∀ {v}, v ∈ cfg.interface.getVariables → isInput cfg v = true → _ :=
      fun {v} hv hinput => hmem hv (mem_originsOf.mpr (Or.inr (Or.inl ⟨hinput, rfl⟩)))
    have hout : ∀ {v}, v ∈ cfg.interface.getVariables → isOutput cfg v = true → _ :=
      fun {v} hv houtput => hmem hv (mem_originsOf.mpr (Or.inr (Or.inr (Or.inl ⟨houtput, rfl⟩))))
    have hstate : ∀ {v n}, v ∈ cfg.interface.getVariables → n ∈ nestedOf nameToInterface cfg v → _ :=
      fun {v n} hv hn => hmem hv (mem_originsOf.mpr (Or.inr (Or.inr (Or.inr ⟨n, hn, rfl⟩))))
    exact {
      input := fun v hv hinput w hw h => nomatch hinj _ (hown hw) _ (hin hv hinput) h
      output := fun v hv houtput w hw h => nomatch hinj _ (hown hw) _ (hout hv houtput) h
      state := fun v hv n hn w hw h => nomatch hinj _ (hown hw) _ (hstate hv hn) h
      stateInput := fun v hv n hn w hw hinput h => nomatch hinj _ (hin hw hinput) _ (hstate hv hn) h
      stateOutput := fun v hv n hn w hw houtput h =>
        nomatch hinj _ (hout hw houtput) _ (hstate hv hn) h
      states := fun v hv n hn v' hv' n' hn' h =>
        (Origin.state.inj (hinj _ (hstate hv hn) _ (hstate hv' hn') h)).1 }
  · intro h o ho p hp hname
    obtain ⟨v, hv, ho⟩ := List.mem_flatMap.mp ho
    obtain ⟨w, hw, hp⟩ := List.mem_flatMap.mp hp
    rcases le_total o.rank p.rank with hrank | hrank
    · exact h.eq_of_name hv hw ho hp hrank hname
    · exact (h.eq_of_name hw hv hp ho hrank hname.symm).symm

theorem insertsAll_iff_unclashing {vs : List Variable}
    (h : augmentedVariables nameToInterface cfg = .ok vs) :
    InsertsAll vs ↔ Unclashing nameToInterface cfg := by
  rw [insertsAll_iff, map_name_augmentedVariables h, nodup_names_origins_iff]

end Interface

end CallTransformationPass

section Versions

/-- No name of the unit looks like the variable of a constant or like a version of another name. -/
def TypedUnit.Unversioned (cfg : TypedUnit) : Prop :=
  ∀ name, cfg.Names name → (∀ n, name ≠ constantName n) ∧
    ∀ base, cfg.Names base → ∀ n, name ≠ versioned base n

namespace SsaPass

/-- What is made up for a value is in the new interface, under a name of its own that is none of the
old interface. -/
structure Apart (cfg : TypedUnit) (s : State) : Prop where
  distinct : ∀ {value value' v w}, s.valueToVariable.find? value = some v →
    s.valueToVariable.find? value' = some w → value ≠ value' → Invented cfg value v.name →
      v.name ≠ w.name
  new : ∀ {value v}, s.valueToVariable.find? value = some v → Invented cfg value v.name →
    ∀ w ∈ cfg.interface.getVariables, w.name ≠ v.name
  inserted : ∀ {value v}, s.valueToVariable.find? value = some v → Invented cfg value v.name →
    finalVariable cfg v ∈ (VariableMap.empty.emplaceAll (finalVariables cfg s)).getVariables

theorem constantName_injective : Function.Injective constantName := by
  intro n k h
  exact Nat.repr_injective (CallTransformationPass.append_left_inj h)

theorem constantName_ne_versioned (n : ℕ) (base : String) (k : ℕ) :
    constantName n ≠ versioned base k := by
  intro h
  have hmem : '_' ∈ (constantName n).toList := by
    rw [h, toList_versioned]
    simp
  rw [constantName, String.toList_append] at hmem
  rcases List.mem_append.mp hmem with hmem | hmem
  · revert hmem
    decide
  · exact underscore_notMem_toString n hmem

variable {cfg : TypedUnit}

theorem Invented.value_eq {value value' : ℕ} {name : String} (h : Invented cfg value name)
    (h' : Invented cfg value' name) : value = value' := by
  rcases h with rfl | ⟨base, -, rfl⟩
  · rcases h' with h' | ⟨base', -, h'⟩
    · exact constantName_injective h'
    · exact absurd h' (constantName_ne_versioned _ _ _)
  · rcases h' with h' | ⟨base', -, h'⟩
    · exact absurd h'.symm (constantName_ne_versioned _ _ _)
    · exact (versioned_injective h').2

theorem Invented.not_names {value : ℕ} {name : String} (h : Invented cfg value name)
    (hcfg : cfg.Unversioned) : ¬ cfg.Names name := by
  intro hname
  rcases h with h | ⟨base, hbase, h⟩
  · exact (hcfg name hname).1 value h
  · exact (hcfg name hname).2 base hbase value h

theorem finalVariable_name (v : Variable) : (finalVariable cfg v).name = v.name := by
  unfold finalVariable
  split_ifs <;> rfl

theorem apart_of_unversioned {names : List String} {fuel value : ℕ} {s : State}
    (h : finalState cfg names fuel value = .ok s) (hcfg : cfg.Unversioned) : Apart cfg s := by
  have hdefined : ∀ {value' v}, s.valueToVariable.find? value' = some v →
      Invented cfg value' v.name ∨ cfg.Names v.name := by
    intro value' v hv
    rcases (finalState_extends h).defined hv with hstart | ⟨-, hname⟩
    · cases hstart
    · exact hname
  have hdistinct : ∀ {value' value'' v w}, s.valueToVariable.find? value' = some v →
      s.valueToVariable.find? value'' = some w → value' ≠ value'' → Invented cfg value' v.name →
        v.name ≠ w.name := by
    intro value' value'' v w _ hw hne hinvented hname
    rw [hname] at hinvented
    rcases hdefined hw with hother | hother
    · exact hne (hinvented.value_eq hother)
    · exact hinvented.not_names hcfg hother
  refine ⟨hdistinct, ?_, ?_⟩
  · intro value' v _ hinvented w hw hname
    exact hinvented.not_names hcfg (Or.inl ⟨w, hw, hname⟩)
  · intro value' v hv hinvented
    rw [VariableMap.mem_getVariables, VariableMap.find?_emplaceAll]
    change (none : Option Variable).or _ = _
    rw [Option.none_or]
    have hentry := (OrderedMap.find?_eq_some_iff _ _ _).mp hv
    cases hfind : (finalVariables cfg s).find? (·.name = (finalVariable cfg v).name) with
    | none => simpa using List.find?_eq_none.mp hfind _ (List.mem_map_of_mem hentry)
    | some w =>
      -- no other variable has the name
      obtain ⟨⟨value'', w'⟩, hw', rfl⟩ := List.mem_map.mp (List.mem_of_find?_eq_some hfind)
      have hname : (finalVariable cfg w').name = (finalVariable cfg v).name := by
        simpa using List.find?_some hfind
      rw [finalVariable_name, finalVariable_name] at hname
      have hw'' := (OrderedMap.find?_eq_some_iff _ _ _).mpr hw'
      by_cases heq : value' = value''
      · rw [heq, hw''] at hv
        cases hv
        rfl
      · exact absurd hname.symm (hdistinct hv hw'' heq hinvented)

end SsaPass

end Versions

def counter : TypedUnit :=
  let x : Variable := ⟨"x", .int, .input, none⟩
  { labelToVertex := OrderedMap.empty.emplaceAll
      [(0, ⟨0, .entry, none⟩),
        (1, ⟨1, .regular, some (.instruction (.assignmentInstruction .regular (.variableAccess x)
          (.binary .add (.reference (.variableAccess x))
            (.unary .negation (.reference (.variableAccess x))))))⟩),
        (2, ⟨2, .exit, none⟩)]
    edges := [⟨0, 1, none, none, .intraprocedural⟩, ⟨1, 2, none, none, .intraprocedural⟩]
    entryLabel := 0
    exitLabel := 2
    interface := VariableMap.empty.emplace x
    type := .functionBlock
    name := "Counter"
    callees := [] }

theorem name_of_counter_names {name : String} (h : counter.Names name) : name = "x" := by
  have hinterface : ∀ v ∈ counter.interface.getVariables, v.name = "x" := by decide
  have hwritten : ∀ x ∈ counter.labelToVertex.entries, ∀ i ∈ x.2.instructions,
      i.written?.map (·.name) = some "x" := by
    decide
  rcases h with ⟨v, hv, rfl⟩ | ⟨x, hx, i, hi, v, hv, rfl⟩
  · exact hinterface v hv
  · have hname := hwritten x hx i hi
    rw [hv] at hname
    exact Option.some.inj hname

theorem counter_unversioned : counter.Unversioned := by
  intro name hname
  rw [name_of_counter_names hname]
  constructor
  · intro n h
    have hhead := congrArg (fun s : String => s.toList.head?) h
    simp [constantName] at hhead
  · intro base _ n h
    have hmem : '_' ∈ "x".toList := by
      rw [h, toList_versioned]
      simp
    revert hmem
    decide

theorem counter_unclashing : CallTransformationPass.Unclashing .empty counter := by
  have hvariables : counter.interface.getVariables = [⟨"x", .int, .input, none⟩] := rfl
  constructor <;> rw [hvariables] <;> simp [CallTransformationPass.nestedOf]

/-- A function block with an input and a variable called like the input's explicit one. -/
def inputTwice : TypedUnit :=
  { counter with
    interface := VariableMap.empty.emplaceAll
      [⟨"x", .int, .input, none⟩, ⟨"x_input", .bool, .local, none⟩] }

end Ahorn
