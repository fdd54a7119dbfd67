import Ahorn.IntroducedNames

set_option autoImplicit false

/-!
# What the passes make of the units of a tree

The transformation of calls leaves every graph as it is. A block begins with assignments that pass
the state of instances on, and goes on with what it was, its parameters under the names the callees
have for them. The pass behind it gives the unit the variables of its values.
-/
namespace Ahorn

def instructionsAt {ι : Type} (m : OrderedMap ℤ (List ι)) (label : ℤ) : List ι :=
  (m.find? label).getD []

theorem instructionsAt_insert {ι : Type} (i : ι) (label : ℤ) (inFront : Bool)
    (m : OrderedMap ℤ (List ι)) (l : ℤ) :
    instructionsAt (insertInstructionAtLabel i label inFront m) l =
      if l = label then (if inFront then i :: instructionsAt m l else instructionsAt m l ++ [i])
      else instructionsAt m l := by
  unfold instructionsAt insertInstructionAtLabel
  rw [OrderedMap.find?_assign]
  split_ifs with hl <;> first | rfl | rw [hl]; rfl

theorem find?_made {μ : Type} {f : BlockVertex → Except String μ} {label : μ → ℤ}
    (hf : ∀ v v', f v = .ok v' → label v' = v.label) {m : OrderedMap ℤ BlockVertex}
    (hlabels : ∀ e ∈ m.entries, e.2.label = e.1) {vertices : List μ}
    (h : (m.entries.map Prod.snd).mapM f = .ok vertices) (l : ℤ) :
    Option.Rel (fun v v' => f v = .ok v') (m.find? l)
      ((OrderedMap.empty.emplaceAll (vertices.map fun v => (label v, v))).find? l) := by
  have hall : ∀ {es : List (ℤ × BlockVertex)} {vs : List μ}, (∀ e ∈ es, e.2.label = e.1) →
      List.Forall₂ (fun v v' => f v = .ok v') (es.map Prod.snd) vs →
        List.Forall₂ (fun e e' => e'.1 = e.1 ∧ f e.2 = .ok e'.2) es
          (vs.map fun v => (label v, v)) := by
    intro es vs hes hmade
    induction es generalizing vs with
    | nil =>
      cases hmade
      exact .nil
    | cons e es ih =>
      rw [List.forall_mem_cons] at hes
      cases hmade with
      | cons hv hvs => exact .cons ⟨(hf _ _ hv).trans hes.1, hv⟩ (ih hes.2 hvs)
  rw [OrderedMap.find?_emplaceAll, OrderedMap.find?_empty, Option.none_or]
  exact OrderedMap.lookup_rel (hall hlabels (forall₂_of_mapM h)) l

theorem map_copyEdge (edges : List Edge) :
    (edges.map TacPass.copyEdge).map (fun e => (e.sourceLabel, e.targetLabel, e.type)) =
      edges.map fun e => (e.sourceLabel, e.targetLabel, e.type) := by
  rw [List.map_map]
  apply List.map_congr_left
  intro e _
  obtain ⟨hsource, htarget, htype⟩ := TacPass.copyEdge_eq e
  simp only [Function.comp, hsource, htarget, htype]

namespace CallTransformationPass

/-- An instruction and its copy: a parameter has the variable that the callee has for it. -/
inductive Passed (nameToInterface : OrderedMap String VariableMap) : Instruction → Instruction → Prop
  | parameterIn {record v : Variable} {r : VariableReference} {e : Expression}
    (h : parameter nameToInterface record (r.getVariableAccess.name ++ "_input") = .ok v) :
    Passed nameToInterface (.assignmentInstruction .parameterIn (.fieldAccess record r) e)
      (.assignmentInstruction .parameterIn (.fieldAccess record (.variableAccess v)) e)
  | parameterOut {record v : Variable} {r r' : VariableReference}
    (h : parameter nameToInterface record (r'.getVariableAccess.name ++ "_output") = .ok v) :
    Passed nameToInterface
      (.assignmentInstruction .parameterOut r (.reference (.fieldAccess record r')))
      (.assignmentInstruction .parameterOut r (.reference (.fieldAccess record (.variableAccess v))))
  | kept {i : Instruction} (h : ∀ type r e, i = .assignmentInstruction type r e → type = .regular) :
    Passed nameToInterface i i

/-- The instruction passes the state of an instance on to it, or back. -/
def PassesState (i : Instruction) : Prop :=
  ∃ v callee nested, i = stateIn v callee nested ∨ i = stateOut v callee nested

variable {nameToInterface : OrderedMap String VariableMap} {cfg : TypedUnit}
  {m m' : OrderedMap ℤ (List Instruction)} {i i' : Instruction} {label : ℤ}

theorem Passed.leadsTo (h : Passed nameToInterface i i') : i'.leadsTo = i.leadsTo := by
  cases h <;> rfl

theorem filterMap_leadsTo_of_passed {is is' : List Instruction}
    (h : List.Forall₂ (Passed nameToInterface) is is') :
    is'.filterMap Instruction.leadsTo = is.filterMap Instruction.leadsTo := by
  induction h with
  | nil => rfl
  | cons hpassed _ ih => rw [List.filterMap_cons, List.filterMap_cons, hpassed.leadsTo, ih]

theorem PassesState.leadsTo (h : PassesState i) : i.leadsTo = none := by
  obtain ⟨v, callee, nested, rfl | rfl⟩ := h <;> rfl

section Visits

theorem visit_passed (h : visit nameToInterface label i m = .ok m') :
    ∃ i', Passed nameToInterface i i' ∧ m' = insertInstructionAtLabel i' label false m := by
  cases i with
  | whileInstruction _ _ _ | gotoInstruction _ => cases h
  | ifInstruction _ _ _ | havocInstruction _ =>
    cases h
    exact ⟨_, .kept (fun _ _ _ h => by cases h), rfl⟩
  | callInstruction v _ _ =>
    dsimp only [visit] at h
    split at h
    · split at h
      · cases h
      · cases h
        exact ⟨_, .kept (fun _ _ _ h => by cases h), rfl⟩
    · cases h
  | assignmentInstruction type r e =>
    cases type with
    | regular =>
      cases h
      exact ⟨_, .kept (fun _ _ _ h => by cases h; rfl), rfl⟩
    | parameterIn =>
      cases r with
      | variableAccess _ => cases h
      | fieldAccess record r =>
        obtain ⟨v, hv, h⟩ := bind_eq_ok h
        cases h
        exact ⟨_, .parameterIn hv, rfl⟩
    | parameterOut =>
      cases e with
      | reference r' =>
        cases r' with
        | variableAccess _ => cases h
        | fieldAccess record r' =>
          obtain ⟨v, hv, h⟩ := bind_eq_ok h
          cases h
          exact ⟨_, .parameterOut hv, rfl⟩
      | _ => cases h

theorem visitAll_passed {is : List Instruction}
    (h : is.foldlM (fun m i => visit nameToInterface label i m) m = .ok m') :
    ∃ is', List.Forall₂ (Passed nameToInterface) is is' ∧ ∀ l,
      instructionsAt m' l = if l = label then instructionsAt m l ++ is' else instructionsAt m l := by
  induction is generalizing m with
  | nil =>
    cases h
    exact ⟨[], .nil, fun l => by rw [List.append_nil, ite_self]⟩
  | cons i is ih =>
    obtain ⟨m₁, hi, h⟩ := bind_eq_ok h
    obtain ⟨i', hpassed, rfl⟩ := visit_passed hi
    obtain ⟨is', hall, hat⟩ := ih h
    refine ⟨i' :: is', .cons hpassed hall, fun l => ?_⟩
    rw [hat l, instructionsAt_insert, if_neg Bool.false_ne_true]
    split_ifs with hl
    · rw [List.append_assoc, List.singleton_append]
    · rfl

theorem visitVertex_passed {v : BlockVertex} (h : visitVertex nameToInterface cfg m v = .ok m') :
    (∀ l, l ≠ v.label → instructionsAt m' l = instructionsAt m l) ∧
      (¬(v.label = cfg.entryLabel ∨ v.label = cfg.exitLabel) →
        ∃ is', List.Forall₂ (Passed nameToInterface) v.instructions is' ∧
          instructionsAt m' v.label = instructionsAt m v.label ++ is') := by
  unfold visitVertex at h
  split_ifs at h with hend
  · cases h
    exact ⟨fun _ _ => rfl, fun hne => absurd hend hne⟩
  · split at h
    · cases h
    · obtain ⟨is', hall, hat⟩ := visitAll_passed h
      exact ⟨fun l hl => by rw [hat l, if_neg hl], fun _ => ⟨is', hall, by rw [hat, if_pos rfl]⟩⟩

theorem visitAllVertices_passed {es : List (ℤ × BlockVertex)} (hlabels : ∀ e ∈ es, e.2.label = e.1)
    (hsorted : es.Pairwise fun e e' => e.1 < e'.1)
    (h : (es.map Prod.snd).foldlM (visitVertex nameToInterface cfg) m = .ok m') :
    (∀ l, (∀ e ∈ es, l ≠ e.1) → instructionsAt m' l = instructionsAt m l) ∧
      ∀ e ∈ es, ¬(e.1 = cfg.entryLabel ∨ e.1 = cfg.exitLabel) →
        ∃ is', List.Forall₂ (Passed nameToInterface) e.2.instructions is' ∧
          instructionsAt m' e.1 = instructionsAt m e.1 ++ is' := by
  induction es generalizing m with
  | nil =>
    cases h
    exact ⟨fun _ _ => rfl, fun _ he => absurd he List.not_mem_nil⟩
  | cons e es ih =>
    obtain ⟨m₁, he, h⟩ := bind_eq_ok h
    obtain ⟨hbefore, hsorted⟩ := List.pairwise_cons.mp hsorted
    rw [List.forall_mem_cons] at hlabels
    obtain ⟨hothers, hblock⟩ := visitVertex_passed he
    obtain ⟨hrest, hblocks⟩ := ih hlabels.2 hsorted h
    rw [hlabels.1] at hothers hblock
    refine ⟨fun l hl => ?_, ?_⟩
    · rw [List.forall_mem_cons] at hl
      rw [hrest l hl.2, hothers l hl.1]
    · rw [List.forall_mem_cons]
      constructor
      · intro hend
        rw [hrest e.1 fun e' he' => (hbefore e' he').ne]
        exact hblock hend
      · intro e' he' hend
        obtain ⟨is', hall, hat⟩ := hblocks e' he' hend
        exact ⟨is', hall, by rw [hat, hothers e'.1 (hbefore e' he').ne']⟩

theorem visitVertices_passed (hlabels : ∀ e ∈ cfg.labelToVertex.entries, e.2.label = e.1)
    (h : visitVertices nameToInterface cfg = .ok m) {l : ℤ} {v : BlockVertex}
    (hv : cfg.labelToVertex.find? l = some v) (hend : ¬(l = cfg.entryLabel ∨ l = cfg.exitLabel)) :
    List.Forall₂ (Passed nameToInterface) v.instructions (instructionsAt m l) := by
  have hmem := (OrderedMap.find?_eq_some_iff _ _ _).mp hv
  obtain ⟨is', hall, hat⟩ :=
    (visitAllVertices_passed hlabels cfg.labelToVertex.sorted h).2 _ hmem hend
  rw [hat]
  exact hall

end Visits

section States

/-- Nothing but assignments of states has come in front of the instructions at a label. -/
def PutsStates (m m' : OrderedMap ℤ (List Instruction)) : Prop :=
  ∀ l, ∃ front, (∀ i ∈ front, PassesState i) ∧ instructionsAt m' l = front ++ instructionsAt m l

theorem PutsStates.refl (m : OrderedMap ℤ (List Instruction)) : PutsStates m m :=
  fun _ => ⟨[], fun _ h => absurd h List.not_mem_nil, rfl⟩

theorem PutsStates.insert {m₁ : OrderedMap ℤ (List Instruction)} (h : PutsStates m m₁)
    (hi : PassesState i) : PutsStates m (insertInstructionAtLabel i label true m₁) := by
  intro l
  obtain ⟨front, hfront, hat⟩ := h l
  rw [instructionsAt_insert, if_pos rfl, hat]
  split_ifs
  · exact ⟨i :: front, List.forall_mem_cons.mpr ⟨hi, hfront⟩, rfl⟩
  · exact ⟨front, hfront, rfl⟩

theorem PutsStates.insertAll {m₁ : OrderedMap ℤ (List Instruction)} {f : Variable → Instruction}
    (hf : ∀ n, PassesState (f n)) (nested : List Variable) (h : PutsStates m m₁) :
    PutsStates m (nested.foldl (fun m n => insertInstructionAtLabel (f n) label true m) m₁) := by
  induction nested generalizing m₁ with
  | nil => exact h
  | cons n nested ih => exact ih (h.insert (hf n))

theorem PutsStates.passState {v : Variable} {nested : List Variable}
    {m₁ : OrderedMap ℤ (List Instruction)} (h : PutsStates m m₁)
    (hpass : passState cfg v nested label m₁ = .ok m') : PutsStates m m' := by
  unfold CallTransformationPass.passState at hpass
  split at hpass
  · cases hpass
    exact h
  · rename_i callee _
    obtain ⟨edge, -, hpass⟩ := bind_eq_ok hpass
    cases hpass
    exact (h.insertAll (fun n => ⟨v, callee, n, Or.inl rfl⟩) nested).insertAll
      (fun n => ⟨v, callee, n, Or.inr rfl⟩) nested

theorem passStates_puts (h : passStates nameToInterface cfg m = .ok m') : PutsStates m m' := by
  refine foldlM_preserves (P := PutsStates m) ?_ (.refl m) h
  intro v _ m₁ m₂ hm₁ hv
  split at hv
  · obtain ⟨nested, -, hv⟩ := bind_eq_ok hv
    split_ifs at hv
    · cases hv
      exact hm₁
    · exact foldlM_preserves (P := PutsStates m) (fun _ _ _ _ h hpass => h.passState hpass) hm₁ hv
  · cases hv
    exact hm₁

end States

section Units

/-- The instructions of the vertex that a vertex becomes. -/
def madeOf (cfg : TypedUnit) (m : OrderedMap ℤ (List Instruction)) (label : ℤ) : List Instruction :=
  if label = cfg.entryLabel ∨ label = cfg.exitLabel then
    if cfg.type = .program then []
    else if label = cfg.entryLabel then inputAssignments cfg else outputAssignments cfg
  else instructionsAt m label

theorem instructionAt_instructions {b : BlockInstruction} (h : instructionAt m label = .ok b) :
    b.instructions = instructionsAt m label := by
  unfold instructionAt at h
  unfold instructionsAt
  split at h <;> cases h <;> rename_i hfind <;> rw [hfind] <;> rfl

theorem makeVertex_made {v v' : BlockVertex} (h : makeVertex cfg m v = .ok v') :
    v'.label = v.label ∧ v'.type = v.type ∧ v'.instructions = madeOf cfg m v.label := by
  obtain ⟨instruction, hinstruction, h⟩ := bind_eq_ok h
  cases h
  refine ⟨rfl, rfl, ?_⟩
  unfold vertexInstruction at hinstruction
  unfold madeOf BlockVertex.instructions
  split_ifs at hinstruction ⊢
  · cases hinstruction
    rfl
  · cases hinstruction
    rfl
  · cases hinstruction
    rfl
  · cases hb : instructionAt m v.label with
    | error _ =>
      rw [hb] at hinstruction
      cases hinstruction
    | ok b =>
      rw [hb] at hinstruction
      cases hinstruction
      rw [← instructionAt_instructions hb]
      cases b <;> rfl

/-- What the pass makes of a unit. A block is the old one with its parameters under the names the
callees have for them, behind assignments of states; the interface has the variables that values are
passed in, and has all of them where their names are apart. -/
structure Passes (nameToInterface : OrderedMap String VariableMap) (cfg cfg' : TypedUnit) : Prop where
  entry : cfg'.entryLabel = cfg.entryLabel
  exit : cfg'.exitLabel = cfg.exitLabel
  name : cfg'.name = cfg.name
  type : cfg'.type = cfg.type
  edges : cfg'.edges.map (fun e => (e.sourceLabel, e.targetLabel, e.type)) =
    cfg.edges.map fun e => (e.sourceLabel, e.targetLabel, e.type)
  vertex : ∀ l, Option.Rel (fun v v' => v'.type = v.type ∧
      if l = cfg.entryLabel ∨ l = cfg.exitLabel then
        v'.instructions = if cfg.type = .program then []
          else if l = cfg.entryLabel then inputAssignments cfg else outputAssignments cfg
      else ∃ front is, v'.instructions = front ++ is ∧ (∀ i ∈ front, PassesState i) ∧
        List.Forall₂ (Passed nameToInterface) v.instructions is)
    (cfg.labelToVertex.find? l) (cfg'.labelToVertex.find? l)
  interface : ∃ vs, augmentedVariables nameToInterface cfg = .ok vs ∧
    cfg'.interface = VariableMap.empty.emplaceAll vs ∧
    (cfg'.interface.getVariables.Perm vs ↔ Unclashing nameToInterface cfg)

theorem transform_passes {cfg' : TypedUnit} {nameToInterface' : OrderedMap String VariableMap}
    (hlabels : ∀ e ∈ cfg.labelToVertex.entries, e.2.label = e.1)
    (h : transform cfg nameToInterface = .ok (cfg', nameToInterface')) :
    Passes nameToInterface cfg cfg' := by
  obtain ⟨m, hm, h⟩ := bind_eq_ok h
  obtain ⟨vs, hvs, h⟩ := bind_eq_ok h
  obtain ⟨m', hm', h⟩ := bind_eq_ok h
  obtain ⟨vertices, hvertices, h⟩ := bind_eq_ok h
  cases h
  refine ⟨rfl, rfl, rfl, rfl, map_copyEdge _, fun l => ?_, vs, hvs, rfl,
    insertsAll_iff_unclashing hvs⟩
  refine OrderedMap.option_rel_imp
    (find?_made (fun v v' hv => (makeVertex_made hv).1) hlabels hvertices l) fun v v' hv _ hmade => ?_
  obtain ⟨-, htype, hinstructions⟩ := makeVertex_made hmade
  rw [hlabels _ ((OrderedMap.find?_eq_some_iff _ _ _).mp hv)] at hinstructions
  refine ⟨htype, ?_⟩
  unfold madeOf at hinstructions
  by_cases hend : l = cfg.entryLabel ∨ l = cfg.exitLabel
  · rw [if_pos hend] at hinstructions ⊢
    exact hinstructions
  · rw [if_neg hend] at hinstructions ⊢
    obtain ⟨front, hfront, hat⟩ := passStates_puts hm' l
    exact ⟨front, _, hinstructions.trans hat, hfront, visitVertices_passed hlabels hm hv hend⟩

/-- What the pass over a tree makes of its units. -/
theorem apply_passes {t t' : CallTree TypedUnit}
    (hlabels : ∀ u ∈ t.units, ∀ e ∈ u.graph.labelToVertex.entries, e.2.label = e.1)
    (h : apply t = .ok t') :
    t.Rel (fun cfg cfg' => ∃ nameToInterface, Passes nameToInterface cfg cfg') t' := by
  unfold apply at h
  cases hok : t.apply transform .empty with
  | error e =>
    rw [hok] at h
    cases h
  | ok r =>
    rw [hok] at h
    cases h
    refine t.apply_rel .empty r.1 r.2 hok fun u hu cfg' hmakes => ?_
    obtain ⟨nameToInterface, nameToInterface', htransform⟩ := hmakes
    exact ⟨nameToInterface, transform_passes (hlabels u hu) htransform⟩

/-- The calls, branches and jumps of a block stay the same. -/
theorem Passes.filterMap_leadsTo {cfg' : TypedUnit} (h : Passes nameToInterface cfg cfg') {l : ℤ}
    {v v' : BlockVertex} (hv : cfg.labelToVertex.find? l = some v)
    (hv' : cfg'.labelToVertex.find? l = some v')
    (hend : ¬(l = cfg.entryLabel ∨ l = cfg.exitLabel)) :
    v'.instructions.filterMap Instruction.leadsTo = v.instructions.filterMap Instruction.leadsTo := by
  have hvertex := h.vertex l
  rw [hv, hv'] at hvertex
  cases hvertex with
  | some hvertex =>
    obtain ⟨-, hinstructions⟩ := hvertex
    rw [if_neg hend] at hinstructions
    obtain ⟨front, is, heq, hfront, hall⟩ := hinstructions
    have hnone : front.filterMap Instruction.leadsTo = [] :=
      List.filterMap_eq_nil_iff.mpr fun i hi => (hfront i hi).leadsTo
    rw [heq, List.filterMap_append, hnone, List.nil_append]
    exact filterMap_leadsTo_of_passed hall

end Units

end CallTransformationPass

namespace SsaPass

variable {cfg : TypedUnit} {names : List String} {fuel value : ℕ}

theorem makeVertex_made {s : State} {v : BlockVertex} {v' : SsaVertex}
    (h : makeVertex cfg s v = .ok v') :
    v'.label = v.label ∧ v'.type = v.type ∧
      v'.instructions = instructionsAt s.labelToInstructions v.label := by
  unfold makeVertex at h
  unfold instructionsAt
  split at h
  · rename_i hfind
    cases h
    rw [hfind]
    exact ⟨rfl, rfl, rfl⟩
  · rename_i hfind
    split_ifs at h
    cases h
    rw [hfind]
    exact ⟨rfl, rfl, rfl⟩

/-- What the pass makes of a unit. Its blocks have the instructions that have been inserted at their
labels, and what is made up for a value has a name of its own in the interface. -/
structure Versions (cfg : TypedUnit) (cfg' : SsaUnit) : Prop where
  entry : cfg'.entryLabel = cfg.entryLabel
  exit : cfg'.exitLabel = cfg.exitLabel
  name : cfg'.name = cfg.name
  type : cfg'.type = cfg.type
  edges : cfg'.edges.map (fun e => (e.sourceLabel, e.targetLabel, e.type)) =
    cfg.edges.map fun e => (e.sourceLabel, e.targetLabel, e.type)
  final : ∃ names fuel value s, finalState cfg names fuel value = .ok s ∧
    (∀ l, Option.Rel (fun v v' => v'.type = v.type ∧
        v'.instructions = instructionsAt s.labelToInstructions l)
      (cfg.labelToVertex.find? l) (cfg'.labelToVertex.find? l)) ∧
    cfg'.interface = VariableMap.empty.emplaceAll (finalVariables cfg s) ∧
    (cfg.Unversioned → Apart cfg s)

theorem transform_versions {cfg' : SsaUnit} {handed : List String × ℕ}
    (hlabels : ∀ e ∈ cfg.labelToVertex.entries, e.2.label = e.1)
    (h : transform cfg fuel (names, value) = .ok (cfg', handed)) : Versions cfg cfg' := by
  obtain ⟨s, hs, h⟩ := bind_eq_ok h
  obtain ⟨vertices, hvertices, h⟩ := bind_eq_ok h
  cases h
  refine ⟨rfl, rfl, rfl, rfl, map_copyEdge _, names, fuel, value, s, hs, fun l => ?_, rfl,
    apart_of_unversioned hs⟩
  refine OrderedMap.option_rel_imp
    (find?_made (fun v v' hv => (makeVertex_made hv).1) hlabels hvertices l) fun v v' hv _ hmade => ?_
  obtain ⟨-, htype, hinstructions⟩ := makeVertex_made hmade
  rw [hlabels _ ((OrderedMap.find?_eq_some_iff _ _ _).mp hv)] at hinstructions
  exact ⟨htype, hinstructions⟩

theorem apply_versions {t : CallTree TypedUnit} {t' : CallTree SsaUnit}
    (hlabels : ∀ u ∈ t.units, ∀ e ∈ u.graph.labelToVertex.entries, e.2.label = e.1)
    (h : apply fuel t = .ok t') : t.Rel Versions t' := by
  unfold apply at h
  cases hok : t.apply (fun cfg s => transform cfg fuel s) ([], 0) with
  | error e =>
    rw [hok] at h
    cases h
  | ok r =>
    rw [hok] at h
    cases h
    refine t.apply_rel ([], 0) r.1 r.2 hok fun u hu cfg' hmakes => ?_
    obtain ⟨handed, handed', htransform⟩ := hmakes
    exact transform_versions (hlabels u hu) htransform

end SsaPass

end Ahorn
