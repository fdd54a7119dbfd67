import Mathlib.Data.List.Nodup
import Ahorn.DecisionTransformationPass
import Ahorn.ProjectTrees

set_option autoImplicit false

/-!
# What the decision transformation makes of a program

The pass is right exactly for the programs without loops in which every IF is visited once and no
label is one of those that the pass hands out.
-/
namespace Ahorn

namespace DecisionSplit

def entry (x : DecisionSplit) : ℤ × (ℤ × ℤ) := (x.decision, (x.trueLabel, x.falseLabel))

theorem fromLabel_append (n : ℤ) (ls ls' : List ℤ) :
    fromLabel n (ls ++ ls') = fromLabel n ls ++ fromLabel (n + 2 * (ls.length : ℤ)) ls' := by
  induction ls generalizing n with
  | nil => simp [fromLabel]
  | cons l ls ih =>
    simp only [List.cons_append, fromLabel, List.length_cons, ih]
    congr 3
    push_cast
    omega

theorem map_decision_fromLabel (n : ℤ) (ls : List ℤ) :
    (fromLabel n ls).map (·.decision) = ls := by
  induction ls generalizing n with
  | nil => rfl
  | cons l ls ih => simp [fromLabel, ih]

theorem mem_labels_fromLabel {n q : ℤ} {ls : List ℤ} :
    q ∈ (fromLabel n ls).flatMap (·.labels) ↔ n ≤ q ∧ q < n + 2 * (ls.length : ℤ) := by
  induction ls generalizing n with
  | nil =>
    simp only [fromLabel, List.flatMap_nil, List.not_mem_nil, List.length_nil, false_iff]
    push_cast
    omega
  | cons l ls ih =>
    change q ∈ [n, n + 1] ++ (fromLabel (n + 2) ls).flatMap (·.labels) ↔ _
    rw [List.mem_append, ih]
    simp only [List.mem_cons, List.not_mem_nil, or_false, List.length_cons]
    push_cast
    omega

theorem nodup_labels_fromLabel (n : ℤ) (ls : List ℤ) :
    ((fromLabel n ls).flatMap (·.labels)).Nodup := by
  induction ls generalizing n with
  | nil => exact List.nodup_nil
  | cons l ls ih =>
    have hrest : ∀ q ∈ (fromLabel (n + 2) ls).flatMap (·.labels), n + 2 ≤ q := fun q hq =>
      (mem_labels_fromLabel.mp hq).1
    change (n :: (n + 1) :: (fromLabel (n + 2) ls).flatMap (·.labels)).Nodup
    simp only [List.nodup_cons, List.mem_cons]
    refine ⟨?_, ?_, ih (n + 2)⟩
    · rintro (hq | hq)
      · omega
      · have := hrest n hq
        omega
    · intro hq
      have := hrest (n + 1) hq
      omega

theorem mem_fromLabel {n : ℤ} {ls : List ℤ} {x : DecisionSplit} (h : x ∈ fromLabel n ls) :
    ∃ k : ℕ, ls[k]? = some x.decision ∧ x.trueLabel = n + 2 * k ∧ x.falseLabel = n + 2 * k + 1 := by
  induction ls generalizing n with
  | nil => cases h
  | cons l ls ih =>
    rcases List.mem_cons.mp h with rfl | h
    · exact ⟨0, rfl, by simp, by simp⟩
    · obtain ⟨k, hdecision, htrue, hfalse⟩ := ih h
      refine ⟨k + 1, by simpa using hdecision, ?_, ?_⟩
      · rw [htrue]
        push_cast
        omega
      · rw [hfalse]
        push_cast
        omega

theorem exists_lookup {l : ℤ} {splits : List DecisionSplit}
    (h : l ∈ splits.map (·.decision)) : ∃ x ∈ splits, x.decision = l ∧
      OrderedMap.lookup l (splits.map entry) = some (x.trueLabel, x.falseLabel) := by
  induction splits with
  | nil => cases h
  | cons x splits ih =>
    simp only [List.map_cons, entry, OrderedMap.lookup]
    by_cases hx : l = x.decision
    · exact ⟨x, List.mem_cons_self, hx.symm, by rw [if_pos hx]⟩
    · rw [List.map_cons, List.mem_cons] at h
      obtain ⟨y, hy, hdecision, hlookup⟩ := ih (h.resolve_left hx)
      exact ⟨y, List.mem_cons_of_mem _ hy, hdecision, by rw [if_neg hx]; exact hlookup⟩

theorem lookup_of_nodup {splits : List DecisionSplit} (h : (splits.map (·.decision)).Nodup)
    {x : DecisionSplit} (hx : x ∈ splits) :
    OrderedMap.lookup x.decision (splits.map entry) = some (x.trueLabel, x.falseLabel) := by
  obtain ⟨y, hy, hdecision, hlookup⟩ := exists_lookup (List.mem_map_of_mem hx)
  rw [List.inj_on_of_nodup_map h hy hx hdecision] at hlookup
  exact hlookup

end DecisionSplit

open DecisionSplit

/-- A vertex that the pass copies: the entry, the exit, or an instruction other than a loop. -/
def Vertex.Transformable (v : Vertex) : Prop :=
  (v.type ≠ .regular ∧ v.instruction = none) ∨
    (v.type = .regular ∧ ∃ i, v.instruction = some i ∧ ∀ e a b, i ≠ .whileInstruction e a b)

def copies (n : ℤ) : List Vertex → List (ℤ × Vertex)
  | [] => []
  | v :: vs => (v.label, v) ::
    if v.isDecision then (n, { label := n }) :: (n + 1, { label := n + 1 }) :: copies (n + 2) vs
    else copies n vs

namespace DecisionTransformationPass

def after (pass : DecisionTransformationPass) (decisions : List ℤ) : DecisionTransformationPass where
  label := pass.label + 2 * (decisions.length : ℤ)
  decisionLabelToIntermediateSuccessors := pass.decisionLabelToIntermediateSuccessors.emplaceAll
    ((fromLabel pass.label decisions).map entry)

theorem after_append (pass : DecisionTransformationPass) (ls ls' : List ℤ) :
    pass.after (ls ++ ls') = (pass.after ls).after ls' := by
  unfold after OrderedMap.emplaceAll
  simp only [List.length_append, fromLabel_append, List.map_append, List.foldl_append]
  congr 1
  push_cast
  omega

theorem visitVertex_decision {v : Vertex} (h : v.Transformable) (hv : v.isDecision = true)
    (m : OrderedMap ℤ Vertex) (pass : DecisionTransformationPass) :
    visitVertex (m, pass) v = .ok (((m.emplace v.label v).emplace pass.label
      { label := pass.label }).emplace (pass.label + 1) { label := pass.label + 1 },
      pass.after [v.label]) := by
  obtain ⟨label, type, instruction⟩ := v
  rcases h with ⟨-, hi⟩ | ⟨htype, i, hi, -⟩
  · cases hi
    cases hv
  · cases hi
    cases htype
    cases i <;> first | rfl | cases hv

theorem visitVertex_other {v : Vertex} (h : v.Transformable) (hv : v.isDecision = false)
    (m : OrderedMap ℤ Vertex) (pass : DecisionTransformationPass) :
    visitVertex (m, pass) v = .ok (m.emplace v.label v, pass) := by
  obtain ⟨label, type, instruction⟩ := v
  rcases h with ⟨htype, hi⟩ | ⟨htype, i, hi, hloop⟩
  · cases hi
    cases type <;> first | rfl | exact absurd rfl htype
  · cases hi
    cases htype
    cases i with
    | ifInstruction _ _ _ => cases hv
    | whileInstruction e a b => exact absurd rfl (hloop e a b)
    | _ => rfl

theorem visitVertices_spec {vs : List Vertex} (h : ∀ v ∈ vs, v.Transformable)
    (m : OrderedMap ℤ Vertex) (pass : DecisionTransformationPass) :
    vs.foldlM visitVertex (m, pass) = .ok (m.emplaceAll (copies pass.label vs),
      pass.after ((vs.filter Vertex.isDecision).map (·.label))) := by
  induction vs generalizing m pass with
  | nil =>
    unfold after
    simp [copies, OrderedMap.emplaceAll, fromLabel, pure, Except.pure]
  | cons v vs ih =>
    have hvs : ∀ v ∈ vs, v.Transformable := fun w hw => h w (List.mem_cons_of_mem _ hw)
    rw [List.foldlM_cons]
    cases hv : v.isDecision with
    | true =>
      rw [visitVertex_decision (h v List.mem_cons_self) hv]
      change List.foldlM visitVertex _ vs = _
      rw [ih hvs, List.filter_cons_of_pos hv, List.map_cons]
      change _ = Except.ok (_, pass.after ([v.label] ++ _))
      rw [after_append]
      simp only [copies, hv, if_true, OrderedMap.emplaceAll, List.foldl_cons]
      rfl
    | false =>
      rw [visitVertex_other (h v List.mem_cons_self) hv]
      change List.foldlM visitVertex _ vs = _
      rw [ih hvs, List.filter_cons_of_neg (by simp [hv])]
      simp only [copies, hv, Bool.false_eq_true, if_false, OrderedMap.emplaceAll, List.foldl_cons]

theorem visitVertices_error {vs : List Vertex} {v : Vertex} (hv : v ∈ vs) {e : Expression} {a b : ℤ}
    (htype : v.type = .regular) (hi : v.instruction = some (.whileInstruction e a b))
    (s : OrderedMap ℤ Vertex × DecisionTransformationPass) :
    ∃ e, vs.foldlM visitVertex s = .error e := by
  induction vs generalizing s with
  | nil => cases hv
  | cons w vs ih =>
    rw [List.foldlM_cons]
    rcases List.mem_cons.mp hv with rfl | hv
    · refine ⟨"Not implemented yet.", ?_⟩
      unfold visitVertex
      rw [htype, hi]
      rfl
    · cases hw : visitVertex s w with
      | error e => exact ⟨e, rfl⟩
      | ok s' => exact ih hv s'

/-- The label of the vertex that the pass puts on an edge. -/
def intermediate? (pass : DecisionTransformationPass) (e : Edge) : Option ℤ :=
  match e.type with
  | .trueBranch =>
    (pass.decisionLabelToIntermediateSuccessors.find? e.sourceLabel).map Prod.fst
  | .falseBranch =>
    (pass.decisionLabelToIntermediateSuccessors.find? e.sourceLabel).map Prod.snd
  | _ => none

def splitEdge (pass : DecisionTransformationPass) (e : Edge) : List Edge :=
  match pass.intermediate? e with
  | none => [e]
  | some l => [{ e with targetLabel := l }, { sourceLabel := l, targetLabel := e.targetLabel }]

/-- An edge that the pass copies or splits. -/
structure Splittable (pass : DecisionTransformationPass) (e : Edge) : Prop where
  plain : e.type ≠ .interproceduralReturn → e.callerName = none ∧ e.callLabel = none
  branch : e.type = .trueBranch ∨ e.type = .falseBranch →
    ∃ labels, pass.decisionLabelToIntermediateSuccessors.find? e.sourceLabel = some labels

theorem visitEdge_spec {pass : DecisionTransformationPass} {e : Edge} (h : pass.Splittable e) :
    pass.visitEdge e = .ok (pass.splitEdge e) := by
  obtain ⟨source, target, callerName, callLabel, type⟩ := e
  obtain ⟨hplain, hbranch⟩ := h
  unfold visitEdge splitEdge intermediate?
  cases type with
  | interproceduralReturn => rfl
  | trueBranch =>
    obtain ⟨rfl, rfl⟩ := hplain (by simp)
    obtain ⟨labels, hlabels⟩ := hbranch (Or.inl rfl)
    simp only [hlabels]
    rfl
  | falseBranch =>
    obtain ⟨rfl, rfl⟩ := hplain (by simp)
    obtain ⟨labels, hlabels⟩ := hbranch (Or.inr rfl)
    simp only [hlabels]
    rfl
  | _ =>
    obtain ⟨rfl, rfl⟩ := hplain (by simp)
    rfl

end DecisionTransformationPass

theorem lookup_copies {vs : List Vertex} {n : ℤ}
    (hapart : ∀ v ∈ vs, v.label < n ∨ n + 2 * ((vs.filter Vertex.isDecision).length : ℤ) ≤ v.label)
    (q : ℤ) : OrderedMap.lookup q (copies n vs) =
      if n ≤ q ∧ q < n + 2 * ((vs.filter Vertex.isDecision).length : ℤ) then some { label := q }
      else OrderedMap.lookup q (vs.map fun v => (v.label, v)) := by
  induction vs generalizing n with
  | nil =>
    simp only [copies, List.filter_nil, List.length_nil, OrderedMap.lookup, List.map_nil]
    rw [if_neg (by push_cast; omega)]
  | cons v vs ih =>
    have hv := hapart v List.mem_cons_self
    cases hdecision : v.isDecision with
    | true =>
      simp only [List.filter_cons_of_pos hdecision, List.length_cons] at hapart hv ⊢
      push_cast at hapart hv ⊢
      rw [copies, if_pos hdecision]
      simp only [OrderedMap.lookup, List.map_cons]
      rw [ih fun w hw => by
        have := hapart w (List.mem_cons_of_mem _ hw)
        omega]
      by_cases hq : q = v.label
      · rw [if_pos hq, if_pos hq, if_neg (by omega)]
      · rw [if_neg hq, if_neg hq]
        by_cases htrue : q = n
        · rw [if_pos htrue, if_pos (by omega), htrue]
        · rw [if_neg htrue]
          by_cases hfalse : q = n + 1
          · rw [if_pos hfalse, if_pos (by omega), hfalse]
          · rw [if_neg hfalse]
            congr 1
            exact propext ⟨fun h => by omega, fun h => by omega⟩
    | false =>
      have hneg : ¬ v.isDecision = true := by simp [hdecision]
      simp only [List.filter_cons_of_neg hneg] at hapart hv ⊢
      rw [copies, if_neg hneg]
      simp only [OrderedMap.lookup, List.map_cons]
      rw [ih fun w hw => hapart w (List.mem_cons_of_mem _ hw)]
      by_cases hq : q = v.label
      · rw [if_pos hq, if_pos hq, if_neg (by omega)]
      · rw [if_neg hq, if_neg hq]

namespace CallUnit

/-- No vertex of the unit is a loop. -/
def NoLoop (u : CallUnit Cfg) : Prop :=
  ∀ l e a b, u.graph.labelToVertex.find? l ≠
    some { label := l, instruction := some (.whileInstruction e a b) }

namespace BuiltFrom

variable {u : CallUnit Cfg} {M : Module} {exitLabels : String → Option ℤ}

theorem map_label (h : u.BuiltFrom M exitLabels) :
    (u.graph.labelToVertex.entries.map Prod.snd).map (fun v => (v.label, v)) =
      u.graph.labelToVertex.entries := by
  rw [List.map_map]
  calc _ = u.graph.labelToVertex.entries.map id := by
        apply List.map_congr_left
        intro x hx
        exact Prod.ext (h.label_eq ((OrderedMap.find?_eq_some_iff _ _ _).mpr hx)) rfl
    _ = _ := List.map_id _

theorem transformable (h : u.BuiltFrom M exitLabels) (hloop : u.NoLoop) :
    ∀ v ∈ u.graph.labelToVertex.entries.map Prod.snd, v.Transformable := by
  intro v hv
  obtain ⟨⟨l, w⟩, hw, rfl⟩ := List.mem_map.mp hv
  have hfind := (OrderedMap.find?_eq_some_iff _ _ _).mpr hw
  rcases (h.graph.vertex_iff h.closed).mp hfind with ⟨-, rfl⟩ | ⟨-, rfl⟩ | ⟨i, -, -, rfl⟩
  · exact Or.inl ⟨by simp, rfl⟩
  · exact Or.inl ⟨by simp, rfl⟩
  · refine Or.inr ⟨rfl, i, rfl, ?_⟩
    rintro e a b rfl
    exact hloop l e a b hfind

theorem mem_decisions (h : u.BuiltFrom M exitLabels) {l : ℤ} :
    l ∈ u.graph.decisions ↔
      ∃ c t x, M.labelToInstruction.find? l = some (.ifInstruction c t x) := by
  unfold Cfg.decisions
  simp only [List.mem_map, List.mem_filter]
  constructor
  · rintro ⟨v, ⟨⟨⟨q, w⟩, hw, rfl⟩, hdecision⟩, rfl⟩
    have hfind := (OrderedMap.find?_eq_some_iff _ _ _).mpr hw
    rcases (h.graph.vertex_iff h.closed).mp hfind with ⟨-, rfl⟩ | ⟨-, rfl⟩ | ⟨i, hi, -, rfl⟩
    · cases hdecision
    · cases hdecision
    · cases i <;> first | exact ⟨_, _, _, hi⟩ | cases hdecision
  · rintro ⟨c, t, x, hi⟩
    exact ⟨_, ⟨⟨_, (OrderedMap.find?_eq_some_iff _ _ _).mp (h.vertex_of_instruction hi rfl), rfl⟩,
      rfl⟩, rfl⟩

theorem length_decisions : u.graph.decisions.length =
    ((u.graph.labelToVertex.entries.map Prod.snd).filter Vertex.isDecision).length := by
  unfold Cfg.decisions
  rw [List.length_map]

theorem branch_source (h : u.BuiltFrom M exitLabels) (hloop : u.NoLoop) {e : Edge}
    (he : e ∈ u.graph.edges) (htype : e.type = .trueBranch ∨ e.type = .falseBranch) :
    ∃ c t x, M.labelToInstruction.find? e.sourceLabel = some (.ifInstruction c t x) ∧
      e = { sourceLabel := e.sourceLabel, targetLabel := if e.type = .trueBranch then t else x,
            type := e.type } := by
  rcases h.edge_cases he with rfl | ⟨l, i, t, hi, hwrite, hgoto, rfl⟩ |
    ⟨l, c, t, x, hi | hi, he⟩ | ⟨l, v, intra, inter, callee, hcallee, hi, hentry, he⟩
  · simp at htype
  · simp at htype
  · refine ⟨c, t, x, ?_⟩
    rcases he with rfl | rfl <;> exact ⟨hi, by simp⟩
  · exact absurd (h.vertex_of_instruction hi rfl) (hloop l c t x)
  · simp only [callEdges, List.mem_cons, List.not_mem_nil, or_false] at he
    rcases he with rfl | rfl | rfl <;> simp at htype

theorem branch_edges (h : u.BuiltFrom M exitLabels) {l : ℤ} (hl : l ∈ u.graph.decisions) :
    (∃ t, { sourceLabel := l, targetLabel := t, type := .trueBranch } ∈ u.graph.edges) ∧
      ∃ t, { sourceLabel := l, targetLabel := t, type := .falseBranch } ∈ u.graph.edges := by
  obtain ⟨c, t, x, hi⟩ := h.mem_decisions.mp hl
  constructor
  · exact ⟨t, h.graph.mem_edges.mpr (Or.inr ⟨l, _, hi, List.mem_cons_self⟩)⟩
  · exact ⟨x, h.graph.mem_edges.mpr (Or.inr ⟨l, _, hi,
      List.mem_cons_of_mem _ List.mem_cons_self⟩)⟩

theorem edge_plain (h : u.BuiltFrom M exitLabels) {e : Edge} (he : e ∈ u.graph.edges)
    (htype : e.type ≠ .interproceduralReturn) : e.callerName = none ∧ e.callLabel = none := by
  rcases h.edge_cases he with rfl | ⟨l, i, t, hi, hwrite, hgoto, rfl⟩ |
    ⟨l, c, t, x, hi, he⟩ | ⟨l, v, intra, inter, callee, hcallee, hi, hentry, he⟩
  · exact ⟨rfl, rfl⟩
  · exact ⟨rfl, rfl⟩
  · rcases he with rfl | rfl <;> exact ⟨rfl, rfl⟩
  · simp only [callEdges, List.mem_cons, List.not_mem_nil, or_false] at he
    rcases he with rfl | rfl | rfl
    · exact ⟨rfl, rfl⟩
    · exact ⟨rfl, rfl⟩
    · exact absurd rfl htype

end BuiltFrom

end CallUnit

namespace DecisionTransformationPass

variable {u : CallUnit Cfg} {M : Module} {exitLabels : String → Option ℤ}
  {pass : DecisionTransformationPass}

theorem after_find? (pass : DecisionTransformationPass) (decisions : List ℤ) (l : ℤ) :
    (pass.after decisions).decisionLabelToIntermediateSuccessors.find? l =
      (pass.decisionLabelToIntermediateSuccessors.find? l).or
        (OrderedMap.lookup l ((fromLabel pass.label decisions).map entry)) :=
  OrderedMap.find?_emplaceAll _ _ _

theorem splittable (h : u.BuiltFrom M exitLabels) (hloop : u.NoLoop) {e : Edge}
    (he : e ∈ u.graph.edges) : (pass.after u.graph.decisions).Splittable e := by
  refine ⟨h.edge_plain he, ?_⟩
  intro htype
  obtain ⟨c, t, x, hi, -⟩ := h.branch_source hloop he htype
  have hmem : e.sourceLabel ∈ (fromLabel pass.label u.graph.decisions).map (·.decision) := by
    rw [map_decision_fromLabel]
    exact h.mem_decisions.mpr ⟨c, t, x, hi⟩
  obtain ⟨y, -, -, hlookup⟩ := exists_lookup hmem
  rw [after_find?, hlookup]
  cases pass.decisionLabelToIntermediateSuccessors.find? e.sourceLabel with
  | none => exact ⟨_, rfl⟩
  | some labels => exact ⟨labels, rfl⟩

theorem transform_spec (h : u.BuiltFrom M exitLabels) (hloop : u.NoLoop) :
    transform u.graph pass = .ok
      (⟨OrderedMap.empty.emplaceAll
          (copies pass.label (u.graph.labelToVertex.entries.map Prod.snd)),
        u.graph.edges.flatMap (pass.after u.graph.decisions).splitEdge,
        u.graph.entryLabel, u.graph.exitLabel⟩, pass.after u.graph.decisions) := by
  unfold transform
  rw [visitVertices_spec (h.transformable hloop)]
  change (u.graph.edges.mapM (pass.after u.graph.decisions).visitEdge >>= _) = _
  rw [mapM_eq_ok fun e he => visitEdge_spec (splittable h hloop he)]
  rw [List.flatMap_def]
  rfl

theorem noLoop_of_transform {r : Cfg × DecisionTransformationPass}
    (hok : transform u.graph pass = .ok r) : u.NoLoop := by
  intro l e a b hfind
  have hmem := List.mem_map_of_mem (f := Prod.snd) ((OrderedMap.find?_eq_some_iff _ _ _).mp hfind)
  obtain ⟨err, herr⟩ := visitVertices_error hmem rfl rfl (OrderedMap.empty, pass)
  unfold transform at hok
  rw [herr] at hok
  cases hok

theorem contract_splitEdges {es : List Edge} {labels : List ℤ} {behind : ℤ → ℤ}
    (hsource : ∀ e ∈ es, e.sourceLabel ∉ labels)
    (hnone : ∀ e ∈ es, pass.intermediate? e = none → e.targetLabel ∉ labels)
    (hsome : ∀ e ∈ es, ∀ l, pass.intermediate? e = some l → l ∈ labels ∧
      behind l = e.targetLabel) :
    ((es.flatMap pass.splitEdge).filter (·.sourceLabel ∉ labels)).map (fun e =>
      if e.targetLabel ∈ labels then { e with targetLabel := behind e.targetLabel } else e) =
      es := by
  induction es with
  | nil => rfl
  | cons e es ih =>
    have hrest := ih (fun e' he' => hsource e' (List.mem_cons_of_mem _ he'))
      (fun e' he' => hnone e' (List.mem_cons_of_mem _ he'))
      (fun e' he' => hsome e' (List.mem_cons_of_mem _ he'))
    rw [List.flatMap_cons, List.filter_append, List.map_append, hrest]
    have hs := hsource e List.mem_cons_self
    unfold splitEdge
    cases hl : pass.intermediate? e with
    | none =>
      have ht := hnone e List.mem_cons_self hl
      simp [hs, ht]
    | some l =>
      obtain ⟨hmem, hbehind⟩ := hsome e List.mem_cons_self l hl
      simp [hs, hmem, hbehind]

section Split

variable (h : u.BuiltFrom M exitLabels) (hloop : u.NoLoop) (hnodup : u.graph.decisions.Nodup)
  (hfresh : ∀ l ∈ u.graph.decisions,
    pass.decisionLabelToIntermediateSuccessors.find? l = none)
  (hplace : ∀ l, u.IsPlace l →
    l < pass.label ∨ pass.label + 2 * (u.graph.decisions.length : ℤ) ≤ l)

include hnodup hfresh in
theorem after_find?_split {x : DecisionSplit}
    (hx : x ∈ fromLabel pass.label u.graph.decisions) :
    (pass.after u.graph.decisions).decisionLabelToIntermediateSuccessors.find? x.decision =
      some (x.trueLabel, x.falseLabel) := by
  have hmem := List.mem_map_of_mem (f := DecisionSplit.decision) hx
  rw [map_decision_fromLabel] at hmem
  rw [← map_decision_fromLabel pass.label u.graph.decisions] at hnodup
  rw [after_find?, hfresh _ hmem, Option.none_or]
  exact lookup_of_nodup hnodup hx

include h hloop hnodup hfresh in
theorem intermediate_cases {e : Edge} (he : e ∈ u.graph.edges) :
    ((pass.after u.graph.decisions).intermediate? e = none ∧
      ¬ (e.type = .trueBranch ∨ e.type = .falseBranch)) ∨
    ∃ x ∈ fromLabel pass.label u.graph.decisions, x.decision = e.sourceLabel ∧
      ((e.type = .trueBranch ∧
          (pass.after u.graph.decisions).intermediate? e = some x.trueLabel) ∨
        (e.type = .falseBranch ∧
          (pass.after u.graph.decisions).intermediate? e = some x.falseLabel)) := by
  by_cases htype : e.type = .trueBranch ∨ e.type = .falseBranch
  · obtain ⟨c, t, x, hi, -⟩ := h.branch_source hloop he htype
    have hmem := h.mem_decisions.mpr ⟨c, t, x, hi⟩
    rw [← map_decision_fromLabel pass.label u.graph.decisions] at hmem
    obtain ⟨y, hy, hdecision⟩ := List.mem_map.mp hmem
    refine Or.inr ⟨y, hy, hdecision, ?_⟩
    have hfind := after_find?_split hnodup hfresh hy
    rw [hdecision] at hfind
    unfold intermediate?
    rcases htype with htype | htype
    · exact Or.inl ⟨htype, by simp only [htype, hfind, Option.map_some]⟩
    · exact Or.inr ⟨htype, by simp only [htype, hfind, Option.map_some]⟩
  · refine Or.inl ⟨?_, htype⟩
    unfold intermediate?
    cases hcase : e.type <;> simp_all

include h hloop hnodup hfresh in
theorem intermediate_injective {e e' : Edge} (he : e ∈ u.graph.edges) (he' : e' ∈ u.graph.edges)
    {l : ℤ} (hl : (pass.after u.graph.decisions).intermediate? e = some l)
    (hl' : (pass.after u.graph.decisions).intermediate? e' = some l) :
    e.targetLabel = e'.targetLabel := by
  have hcases : ∀ e ∈ u.graph.edges, (pass.after u.graph.decisions).intermediate? e = some l →
      ∃ k : ℕ, u.graph.decisions[k]? = some e.sourceLabel ∧
        ((e.type = .trueBranch ∧ l = pass.label + 2 * k) ∨
          (e.type = .falseBranch ∧ l = pass.label + 2 * k + 1)) := by
    intro e he hl
    rcases intermediate_cases h hloop hnodup hfresh he with ⟨hnone, -⟩ |
      ⟨x, hx, hdecision, hlabel⟩
    · rw [hnone] at hl
      cases hl
    · obtain ⟨k, hk, htrue, hfalse⟩ := mem_fromLabel hx
      refine ⟨k, hdecision ▸ hk, ?_⟩
      rcases hlabel with ⟨htype, hlabel⟩ | ⟨htype, hlabel⟩
      · rw [hlabel] at hl
        cases hl
        exact Or.inl ⟨htype, htrue⟩
      · rw [hlabel] at hl
        cases hl
        exact Or.inr ⟨htype, hfalse⟩
  obtain ⟨k, hk, hlabel⟩ := hcases e he hl
  obtain ⟨k', hk', hlabel'⟩ := hcases e' he' hl'
  have hkk : k = k' ∧ e.type = e'.type := by
    rcases hlabel with ⟨htype, hlabel⟩ | ⟨htype, hlabel⟩ <;>
      rcases hlabel' with ⟨htype', hlabel'⟩ | ⟨htype', hlabel'⟩
    · exact ⟨by omega, htype.trans htype'.symm⟩
    · omega
    · omega
    · exact ⟨by omega, htype.trans htype'.symm⟩
  obtain ⟨rfl, htype⟩ := hkk
  have hsource : e.sourceLabel = e'.sourceLabel := Option.some.inj (hk.symm.trans hk')
  have hbranch : e.type = .trueBranch ∨ e.type = .falseBranch := by
    rcases hlabel with ⟨htype, -⟩ | ⟨htype, -⟩
    · exact Or.inl htype
    · exact Or.inr htype
  obtain ⟨c, t, x, hi, heq⟩ := h.branch_source hloop he hbranch
  obtain ⟨c', t', x', hi', heq'⟩ := h.branch_source hloop he' (htype ▸ hbranch)
  rw [hsource, hi'] at hi
  cases hi
  rw [heq, heq', htype]

include hplace in
theorem find?_copies (h : u.BuiltFrom M exitLabels) (q : ℤ) :
    (OrderedMap.empty.emplaceAll
      (copies pass.label (u.graph.labelToVertex.entries.map Prod.snd))).find? q =
      if q ∈ (fromLabel pass.label u.graph.decisions).flatMap (·.labels) then some { label := q }
      else u.graph.labelToVertex.find? q := by
  rw [OrderedMap.find?_emplaceAll, lookup_copies, h.map_label]
  · simp only [mem_labels_fromLabel, CallUnit.BuiltFrom.length_decisions]
    rfl
  · intro v hv
    obtain ⟨⟨l, w⟩, hw, rfl⟩ := List.mem_map.mp hv
    have hfind := (OrderedMap.find?_eq_some_iff _ _ _).mpr hw
    rw [← CallUnit.BuiltFrom.length_decisions]
    exact hplace _ (Or.inl ⟨w, by rw [h.label_eq hfind]; exact hfind⟩)

include hplace in
theorem place_notMem {l : ℤ} (hl : u.IsPlace l) :
    l ∉ (fromLabel pass.label u.graph.decisions).flatMap (·.labels) := by
  rw [mem_labels_fromLabel]
  have := hplace l hl
  omega

include h hloop hnodup hfresh in
theorem intermediate_mem {e : Edge} (he : e ∈ u.graph.edges) {l : ℤ}
    (hl : (pass.after u.graph.decisions).intermediate? e = some l) :
    l ∈ (fromLabel pass.label u.graph.decisions).flatMap (·.labels) := by
  rcases intermediate_cases h hloop hnodup hfresh he with ⟨hnone, -⟩ | ⟨x, hx, -, hlabel⟩
  · rw [hnone] at hl
    cases hl
  · apply List.mem_flatMap.mpr
    refine ⟨x, hx, ?_⟩
    rcases hlabel with ⟨-, hlabel⟩ | ⟨-, hlabel⟩ <;> rw [hlabel] at hl <;> cases hl <;>
      simp [labels]

include h hloop hnodup hfresh hplace in
theorem behind_intermediate {cfg : Cfg}
    (hedges : cfg.edges = u.graph.edges.flatMap (pass.after u.graph.decisions).splitEdge)
    {e : Edge} (he : e ∈ u.graph.edges) {l : ℤ}
    (hl : (pass.after u.graph.decisions).intermediate? e = some l) :
    cfg.behind l = e.targetLabel := by
  have hmem := intermediate_mem h hloop hnodup hfresh he hl
  have hall : ∀ t ∈ cfg.getSucceedingLabels l, t = e.targetLabel := by
    intro t ht
    obtain ⟨e', he', rfl⟩ := List.mem_map.mp ht
    obtain ⟨he', hsource⟩ := List.mem_filter.mp he'
    rw [hedges, List.mem_flatMap] at he'
    obtain ⟨e₀, he₀, hsplit⟩ := he'
    have hsource₀ : e₀.sourceLabel ≠ l := by
      rintro rfl
      exact place_notMem hplace (h.edge_places he₀).1 hmem
    unfold splitEdge at hsplit
    cases hl₀ : (pass.after u.graph.decisions).intermediate? e₀ with
    | none =>
      rw [hl₀] at hsplit
      rw [List.mem_singleton.mp hsplit] at hsource
      exact absurd (of_decide_eq_true hsource) hsource₀
    | some l₀ =>
      rw [hl₀] at hsplit
      simp only [List.mem_cons, List.not_mem_nil, or_false] at hsplit
      rcases hsplit with rfl | rfl
      · exact absurd (of_decide_eq_true hsource) hsource₀
      · have heq : l₀ = l := of_decide_eq_true hsource
        subst heq
        have htarget := intermediate_injective h hloop hnodup hfresh he₀ he hl₀ hl
        exact htarget
  have hsucc : e.targetLabel ∈ cfg.getSucceedingLabels l := by
    refine List.mem_map.mpr ⟨{ sourceLabel := l, targetLabel := e.targetLabel },
      List.mem_filter.mpr ⟨?_, decide_eq_true rfl⟩, rfl⟩
    rw [hedges, List.mem_flatMap]
    refine ⟨e, he, ?_⟩
    unfold splitEdge
    rw [hl]
    exact List.mem_cons_of_mem _ List.mem_cons_self
  unfold Cfg.behind
  cases hs : cfg.getSucceedingLabels l with
  | nil =>
    rw [hs] at hsucc
    cases hsucc
  | cons t ts => exact hall t (hs ▸ List.mem_cons_self)

theorem find?_foldl_erase {m : OrderedMap ℤ Vertex} (labels : List ℤ) (q : ℤ) :
    (labels.foldl OrderedMap.erase m).find? q = if q ∈ labels then none else m.find? q := by
  induction labels generalizing m with
  | nil => simp
  | cons l labels ih =>
    rw [List.foldl_cons, ih, OrderedMap.find?_erase]
    by_cases hq : q = l
    · simp [hq]
    · simp [hq]

include h hloop hnodup hfresh hplace in
/-- A unit visited for the first time gets two intermediate vertices behind each IF. -/
theorem transform_splits {u' : CallUnit Cfg} {pass' : DecisionTransformationPass}
    (hok : transform u.graph pass = .ok (u'.graph, pass'))
    (hcallees : List.Forall₂ (fun g g' : Cfg => g'.entryLabel = g.entryLabel ∧
      g'.exitLabel = g.exitLabel) u.callees u'.callees) :
    SplitsDecisions u u' (fromLabel pass.label u.graph.decisions) := by
  have hgraph := congrArg Prod.fst (Except.ok.inj (hok.symm.trans (transform_spec h hloop)))
  dsimp only at hgraph
  have hfind := find?_copies hplace h
  have hedges : u'.graph.edges =
      u.graph.edges.flatMap (pass.after u.graph.decisions).splitEdge := by rw [hgraph]
  have hvertex : ∀ q, u'.graph.labelToVertex.find? q =
      if q ∈ (fromLabel pass.label u.graph.decisions).flatMap (·.labels) then some { label := q }
      else u.graph.labelToVertex.find? q := by
    intro q
    rw [hgraph]
    exact hfind q
  have hkept : ∀ {l}, u.IsPlace l → u'.IsPlace l := by
    rintro l (⟨v, hv⟩ | ⟨g, hg, hl⟩)
    · refine Or.inl ⟨v, ?_⟩
      rw [hvertex, if_neg (place_notMem hplace (Or.inl ⟨v, hv⟩))]
      exact hv
    · obtain ⟨g', hg', hentry, hexit⟩ := exists_of_forall₂ hcallees hg
      refine Or.inr ⟨g', hg', ?_⟩
      rw [hentry, hexit]
      exact hl
  have hnew : ∀ {l}, l ∈ (fromLabel pass.label u.graph.decisions).flatMap (·.labels) →
      u'.graph.labelToVertex.find? l = some { label := l } := by
    intro l hl
    rw [hvertex, if_pos hl]
  constructor
  · exact map_decision_fromLabel _ _
  · intro e he
    rw [hedges, List.mem_flatMap] at he
    obtain ⟨e₀, he₀, hsplit⟩ := he
    obtain ⟨hsource, htarget⟩ := h.edge_places he₀
    unfold splitEdge at hsplit
    cases hl₀ : (pass.after u.graph.decisions).intermediate? e₀ with
    | none =>
      rw [hl₀] at hsplit
      rw [List.mem_singleton.mp hsplit]
      exact ⟨hkept hsource, hkept htarget⟩
    | some l₀ =>
      rw [hl₀] at hsplit
      have hmem := hnew (intermediate_mem h hloop hnodup hfresh he₀ hl₀)
      simp only [List.mem_cons, List.not_mem_nil, or_false] at hsplit
      rcases hsplit with rfl | rfl
      · exact ⟨hkept hsource, Or.inl ⟨_, hmem⟩⟩
      · exact ⟨Or.inl ⟨_, hmem⟩, hkept htarget⟩
  · intro x hx l hl
    exact hnew (List.mem_flatMap.mpr ⟨x, hx, hl⟩)
  · intro x hx
    have hfind := after_find?_split hnodup hfresh hx
    obtain ⟨htrue, -⟩ := h.branch_edges (map_decision_fromLabel pass.label u.graph.decisions ▸
      List.mem_map_of_mem (f := DecisionSplit.decision) hx)
    obtain ⟨t, htrue⟩ := htrue
    rw [hedges]
    refine List.mem_flatMap.mpr ⟨_, htrue, ?_⟩
    simp only [splitEdge, intermediate?, hfind, Option.map_some]
    exact List.mem_cons_self
  · intro x hx
    have hfind := after_find?_split hnodup hfresh hx
    obtain ⟨-, hfalse⟩ := h.branch_edges (map_decision_fromLabel pass.label u.graph.decisions ▸
      List.mem_map_of_mem (f := DecisionSplit.decision) hx)
    obtain ⟨t, hfalse⟩ := hfalse
    rw [hedges]
    refine List.mem_flatMap.mpr ⟨_, hfalse, ?_⟩
    simp only [splitEdge, intermediate?, hfind, Option.map_some]
    exact List.mem_cons_self
  · unfold Cfg.contract
    have hcontract := @contract_splitEdges (pass.after u.graph.decisions) u.graph.edges
      ((fromLabel pass.label u.graph.decisions).flatMap (·.labels)) u'.graph.behind
      (fun e he => place_notMem hplace (h.edge_places he).1)
      (fun e he _ => place_notMem hplace (h.edge_places he).2)
      (fun e he l hl => ⟨intermediate_mem h hloop hnodup hfresh he hl,
        behind_intermediate h hloop hnodup hfresh hplace hedges he hl⟩)
    have hmap : ((fromLabel pass.label u.graph.decisions).flatMap (·.labels)).foldl
        OrderedMap.erase u'.graph.labelToVertex = u.graph.labelToVertex := by
      apply OrderedMap.ext_find?
      intro q
      rw [find?_foldl_erase, hvertex]
      split_ifs with hq
      · cases hold : u.graph.labelToVertex.find? q with
        | none => rfl
        | some v => exact absurd hq (place_notMem hplace (Or.inl ⟨v, hold⟩))
      · rfl
    rw [hmap, hedges, hcontract, hgraph]

end Split

theorem makes_labels {g g' : Cfg} (h : Makes transform g g') :
    g'.entryLabel = g.entryLabel ∧ g'.exitLabel = g.exitLabel := by
  obtain ⟨s, s', hok⟩ := h
  unfold transform at hok
  obtain ⟨r, -, hok⟩ := bind_eq_ok hok
  obtain ⟨edges, -, hok⟩ := bind_eq_ok hok
  cases hok
  exact ⟨rfl, rfl⟩

theorem after_find?_mono {l : ℤ} {labels : ℤ × ℤ} (decisions : List ℤ)
    (h : pass.decisionLabelToIntermediateSuccessors.find? l = some labels) :
    (pass.after decisions).decisionLabelToIntermediateSuccessors.find? l = some labels := by
  rw [after_find?, h, Option.some_or]

theorem after_find?_of_notMem {l : ℤ} {decisions : List ℤ} (hl : l ∉ decisions) :
    (pass.after decisions).decisionLabelToIntermediateSuccessors.find? l =
      pass.decisionLabelToIntermediateSuccessors.find? l := by
  rw [after_find?]
  cases hlookup : OrderedMap.lookup l ((fromLabel pass.label decisions).map entry) with
  | none => exact Option.or_none
  | some labels =>
    obtain ⟨x, hx, hentry⟩ := List.mem_map.mp (OrderedMap.mem_of_lookup hlookup)
    have hmem := List.mem_map_of_mem (f := DecisionSplit.decision) hx
    have hdecision : x.decision = l := congrArg Prod.fst hentry
    rw [map_decision_fromLabel, hdecision] at hmem
    exact absurd hmem hl

theorem visits_after {us us' : List (CallUnit Cfg)} {pass' : DecisionTransformationPass}
    (h : Visits transform pass us us' pass') (hbuilt : ∀ u ∈ us, u.Built) :
    (∀ u ∈ us, u.NoLoop) ∧ pass' = pass.after (us.flatMap (·.graph.decisions)) := by
  induction h with
  | nil =>
    refine ⟨fun _ h => (List.not_mem_nil h).elim, ?_⟩
    unfold after
    simp [fromLabel, OrderedMap.emplaceAll]
  | @cons s s₁ s' u u' us us' hok hname hcallees hrest ih =>
    obtain ⟨M, exitLabels, hu⟩ := hbuilt u List.mem_cons_self
    have hloop := noLoop_of_transform hok
    obtain ⟨hloops, hs'⟩ := ih fun w hw => hbuilt w (List.mem_cons_of_mem _ hw)
    have hs₁ : s₁ = s.after u.graph.decisions :=
      congrArg Prod.snd (Except.ok.inj (hok.symm.trans (transform_spec hu hloop)))
    constructor
    · intro w hw
      rcases List.mem_cons.mp hw with rfl | hw
      · exact hloop
      · exact hloops w hw
    · rw [hs', hs₁, List.flatMap_cons, after_append]

theorem visits_split {us us' : List (CallUnit Cfg)} {pass' : DecisionTransformationPass}
    (h : Visits transform pass us us' pass') (hbuilt : ∀ u ∈ us, u.Built)
    (hnodup : (us.flatMap (·.graph.decisions)).Nodup)
    (hfresh : ∀ l ∈ us.flatMap (·.graph.decisions),
      pass.decisionLabelToIntermediateSuccessors.find? l = none)
    (hplace : ∀ u ∈ us, ∀ l, u.IsPlace l → l < pass.label ∨
      pass.label + 2 * ((us.flatMap (·.graph.decisions)).length : ℤ) ≤ l) :
    SplitUnits us us' (fromLabel pass.label (us.flatMap (·.graph.decisions))) := by
  induction h with
  | nil => exact .nil
  | @cons s s₁ s' u u' us us' hok hname hcallees hrest ih =>
    obtain ⟨M, exitLabels, hu⟩ := hbuilt u List.mem_cons_self
    have hloop := noLoop_of_transform hok
    have hs₁ : s₁ = s.after u.graph.decisions :=
      congrArg Prod.snd (Except.ok.inj (hok.symm.trans (transform_spec hu hloop)))
    simp only [List.flatMap_cons, List.length_append] at hnodup hfresh hplace ⊢
    push_cast at hplace
    obtain ⟨hnodup₁, hnodup₂, hdisjoint⟩ := List.nodup_append.mp hnodup
    rw [fromLabel_append]
    refine .cons (transform_splits hu hloop hnodup₁
      (fun l hl => hfresh l (List.mem_append_left _ hl)) ?_ hok ?_) ?_
    · intro l hl
      have := hplace u List.mem_cons_self l hl
      omega
    · exact hcallees.imp fun _ _ hmakes => makes_labels hmakes
    · have hlabel : s₁.label = s.label + 2 * (u.graph.decisions.length : ℤ) := by
        rw [hs₁]
        rfl
      rw [← hlabel]
      apply ih (fun w hw => hbuilt w (List.mem_cons_of_mem _ hw)) hnodup₂
      · intro l hl
        rw [hs₁, after_find?_of_notMem fun hmem => hdisjoint l hmem l hl rfl]
        exact hfresh l (List.mem_append_right _ hl)
      · intro w hw l hl
        have := hplace w (List.mem_cons_of_mem _ hw) l hl
        omega

theorem find?_of_splits {u' : CallUnit Cfg} (h : u.BuiltFrom M exitLabels) (hloop : u.NoLoop)
    {pass' : DecisionTransformationPass} (hok : transform u.graph pass = .ok (u'.graph, pass'))
    {splits : List DecisionSplit} (hsplits : SplitsDecisions u u' splits) {x : DecisionSplit}
    (hx : x ∈ splits) : pass'.decisionLabelToIntermediateSuccessors.find? x.decision =
      some (x.trueLabel, x.falseLabel) := by
  obtain ⟨hgraph, hpass⟩ := Prod.mk.inj (Except.ok.inj (hok.symm.trans (transform_spec h hloop)))
  have hedges : u'.graph.edges =
      u.graph.edges.flatMap (pass.after u.graph.decisions).splitEdge := by rw [hgraph]
  rw [hpass]
  have hbranch : ∀ {e : Edge}, e ∈ u'.graph.edges → e.type = .trueBranch ∨ e.type = .falseBranch →
      ∃ labels, (pass.after u.graph.decisions).decisionLabelToIntermediateSuccessors.find?
        e.sourceLabel = some labels ∧
        e.targetLabel = if e.type = .trueBranch then labels.1 else labels.2 := by
    intro e he htype
    rw [hedges, List.mem_flatMap] at he
    obtain ⟨e₀, he₀, hsplit⟩ := he
    unfold splitEdge at hsplit
    cases hl₀ : (pass.after u.graph.decisions).intermediate? e₀ with
    | none =>
      rw [hl₀] at hsplit
      rw [List.mem_singleton.mp hsplit] at htype
      obtain ⟨labels, hlabels⟩ := (@splittable _ _ _ pass h hloop _ he₀).branch htype
      unfold intermediate? at hl₀
      rcases htype with htype | htype <;>
        simp only [htype, hlabels, Option.map_some, reduceCtorEq] at hl₀
    | some l₀ =>
      rw [hl₀] at hsplit
      simp only [List.mem_cons, List.not_mem_nil, or_false] at hsplit
      rcases hsplit with rfl | rfl
      · obtain ⟨labels, hlabels⟩ := (@splittable _ _ _ pass h hloop _ he₀).branch htype
        refine ⟨labels, hlabels, ?_⟩
        unfold intermediate? at hl₀
        rcases htype with htype | htype <;> dsimp only at htype <;>
          simp only [htype, hlabels, Option.map_some, Option.some.injEq] at hl₀ <;>
          simp [htype, hl₀]
      · simp at htype
  obtain ⟨labels, hlabels, htrue⟩ := hbranch (hsplits.trueEdge x hx) (Or.inl rfl)
  obtain ⟨labels', hlabels', hfalse⟩ := hbranch (hsplits.falseEdge x hx) (Or.inr rfl)
  rw [hlabels] at hlabels'
  cases hlabels'
  rw [hlabels]
  simp only [if_true] at htrue
  simp only [reduceCtorEq, if_false] at hfalse
  rw [htrue, hfalse]

theorem visits_find? {us us' : List (CallUnit Cfg)} {pass' : DecisionTransformationPass}
    (h : Visits transform pass us us' pass') (hbuilt : ∀ u ∈ us, u.Built)
    {splits : List DecisionSplit} (hsplits : SplitUnits us us' splits) :
    splits.map (·.decision) = us.flatMap (·.graph.decisions) ∧
    ∀ x ∈ splits, pass'.decisionLabelToIntermediateSuccessors.find? x.decision =
      some (x.trueLabel, x.falseLabel) := by
  induction h generalizing splits with
  | nil =>
    cases hsplits
    exact ⟨rfl, fun _ h => (List.not_mem_nil h).elim⟩
  | @cons s s₁ s' u u' us us' hok hname hcallees hrest ih =>
    cases hsplits with
    | @cons _ _ _ _ splits rest hu' hrest' =>
      have hbuilt' : ∀ w ∈ us, w.Built := fun w hw => hbuilt w (List.mem_cons_of_mem _ hw)
      obtain ⟨M, exitLabels, hu⟩ := hbuilt u List.mem_cons_self
      obtain ⟨hdecisions, hfind⟩ := ih hbuilt' hrest'
      constructor
      · rw [List.map_append, hu'.decisions, hdecisions, List.flatMap_cons]
      · intro x hx
        rcases List.mem_append.mp hx with hx | hx
        · rw [(visits_after hrest hbuilt').2]
          exact after_find?_mono _
            (find?_of_splits hu (noLoop_of_transform hok) hok hu' hx)
        · exact hfind x hx

theorem nodup_decisions {splits : List DecisionSplit}
    (hfind : ∀ x ∈ splits, pass.decisionLabelToIntermediateSuccessors.find? x.decision =
      some (x.trueLabel, x.falseLabel))
    (hnodup : (splits.flatMap (·.labels)).Nodup) : (splits.map (·.decision)).Nodup := by
  obtain ⟨-, hdisjoint⟩ := List.nodup_flatMap.mp hnodup
  refine List.pairwise_map.mpr (hdisjoint.imp_of_mem ?_)
  intro x y hx hy hxy hdecision
  have hx' := hfind x hx
  rw [hdecision, hfind y hy] at hx'
  have htrue : y.trueLabel = x.trueLabel := congrArg Prod.fst (Option.some.inj hx')
  exact hxy (show x.trueLabel ∈ x.labels from List.mem_cons_self)
    (show x.trueLabel ∈ y.labels from htrue ▸ List.mem_cons_self)

theorem separate_of_transformsDecisions {t t' : CallTree Cfg} (h : t.Built) (hok : apply t = .ok t')
    (htransforms : TransformsDecisions t t') : t.Separate := by
  obtain ⟨-, splits, hsplits, hnodup, hnew⟩ := htransforms
  unfold apply at hok
  cases happly : t.apply transform initial with
  | error e =>
    rw [happly] at hok
    cases hok
  | ok r =>
    obtain ⟨t₁, pass'⟩ := r
    rw [happly] at hok
    cases hok
    obtain ⟨hvisits, -, -⟩ := t.apply_visits initial t₁ pass' happly
    obtain ⟨hloops, hpass⟩ := visits_after hvisits h
    obtain ⟨hdecisions, hfind⟩ := visits_find? hvisits h hsplits
    have honce : t.decisions.Nodup := by
      unfold CallTree.decisions
      rw [← hdecisions]
      exact nodup_decisions hfind hnodup
    refine ⟨hloops, honce, ?_⟩
    intro u hu l v hv
    by_contra hrange
    have hmem : l ∈ (fromLabel 9000 t.decisions).flatMap (·.labels) := by
      rw [mem_labels_fromLabel]
      omega
    obtain ⟨y, hy, hl⟩ := List.mem_flatMap.mp hmem
    have hy' := List.mem_map_of_mem (f := DecisionSplit.decision) hy
    rw [map_decision_fromLabel] at hy'
    obtain ⟨x, hx, hdecision⟩ := List.mem_map.mp (hdecisions ▸ hy' :
      y.decision ∈ splits.map (·.decision))
    have hlookup := hfind x hx
    have hlookup' : pass'.decisionLabelToIntermediateSuccessors.find? y.decision =
        some (y.trueLabel, y.falseLabel) := by
      rw [hpass, after_find?]
      change (Option.or none _) = _
      rw [Option.none_or]
      exact lookup_of_nodup (by rw [map_decision_fromLabel]; exact honce) hy
    rw [hdecision, hlookup'] at hlookup
    obtain ⟨htrue, hfalse⟩ := Prod.mk.inj (Option.some.inj hlookup)
    have hlabels : y.labels = x.labels := by
      unfold labels
      rw [htrue, hfalse]
    have hnone := hnew l (List.mem_flatMap.mpr ⟨x, hx, hlabels ▸ hl⟩) u hu
    rw [hv] at hnone
    cases hnone

/-- The pass does what it is for exactly if there are no loops, every IF is visited once, and no
label of the program is one that the pass hands out. -/
theorem apply_transformsDecisions_iff (t : CallTree Cfg) (h : t.Built) :
    (∃ t', apply t = .ok t' ∧ TransformsDecisions t t') ↔ t.Separate := by
  constructor
  · rintro ⟨t', hok, htransforms⟩
    exact separate_of_transformsDecisions h hok htransforms
  · intro hseparate
    have hbelow : ∀ u ∈ t.units, ∀ l, u.IsPlace l →
        l < 9000 ∨ 9000 + 2 * (t.decisions.length : ℤ) ≤ l := by
      rintro u hu l (⟨v, hv⟩ | ⟨g, hg, hl⟩)
      · exact hseparate.below u hu l v hv
      · obtain ⟨w, hw, rfl⟩ := t.mem_units_of_callee.2 u hu g hg
        obtain ⟨M, exitLabels, hbuilt⟩ := h w hw
        rcases hl with rfl | rfl
        · exact hseparate.below w hw _ _ (hbuilt.graph.entry ▸ hbuilt.vertex_entry)
        · exact hseparate.below w hw _ _ (hbuilt.graph.exit ▸ hbuilt.vertex_exit)
    have htotal : ∀ u ∈ t.units, ∀ pass, ∃ r, transform u.graph pass = .ok r := by
      intro u hu pass
      obtain ⟨M, exitLabels, hbuilt⟩ := h u hu
      exact ⟨_, transform_spec hbuilt (hseparate.noLoop u hu)⟩
    obtain ⟨⟨t', pass'⟩, happly⟩ := t.apply_ok initial htotal
    obtain ⟨hvisits, -, hshape⟩ := t.apply_visits initial t' pass' happly
    have hsplit := visits_split hvisits h hseparate.once (fun _ _ => rfl) hbelow
    refine ⟨t', by unfold apply; rw [happly]; rfl, hshape, _, hsplit,
      nodup_labels_fromLabel _ _, ?_⟩
    intro l hl u hu
    cases hv : u.graph.labelToVertex.find? l with
    | none => rfl
    | some v =>
      have hrange := mem_labels_fromLabel.mp hl
      have := hseparate.below u hu l v hv
      change 9000 ≤ l ∧ l < 9000 + 2 * (t.decisions.length : ℤ) at hrange
      omega

section Sharing

/-- The graph of a unit that has no statements. -/
def emptyGraph (entryLabel exitLabel : ℤ) : Cfg where
  labelToVertex :=
    (OrderedMap.empty.emplace entryLabel { label := entryLabel, type := .entry }).emplace exitLabel
      { label := exitLabel, type := .exit }
  edges := [{ sourceLabel := entryLabel, targetLabel := exitLabel }]
  entryLabel := entryLabel
  exitLabel := exitLabel

def enable : Variable := ⟨"x", .bool, .input, none⟩

def count : Variable := ⟨"y", .int, .local, none⟩

/-- `IF x THEN y := 1; END_IF;` -/
def counting : StatementList :=
  .cons (.ifStatement (.reference (.variableAccess enable))
    (.cons (.assignmentStatement (.variableAccess count) (.integerConstant 1)) .nil) .nil .nil) .nil

def counterInterface : Interface := .ofVariables [enable, count] (by decide)

def callerInterface : Interface :=
  .ofVariables [⟨"c", .derivedType "Counter", .local, none⟩] (by decide)

def mainInterface : Interface :=
  .ofVariables [⟨"a", .derivedType "Caller", .local, none⟩,
    ⟨"c", .derivedType "Counter", .local, none⟩] (by decide)

/-- A program calls a counter, and a function block that calls the counter as well. -/
def twoCallers : SourceProject where
  toProject := .ranked
    (((OrderedMap.empty.emplace "Counter" counterInterface).emplace "Caller"
      callerInterface).emplace "Main" mainInterface)
    (fun name => if name = "Main" then 2 else if name = "Caller" then 1 else 0) (by decide)
  bodyOf := fun name => if name = "Counter" then counting else .nil
  declared := by
    intro name i hi v hv
    by_cases h : name = "Counter"
    · rw [if_pos h] at hv
      cases hv
    · rw [if_neg h] at hv
      cases hv

def counterTree : CallTree Cfg :=
  .node "Counter"
    { labelToVertex := (((OrderedMap.empty.emplace 0 { label := 0, type := .entry }).emplace 1
        { label := 1
          instruction := some (.ifInstruction (.reference (.variableAccess enable)) 2 4) }).emplace 2
        { label := 2
          instruction := some (.assignmentInstruction .regular (.variableAccess count)
            (.integerConstant 1)) }).emplace 4 { label := 4, type := .exit }
      edges := [{ sourceLabel := 0, targetLabel := 1 },
        { sourceLabel := 1, targetLabel := 2, type := .trueBranch },
        { sourceLabel := 1, targetLabel := 4, type := .falseBranch },
        { sourceLabel := 2, targetLabel := 4 }]
      entryLabel := 0
      exitLabel := 4 } .nil

def twoCallersTree : CallTree Cfg :=
  .node "Main" (emptyGraph 7 8) (.cons (.node "Caller" (emptyGraph 5 6) (.cons counterTree .nil))
    (.cons counterTree .nil))

theorem twoCallers_callTree (name : String) {t : CallTree Cfg}
    (h : (twoCallers.compileModules 4 >>= fun c => twoCallers.callTree c 4 name) = .ok t) :
    t.Built := by
  obtain ⟨c, hc, ht⟩ := bind_eq_ok h
  exact SourceProject.compileModules_built hc ht

theorem counterTree_separate : counterTree.Separate := by
  have hentries : ∀ u ∈ counterTree.units, ∀ x ∈ u.graph.labelToVertex.entries,
      x.2.isDecision = false → x.2.type = .regular →
        x.2.instruction = some (.assignmentInstruction .regular (.variableAccess count)
          (.integerConstant 1)) := by decide
  have hlabels : ∀ u ∈ counterTree.units, ∀ x ∈ u.graph.labelToVertex.entries,
      x.1 < 9000 := by decide
  refine ⟨?_, by decide, ?_⟩
  · intro u hu l e a b hl
    have hassign := hentries u hu _ (OrderedMap.mem_of_lookup hl) rfl rfl
    cases hassign
  · intro u hu l v hl
    exact Or.inl (hlabels u hu _ (OrderedMap.mem_of_lookup hl))

theorem counterTree_split :
    ∃ t', apply counterTree = .ok t' ∧ TransformsDecisions counterTree t' :=
  (apply_transformsDecisions_iff counterTree (twoCallers_callTree "Counter" (by rfl))).mpr
    counterTree_separate

/-- The second time the counter is visited, its branches get the labels of the first time. -/
theorem twoCallersTree_not_split :
    ¬ ∃ t', apply twoCallersTree = .ok t' ∧ TransformsDecisions twoCallersTree t' := by
  rintro ⟨t', hok, htransforms⟩
  have hseparate := separate_of_transformsDecisions
    (twoCallers_callTree "Main" (t := twoCallersTree) (by rfl)) hok htransforms
  have honce := hseparate.once
  revert honce
  decide

end Sharing

end DecisionTransformationPass

end Ahorn
