import Ahorn.BasicBlockPass

set_option autoImplicit false

/-!
# The blocks of built graphs

Out of every vertex go the edges of its instruction. So the pass finds its leaders, extends every
block to its end, and never fails.
-/
namespace Ahorn

theorem flatMap_eq_of_key {κ ν β : Type} [LinearOrder κ] {l : List (κ × ν)}
    (hs : l.Pairwise (fun x y => x.1 < y.1)) {k : κ} {v : ν} (hmem : (k, v) ∈ l)
    (g : κ × ν → List β) (hother : ∀ x ∈ l, x.1 ≠ k → g x = []) : l.flatMap g = g (k, v) := by
  induction l with
  | nil => cases hmem
  | cons x l ih =>
    have hlt : ∀ y ∈ l, x.1 < y.1 := fun _ hy => List.rel_of_pairwise_cons hs hy
    rw [List.flatMap_cons]
    rcases List.mem_cons.mp hmem with rfl | hmem
    · have hnil : l.flatMap g = [] := List.flatMap_eq_nil_iff.mpr fun y hy =>
        hother y (List.mem_cons_of_mem _ hy) (ne_of_gt (hlt y hy))
      rw [hnil, List.append_nil]
    · rw [hother x List.mem_cons_self (ne_of_lt (hlt _ hmem)), List.nil_append]
      exact ih hs.of_cons hmem fun y hy => hother y (List.mem_cons_of_mem _ hy)

namespace CallUnit.BuiltFrom

variable {u : CallUnit Cfg} {M : Module} {exitLabels : String → Option ℤ}

section OutgoingEdges

variable (h : u.BuiltFrom M exitLabels)
include h

theorem exit_ne {callee : Cfg} (hcallee : callee ∈ u.callees) {l : ℤ} (hl : M.entryLabel ≤ l)
    (hl' : l ≤ M.exitLabel) : callee.exitLabel ≠ l := by
  have := h.apart callee hcallee
  omega

theorem source_cases {l : ℤ} {i : Instruction} (hi : M.labelToInstruction.find? l = some i)
    {e : Edge} (he : e ∈ Builder.instructionEdges exitLabels u.name l i) :
    (i.isGoto = true ∧ e.sourceLabel = l - 1) ∨
      (i.isGoto = false ∧ i.isWrite = false ∧ e.sourceLabel = l) ∨
      ∃ callee ∈ u.callees, e.sourceLabel = callee.exitLabel := by
  cases i with
  | assignmentInstruction _ _ _ => cases he
  | havocInstruction _ => cases he
  | gotoInstruction t =>
    rw [List.mem_singleton.mp he]
    exact Or.inl ⟨rfl, rfl⟩
  | ifInstruction c t x =>
    simp only [Builder.instructionEdges, Instruction.intraproceduralEdges, List.mem_cons,
      List.not_mem_nil, or_false] at he
    rcases he with rfl | rfl <;> exact Or.inr (Or.inl ⟨rfl, rfl, rfl⟩)
  | whileInstruction c t x =>
    simp only [Builder.instructionEdges, Instruction.intraproceduralEdges, List.mem_cons,
      List.not_mem_nil, or_false] at he
    rcases he with rfl | rfl <;> exact Or.inr (Or.inl ⟨rfl, rfl, rfl⟩)
  | callInstruction v intra inter =>
    obtain ⟨callee, hcallee, -, hexit⟩ := h.calls l v intra inter hi
    simp only [Builder.instructionEdges, hexit, Option.getD_some, callEdges, List.mem_cons,
      List.not_mem_nil, or_false] at he
    rcases he with rfl | rfl | rfl
    · exact Or.inr (Or.inl ⟨rfl, rfl, rfl⟩)
    · exact Or.inr (Or.inl ⟨rfl, rfl, rfl⟩)
    · exact Or.inr (Or.inr ⟨callee, hcallee, rfl⟩)

theorem getOutgoingEdges_eq {l k : ℤ} {i : Instruction}
    (hi : M.labelToInstruction.find? k = some i) (hl : M.entryLabel < l) (hl' : l ≤ M.exitLabel)
    (honly : ∀ l' j, M.labelToInstruction.find? l' = some j →
      (j.isGoto = true ∧ l = l' - 1 ∨ j.isGoto = false ∧ j.isWrite = false ∧ l = l') → l' = k) :
    u.graph.getOutgoingEdges l =
      (Builder.instructionEdges exitLabels u.name k i).filter (·.sourceLabel = l) := by
  unfold Cfg.getOutgoingEdges
  rw [h.graph.edges, List.filter_cons_of_neg (by simp; omega), List.filter_flatMap]
  refine flatMap_eq_of_key M.labelToInstruction.sorted
    ((OrderedMap.find?_eq_some_iff _ _ _).mp hi) _ ?_
  intro x hx hne
  apply List.filter_eq_nil_iff.mpr
  intro e he
  have hfind := (OrderedMap.find?_eq_some_iff _ _ _).mpr hx
  simp only [decide_eq_true_eq]
  rintro rfl
  rcases h.source_cases hfind he with ⟨hgoto, hs⟩ | ⟨hgoto, hs⟩ | ⟨callee, hcallee, hs⟩
  · exact hne (honly x.1 x.2 hfind (Or.inl ⟨hgoto, hs⟩))
  · exact hne (honly x.1 x.2 hfind (Or.inr ⟨hgoto, hs⟩))
  · exact h.exit_ne hcallee (le_of_lt hl) hl' hs.symm

theorem within {l : ℤ} {i : Instruction} (hi : M.labelToInstruction.find? l = some i) :
    M.entryLabel < l ∧ l < M.exitLabel := (h.closed.instructions l).mp ⟨i, hi⟩

theorem not_goto_behind {l t : ℤ} {i : Instruction} (hi : M.labelToInstruction.find? l = some i)
    (hwrite : i.isWrite = false) : M.labelToInstruction.find? (l + 1) ≠ some (.gotoInstruction t) := by
  intro hgoto
  obtain ⟨j, hj, hw⟩ := h.closed.preceded hgoto
  rw [add_sub_cancel_right, hi] at hj
  cases hj
  rw [hwrite] at hw
  cases hw

theorem getOutgoingEdges_write {l t : ℤ} {i : Instruction}
    (hi : M.labelToInstruction.find? l = some i) (hwrite : i.isWrite = true)
    (hgoto : M.labelToInstruction.find? (l + 1) = some (.gotoInstruction t)) :
    u.graph.getOutgoingEdges l = [{ sourceLabel := l, targetLabel := t }] := by
  obtain ⟨hl, hl'⟩ := h.within hi
  rw [h.getOutgoingEdges_eq hgoto hl (le_of_lt hl')]
  · simp [Builder.instructionEdges, Instruction.intraproceduralEdges]
  · rintro l' j hj (⟨-, rfl⟩ | ⟨-, hnot, rfl⟩)
    · omega
    · rw [hi] at hj
      cases hj
      rw [hwrite] at hnot
      cases hnot

theorem getOutgoingEdges_self {l : ℤ} {i : Instruction}
    (hi : M.labelToInstruction.find? l = some i) (hwrite : i.isWrite = false) :
    u.graph.getOutgoingEdges l =
      (Builder.instructionEdges exitLabels u.name l i).filter (·.sourceLabel = l) := by
  obtain ⟨hl, hl'⟩ := h.within hi
  apply h.getOutgoingEdges_eq hi hl (le_of_lt hl')
  rintro l' j hj (⟨hgoto, rfl⟩ | ⟨-, -, rfl⟩)
  · cases j <;> simp only [Instruction.isGoto, Bool.false_eq_true] at hgoto
    rw [← sub_add_cancel l' 1] at hj
    exact absurd hj (h.not_goto_behind hi hwrite)
  · rfl

theorem getOutgoingEdges_if {l : ℤ} {c : Expression} {t x : ℤ}
    (hi : M.labelToInstruction.find? l = some (.ifInstruction c t x)) :
    u.graph.getOutgoingEdges l =
      [{ sourceLabel := l, targetLabel := t, type := .trueBranch },
        { sourceLabel := l, targetLabel := x, type := .falseBranch }] := by
  rw [h.getOutgoingEdges_self hi rfl]
  simp [Builder.instructionEdges, Instruction.intraproceduralEdges]

theorem getOutgoingEdges_while {l : ℤ} {c : Expression} {t x : ℤ}
    (hi : M.labelToInstruction.find? l = some (.whileInstruction c t x)) :
    u.graph.getOutgoingEdges l =
      [{ sourceLabel := l, targetLabel := t, type := .trueBranch },
        { sourceLabel := l, targetLabel := x, type := .falseBranch }] := by
  rw [h.getOutgoingEdges_self hi rfl]
  simp [Builder.instructionEdges, Instruction.intraproceduralEdges]

theorem getOutgoingEdges_call {l : ℤ} {v : Variable} {intra inter : ℤ}
    (hi : M.labelToInstruction.find? l = some (.callInstruction v intra inter)) :
    u.graph.getOutgoingEdges l =
      [{ sourceLabel := l, targetLabel := inter, type := .interproceduralCall },
        { sourceLabel := l, targetLabel := intra, type := .intraproceduralCallToReturn }] := by
  obtain ⟨callee, hcallee, -, hexit⟩ := h.calls l v intra inter hi
  obtain ⟨hl, hl'⟩ := h.within hi
  have hne := h.exit_ne hcallee (le_of_lt hl) (le_of_lt hl')
  rw [h.getOutgoingEdges_self hi rfl]
  simp [Builder.instructionEdges, hexit, callEdges, hne]

theorem getOutgoingEdges_exit : u.graph.getOutgoingEdges M.exitLabel = [] := by
  have hlt := h.closed.entry_lt_exit
  apply List.filter_eq_nil_iff.mpr
  intro e he
  simp only [decide_eq_true_eq]
  rcases h.graph.mem_edges.mp he with rfl | ⟨l, i, hi, he⟩
  · exact ne_of_lt hlt
  · obtain ⟨hl, hl'⟩ := h.within hi
    rcases h.source_cases hi he with ⟨-, hs⟩ | ⟨-, -, hs⟩ | ⟨callee, hcallee, hs⟩
    · omega
    · omega
    · rw [hs]
      exact h.exit_ne hcallee (le_of_lt hlt) le_rfl

theorem getOutgoingEdges_entry : u.graph.getOutgoingEdges M.entryLabel =
    [{ sourceLabel := M.entryLabel, targetLabel := M.entryLabel + 1 }] := by
  have hlt := h.closed.entry_lt_exit
  unfold Cfg.getOutgoingEdges
  rw [h.graph.edges, List.filter_cons_of_pos (by simp)]
  congr 1
  apply List.filter_eq_nil_iff.mpr
  intro e he
  simp only [decide_eq_true_eq]
  obtain ⟨⟨l, i⟩, hmem, he⟩ := List.mem_flatMap.mp he
  have hi := (OrderedMap.find?_eq_some_iff _ _ _).mpr hmem
  obtain ⟨hl, hl'⟩ := h.within hi
  rcases h.source_cases hi he with ⟨hgoto, hs⟩ | ⟨-, -, hs⟩ | ⟨callee, hcallee, hs⟩
  · cases i <;> simp only [Instruction.isGoto, Bool.false_eq_true] at hgoto
    obtain ⟨j, hj, -⟩ := h.closed.preceded hi
    have := h.within hj
    omega
  · omega
  · rw [hs]
    exact h.exit_ne hcallee le_rfl (le_of_lt hlt)

end OutgoingEdges

section Leaders

open BasicBlockPass

/-- The labels that an instruction makes leaders. -/
def instructionLeads (l : ℤ) : Instruction → List ℤ
  | .callInstruction _ intra _ => [intra]
  | .ifInstruction _ t x => [t, x]
  | .whileInstruction _ t x => [l, t, x]
  | _ => []

/-- The labels that the vertex at a label makes leaders. -/
def leadingLabels (M : Module) (l : ℤ) : List ℤ :=
  if l = M.entryLabel then [l, l + 1]
  else if l = M.exitLabel then [l]
  else (M.labelToInstruction.find? l).elim [] (instructionLeads l)

variable (h : u.BuiltFrom M exitLabels)
include h

theorem getEdgeOfType_call {l : ℤ} {v : Variable} {intra inter : ℤ}
    (hi : M.labelToInstruction.find? l = some (.callInstruction v intra inter)) :
    u.graph.getInterproceduralCallEdge l =
        .ok { sourceLabel := l, targetLabel := inter, type := .interproceduralCall } ∧
      u.graph.getIntraproceduralCallToReturnEdge l =
        .ok { sourceLabel := l, targetLabel := intra, type := .intraproceduralCallToReturn } := by
  unfold Cfg.getInterproceduralCallEdge Cfg.getIntraproceduralCallToReturnEdge Cfg.getEdgeOfType
  rw [h.getOutgoingEdges_call hi]
  exact ⟨rfl, rfl⟩

theorem leadingAt_ok {l : ℤ} {v : Vertex} (hv : u.graph.labelToVertex.find? l = some v) :
    leadingAt u.graph v = .ok (leadingLabels M l) := by
  have hlt := h.closed.entry_lt_exit
  unfold leadingLabels
  rcases (h.graph.vertex_iff h.closed).mp hv with ⟨rfl, rfl⟩ | ⟨rfl, rfl⟩ | ⟨i, hi, hgoto, rfl⟩
  · rw [if_pos rfl]
    simp only [leadingAt, Cfg.getSucceedingLabels, h.getOutgoingEdges_entry, List.map_cons,
      List.map_nil]
  · rw [if_neg (ne_of_gt hlt), if_pos rfl]
    rfl
  · obtain ⟨hl, hl'⟩ := h.within hi
    rw [if_neg (ne_of_gt hl), if_neg (ne_of_lt hl'), hi]
    cases i with
    | assignmentInstruction _ _ _ => rfl
    | havocInstruction _ => rfl
    | gotoInstruction _ => cases hgoto
    | callInstruction w intra inter =>
      simp only [leadingAt, (h.getEdgeOfType_call hi).2, bind, Except.bind]
      rfl
    | ifInstruction c t x =>
      simp only [leadingAt, Cfg.getSucceedingLabels, h.getOutgoingEdges_if hi, List.map_cons,
        List.map_nil]
      rfl
    | whileInstruction c t x =>
      simp only [leadingAt, Cfg.getSucceedingLabels, h.getOutgoingEdges_while hi, List.map_cons,
        List.map_nil]
      rfl

/-- The leaders, by the vertices they are found at. -/
theorem leaders_ok : ∃ s, leaders u.graph = .ok s ∧ ∀ l, s.find? l = some () ↔
    ∃ q v, u.graph.labelToVertex.find? q = some v ∧
      ((l = q ∧ (u.graph.getPrecedingLabels q).length > 1) ∨ l ∈ leadingLabels M q) := by
  have hat : ∀ {q v}, u.graph.labelToVertex.find? q = some v → leadersAt u.graph v =
      .ok ((if (u.graph.getPrecedingLabels q).length > 1 then [q] else []) ++
        leadingLabels M q) := by
    intro q v hv
    unfold leadersAt
    rw [h.leadingAt_ok hv, h.label_eq hv]
    rfl
  have hinsert : ∀ (ls : List ℤ) (s : OrderedMap ℤ Unit) l,
      (ls.foldl (fun s l => s.emplace l ()) s).find? l = some () ↔
        l ∈ ls ∨ s.find? l = some () := by
    intro ls
    induction ls with
    | nil => simp
    | cons q ls ih =>
      intro s l
      rw [List.foldl_cons, ih, OrderedMap.find?_emplace, List.mem_cons]
      by_cases hl : l = q
      · cases hs : s.find? q <;> simp [hl, hs]
      · simp [hl]
  have hfold : ∀ (entries : List (ℤ × Vertex)) (s : OrderedMap ℤ Unit),
      (∀ e ∈ entries, u.graph.labelToVertex.find? e.1 = some e.2) →
      ∃ s', (entries.map Prod.snd).foldlM (fun s v => do
          let ls ← leadersAt u.graph v
          .ok (ls.foldl (fun s l => s.emplace l ()) s)) s = Except.ok (ε := String) s' ∧
        ∀ l, s'.find? l = some () ↔ s.find? l = some () ∨ ∃ e ∈ entries,
          ((l = e.1 ∧ (u.graph.getPrecedingLabels e.1).length > 1) ∨
            l ∈ leadingLabels M e.1) := by
    intro entries
    induction entries with
    | nil => exact fun s _ => ⟨s, rfl, by simp⟩
    | cons e entries ih =>
      intro s hentries
      obtain ⟨s', hok, hs'⟩ := ih (((if (u.graph.getPrecedingLabels e.1).length > 1 then [e.1]
        else []) ++ leadingLabels M e.1).foldl (fun s l => s.emplace l ()) s)
        fun e he => hentries e (List.mem_cons_of_mem _ he)
      refine ⟨s', ?_, ?_⟩
      · rw [List.map_cons, List.foldlM_cons, hat (hentries e List.mem_cons_self)]
        exact hok
      · intro l
        rw [hs', hinsert]
        simp only [List.mem_append, List.mem_ite_nil_right, List.mem_cons, List.not_mem_nil,
          or_false, exists_eq_or_imp]
        rw [and_comm, or_comm (b := s.find? l = some ()), or_assoc]
  obtain ⟨s, hok, hs⟩ := hfold u.graph.labelToVertex.entries .empty fun e he =>
    (OrderedMap.find?_eq_some_iff _ _ _).mpr he
  refine ⟨s, hok, ?_⟩
  intro l
  rw [hs]
  simp only [OrderedMap.find?_empty, reduceCtorEq, false_or, Prod.exists,
    OrderedMap.find?_eq_some_iff]

variable {s : OrderedMap ℤ Unit} (hs : leaders u.graph = .ok s)
include hs

theorem leader_iff {l : ℤ} : s.find? l = some () ↔
    ∃ q v, u.graph.labelToVertex.find? q = some v ∧
      ((l = q ∧ (u.graph.getPrecedingLabels q).length > 1) ∨ l ∈ leadingLabels M q) := by
  obtain ⟨s', hok, hs'⟩ := h.leaders_ok
  rw [hs] at hok
  cases hok
  exact hs' l

theorem leader_vertex {l : ℤ} (hl : s.find? l = some ()) :
    ∃ v, u.graph.labelToVertex.find? l = some v := by
  obtain ⟨q, v, hv, ⟨rfl, -⟩ | hmem⟩ := (h.leader_iff hs).mp hl
  · exact ⟨v, hv⟩
  · unfold leadingLabels at hmem
    split_ifs at hmem with hentry hexit
    · simp only [List.mem_cons, List.not_mem_nil, or_false] at hmem
      rcases hmem with rfl | rfl
      · exact ⟨v, hv⟩
      · exact hentry ▸ h.vertex_first
    · rw [List.mem_singleton.mp hmem]
      exact ⟨v, hv⟩
    · cases hi : M.labelToInstruction.find? q with
      | none =>
        rw [hi] at hmem
        cases hmem
      | some i =>
        rw [hi] at hmem
        have hjump : l = q ∨ l ∈ i.jumps := by
          cases i <;> simp_all [instructionLeads, Instruction.jumps, Instruction.targets,
            Instruction.bodyEntry?]
          omega
        rcases hjump with rfl | hjump
        · exact ⟨v, hv⟩
        · exact h.vertex_of_jump hi hjump

theorem leader_entry : s.find? M.entryLabel = some () ∧ s.find? (M.entryLabel + 1) = some () := by
  constructor <;> refine (h.leader_iff hs).mpr ⟨_, _, h.vertex_entry, Or.inr ?_⟩ <;>
    unfold leadingLabels <;> rw [if_pos rfl] <;> simp

theorem leader_exit : s.find? M.exitLabel = some () := by
  have hlt := h.closed.entry_lt_exit
  refine (h.leader_iff hs).mpr ⟨_, _, h.vertex_exit, Or.inr ?_⟩
  unfold leadingLabels
  rw [if_neg (ne_of_gt hlt), if_pos rfl]
  exact List.mem_cons_self

theorem leader_of_instruction {l m : ℤ} {i : Instruction}
    (hi : M.labelToInstruction.find? l = some i) (hgoto : i.isGoto = false)
    (hl' : m ∈ instructionLeads l i) : s.find? m = some () := by
  obtain ⟨hl, hlt⟩ := h.within hi
  refine (h.leader_iff hs).mpr ⟨_, _, h.vertex_of_instruction hi hgoto, Or.inr ?_⟩
  unfold leadingLabels
  rw [if_neg (ne_of_gt hl), if_neg (ne_of_lt hlt), hi]
  exact hl'

theorem leader_of_edges {l : ℤ} {v : Vertex} (hv : u.graph.labelToVertex.find? l = some v)
    {e e' : Edge} (he : e ∈ u.graph.edges) (he' : e' ∈ u.graph.edges) (hl : e.targetLabel = l)
    (hl' : e'.targetLabel = l) (hne : e ≠ e') : s.find? l = some () := by
  refine (h.leader_iff hs).mpr ⟨l, v, hv, Or.inl ⟨rfl, ?_⟩⟩
  have hmem : e ∈ u.graph.getIncomingEdges l := List.mem_filter.mpr ⟨he, by simp [hl]⟩
  have hmem' : e' ∈ u.graph.getIncomingEdges l := List.mem_filter.mpr ⟨he', by simp [hl']⟩
  unfold Cfg.getPrecedingLabels
  rw [List.length_map]
  cases hin : u.graph.getIncomingEdges l with
  | nil =>
    rw [hin] at hmem
    cases hmem
  | cons a rest =>
    cases rest with
    | nil =>
      rw [hin] at hmem hmem'
      exact absurd ((List.mem_singleton.mp hmem).trans (List.mem_singleton.mp hmem').symm) hne
    | cons b rest => simp

end Leaders

/-- What a block goes on with behind a write. -/
inductive Extension (M : Module) (s : OrderedMap ℤ Unit) : ℤ → List ℤ → Prop
  | stop {l t : ℤ} : M.labelToInstruction.find? (l + 1) = some (.gotoInstruction t) →
      s.find? t = some () → Extension M s l []
  | last {l t : ℤ} {i : Instruction} :
      M.labelToInstruction.find? (l + 1) = some (.gotoInstruction t) → s.find? t = none →
      M.labelToInstruction.find? t = some i → i.isWrite = false → Extension M s l [t]
  | more {l t : ℤ} {i : Instruction} {rest : List ℤ} :
      M.labelToInstruction.find? (l + 1) = some (.gotoInstruction t) → s.find? t = none →
      M.labelToInstruction.find? t = some i → i.isWrite = true → Extension M s t rest →
      Extension M s l (t :: rest)

/-- The writes passed on the way through a block, the last one first. -/
inductive Walk (M : Module) (s : OrderedMap ℤ Unit) : List ℤ → Prop
  | start {l : ℤ} : s.find? l = some () → Walk M s [l]
  | step {l t : ℤ} {ls : List ℤ} : Walk M s (l :: ls) →
      M.labelToInstruction.find? (l + 1) = some (.gotoInstruction t) → s.find? t = none →
      Walk M s (t :: l :: ls)

section Extension

open BasicBlockPass

variable (h : u.BuiltFrom M exitLabels)
include h

theorem goto_edge {l t : ℤ}
    (hgoto : M.labelToInstruction.find? (l + 1) = some (.gotoInstruction t)) :
    { sourceLabel := l, targetLabel := t } ∈ u.graph.edges := by
  refine h.graph.mem_edges.mpr (Or.inr ⟨l + 1, _, hgoto, ?_⟩)
  simp [Builder.instructionEdges, Instruction.intraproceduralEdges]

theorem goto_vertex {l t : ℤ}
    (hgoto : M.labelToInstruction.find? (l + 1) = some (.gotoInstruction t)) :
    ∃ v, u.graph.labelToVertex.find? t = some v :=
  h.vertex_of_jump hgoto (by simp [Instruction.jumps, Instruction.targets])

variable {s : OrderedMap ℤ Unit} (hs : leaders u.graph = .ok s)
include hs

theorem goto_unique {l l' t : ℤ}
    (hgoto : M.labelToInstruction.find? (l + 1) = some (.gotoInstruction t))
    (hgoto' : M.labelToInstruction.find? (l' + 1) = some (.gotoInstruction t))
    (ht : s.find? t = none) : l = l' := by
  by_contra hne
  obtain ⟨v, hv⟩ := h.goto_vertex hgoto
  have hleader := h.leader_of_edges hs hv (h.goto_edge hgoto) (h.goto_edge hgoto') rfl rfl
    fun heq => hne (congrArg Edge.sourceLabel heq)
  rw [ht] at hleader
  cases hleader

/-- No label is passed twice. -/
theorem walk_nodup {ls : List ℤ} (hw : Walk M s ls) : ls.Nodup ∧
    (∀ t ∈ ls, s.find? t = none → ∃ pre a suf, ls = pre ++ t :: a :: suf ∧
      M.labelToInstruction.find? (a + 1) = some (.gotoInstruction t)) ∧
    ∀ t ∈ ls, ∃ v, u.graph.labelToVertex.find? t = some v := by
  induction hw with
  | @start l hl =>
    refine ⟨by simp, ?_, ?_⟩
    · intro t ht hnone
      rw [List.mem_singleton.mp ht, hl] at hnone
      cases hnone
    · intro t ht
      rw [List.mem_singleton.mp ht]
      exact h.leader_vertex hs hl
  | @step l t ls hw hgoto hnone ih =>
    obtain ⟨hnodup, hpred, hvertex⟩ := ih
    have hnotMem : t ∉ l :: ls := by
      intro hmem
      obtain ⟨pre, a, suf, heq, hgoto'⟩ := hpred t hmem hnone
      have ha : a = l := h.goto_unique hs hgoto' hgoto hnone
      subst ha
      rw [heq] at hnodup
      cases pre with
      | nil =>
        obtain ⟨rfl, -⟩ := List.cons.inj heq
        simp at hnodup
      | cons b pre =>
        obtain ⟨rfl, -⟩ := List.cons.inj heq
        simp at hnodup
    refine ⟨List.nodup_cons.mpr ⟨hnotMem, hnodup⟩, ?_, ?_⟩
    · intro q hq hq'
      rcases List.mem_cons.mp hq with rfl | hq
      · exact ⟨[], l, ls, rfl, hgoto⟩
      · obtain ⟨pre, a, suf, heq, hgoto'⟩ := hpred q hq hq'
        exact ⟨t :: pre, a, suf, by rw [heq]; rfl, hgoto'⟩
    · intro q hq
      rcases List.mem_cons.mp hq with rfl | hq
      · exact h.goto_vertex hgoto
      · exact hvertex q hq

theorem walk_length {ls : List ℤ} (hw : Walk M s ls) :
    ls.length ≤ u.graph.labelToVertex.entries.length := by
  obtain ⟨hnodup, -, hvertex⟩ := h.walk_nodup hs hw
  have hsub : ls ⊆ u.graph.labelToVertex.entries.map Prod.fst := by
    intro q hq
    obtain ⟨v, hv⟩ := hvertex q hq
    exact List.mem_map_of_mem (f := Prod.fst) ((OrderedMap.find?_eq_some_iff _ _ _).mp hv)
  have hle := hnodup.length_le_of_subset hsub
  rwa [List.length_map] at hle

theorem instruction_of_not_leader {l t : ℤ}
    (hgoto : M.labelToInstruction.find? (l + 1) = some (.gotoInstruction t))
    (ht : s.find? t = none) : ∃ i, M.labelToInstruction.find? t = some i ∧ i.isGoto = false ∧
      ∀ c a b, i ≠ .whileInstruction c a b := by
  rcases h.closed.jumps hgoto t (by simp [Instruction.jumps, Instruction.targets]) with
    rfl | ⟨i, hi, hng⟩
  · rw [h.leader_exit hs] at ht
    cases ht
  · refine ⟨i, hi, hng, ?_⟩
    rintro c a b rfl
    rw [h.leader_of_instruction hs hi hng (by simp [instructionLeads])] at ht
    cases ht

theorem extend_ok {fuel : ℕ} {l : ℤ} {ls : List ℤ} (hw : Walk M s (l :: ls)) {i : Instruction}
    (hi : M.labelToInstruction.find? l = some i) (hwrite : i.isWrite = true)
    (hfuel : u.graph.labelToVertex.entries.length + 1 ≤ ls.length + fuel) :
    ∃ rest, extend u.graph s fuel l = .ok rest ∧ Extension M s l rest := by
  induction fuel generalizing l ls i with
  | zero =>
    have := h.walk_length hs hw
    simp only [List.length_cons] at this
    omega
  | succ fuel ih =>
    obtain ⟨t, hgoto⟩ := h.closed.follows hi hwrite
    unfold extend
    simp only [Cfg.getSucceedingLabels, h.getOutgoingEdges_write hi hwrite hgoto, List.map_cons,
      List.map_nil]
    cases ht : s.find? t with
    | some _ => exact ⟨[], rfl, .stop hgoto ht⟩
    | none =>
      obtain ⟨j, hj, hng, hloop⟩ := h.instruction_of_not_leader hs hgoto ht
      have hvertex : u.graph.getVertex t = .ok { label := t, instruction := some j } := by
        unfold Cfg.getVertex
        rw [h.vertex_of_instruction hj hng]
      simp only [hvertex, bind, Except.bind]
      have hmore : j.isWrite = true → ∃ rest, extend u.graph s fuel t = .ok rest ∧
          Extension M s t rest := fun hwj => ih (hw.step hgoto ht) hj hwj (by
            simp only [List.length_cons]
            omega)
      cases j with
      | gotoInstruction _ => cases hng
      | whileInstruction c a b => exact absurd rfl (hloop c a b)
      | ifInstruction c a b => exact ⟨[t], rfl, .last hgoto ht hj rfl⟩
      | callInstruction v intra inter => exact ⟨[t], rfl, .last hgoto ht hj rfl⟩
      | assignmentInstruction type r e =>
        obtain ⟨rest, hok, hrest⟩ := hmore rfl
        exact ⟨t :: rest, by simp only [hok], .more hgoto ht hj rfl hrest⟩
      | havocInstruction r =>
        obtain ⟨rest, hok, hrest⟩ := hmore rfl
        exact ⟨t :: rest, by simp only [hok], .more hgoto ht hj rfl hrest⟩

end Extension

end CallUnit.BuiltFrom

end Ahorn
