import Ahorn.BuiltGraphs
import Ahorn.CallTrees

set_option autoImplicit false

/-!
# The graphs of a project as a tree

Each unit has the graph of a closed module, and calls only its callees, which have labels of their
own.
-/
namespace Ahorn

/-- The unit has the graph that the builder makes of the module. -/
structure CallUnit.BuiltFrom (u : CallUnit Cfg) (M : Module) (exitLabels : String → Option ℤ) :
    Prop where
  closed : M.Closed
  graph : u.graph.BuiltFrom M exitLabels u.name
  calls : ∀ l v intra inter,
    M.labelToInstruction.find? l = some (.callInstruction v intra inter) →
    ∃ callee ∈ u.callees, callee.entryLabel = inter ∧
      Builder.exitLabelOf exitLabels v = some callee.exitLabel
  apart : ∀ callee ∈ u.callees, callee.entryLabel < callee.exitLabel ∧
    (callee.exitLabel < M.entryLabel ∨ M.exitLabel < callee.entryLabel)

def CallUnit.Built (u : CallUnit Cfg) : Prop := ∃ M exitLabels, u.BuiltFrom M exitLabels

def CallTree.Built (t : CallTree Cfg) : Prop := ∀ u ∈ t.units, u.Built

/-- The label of a vertex of the unit, or the entry or exit of one of its callees. -/
def CallUnit.IsPlace (u : CallUnit Cfg) (l : ℤ) : Prop :=
  (∃ v, u.graph.labelToVertex.find? l = some v) ∨
    ∃ callee ∈ u.callees, l = callee.entryLabel ∨ l = callee.exitLabel

namespace CallUnit.BuiltFrom

variable {u : CallUnit Cfg} {M : Module} {exitLabels : String → Option ℤ}

theorem vertex_of_instruction (h : u.BuiltFrom M exitLabels) {l : ℤ} {i : Instruction}
    (hi : M.labelToInstruction.find? l = some i) (hgoto : i.isGoto = false) :
    u.graph.labelToVertex.find? l = some { label := l, instruction := some i } :=
  (h.graph.vertex_iff h.closed).mpr (Or.inr (Or.inr ⟨i, hi, hgoto, rfl⟩))

theorem vertex_of_jump (h : u.BuiltFrom M exitLabels) {l t : ℤ} {i : Instruction}
    (hi : M.labelToInstruction.find? l = some i) (ht : t ∈ i.jumps) :
    ∃ v, u.graph.labelToVertex.find? t = some v := by
  rcases h.closed.jumps hi t ht with rfl | ⟨j, hj, hgoto⟩
  · exact ⟨_, (h.graph.vertex_iff h.closed).mpr (Or.inr (Or.inl ⟨rfl, rfl⟩))⟩
  · exact ⟨_, h.vertex_of_instruction hj hgoto⟩

theorem label_eq (h : u.BuiltFrom M exitLabels) {l : ℤ} {v : Vertex}
    (hv : u.graph.labelToVertex.find? l = some v) : v.label = l := by
  rcases (h.graph.vertex_iff h.closed).mp hv with ⟨-, rfl⟩ | ⟨-, rfl⟩ | ⟨i, -, -, rfl⟩ <;> rfl

theorem vertex_entry (h : u.BuiltFrom M exitLabels) :
    u.graph.labelToVertex.find? M.entryLabel = some { label := M.entryLabel, type := .entry } :=
  (h.graph.vertex_iff h.closed).mpr (Or.inl ⟨rfl, rfl⟩)

theorem vertex_exit (h : u.BuiltFrom M exitLabels) :
    u.graph.labelToVertex.find? M.exitLabel = some { label := M.exitLabel, type := .exit } :=
  (h.graph.vertex_iff h.closed).mpr (Or.inr (Or.inl ⟨rfl, rfl⟩))

theorem vertex_first (h : u.BuiltFrom M exitLabels) :
    ∃ v, u.graph.labelToVertex.find? (M.entryLabel + 1) = some v := by
  have hlt := h.closed.entry_lt_exit
  by_cases hexit : M.entryLabel + 1 = M.exitLabel
  · exact ⟨_, hexit ▸ h.vertex_exit⟩
  · obtain ⟨i, hi⟩ := (h.closed.instructions (M.entryLabel + 1)).mpr ⟨by omega, by omega⟩
    cases hgoto : i.isGoto with
    | false => exact ⟨_, h.vertex_of_instruction hi hgoto⟩
    | true =>
      cases i <;> simp only [Instruction.isGoto, Bool.false_eq_true] at hgoto
      obtain ⟨j, hj, -⟩ := h.closed.preceded hi
      have := (h.closed.instructions _).mp ⟨j, hj⟩
      omega

/-- The edges of a unit, by what they are made of. -/
theorem edge_cases (h : u.BuiltFrom M exitLabels) {e : Edge} (he : e ∈ u.graph.edges) :
    e = { sourceLabel := M.entryLabel, targetLabel := M.entryLabel + 1 } ∨
    (∃ l i t, M.labelToInstruction.find? l = some i ∧ i.isWrite = true ∧
      M.labelToInstruction.find? (l + 1) = some (.gotoInstruction t) ∧
      e = { sourceLabel := l, targetLabel := t }) ∨
    (∃ l c t x, (M.labelToInstruction.find? l = some (.ifInstruction c t x) ∨
        M.labelToInstruction.find? l = some (.whileInstruction c t x)) ∧
      (e = { sourceLabel := l, targetLabel := t, type := .trueBranch } ∨
        e = { sourceLabel := l, targetLabel := x, type := .falseBranch })) ∨
    ∃ l v intra inter, ∃ callee ∈ u.callees,
      M.labelToInstruction.find? l = some (.callInstruction v intra inter) ∧
      callee.entryLabel = inter ∧ e ∈ callEdges u.name l callee.exitLabel intra inter := by
  rcases h.graph.mem_edges.mp he with rfl | ⟨l, i, hi, he⟩
  · exact Or.inl rfl
  · cases i with
    | assignmentInstruction _ _ _ => cases he
    | havocInstruction _ => cases he
    | gotoInstruction t =>
      obtain ⟨j, hj, hwrite⟩ := h.closed.preceded hi
      refine Or.inr (Or.inl ⟨l - 1, j, t, hj, hwrite, ?_, List.mem_singleton.mp he⟩)
      rw [sub_add_cancel]
      exact hi
    | ifInstruction c t x =>
      refine Or.inr (Or.inr (Or.inl ⟨l, c, t, x, Or.inl hi, ?_⟩))
      simpa [Builder.instructionEdges, Instruction.intraproceduralEdges] using he
    | whileInstruction c t x =>
      refine Or.inr (Or.inr (Or.inl ⟨l, c, t, x, Or.inr hi, ?_⟩))
      simpa [Builder.instructionEdges, Instruction.intraproceduralEdges] using he
    | callInstruction v intra inter =>
      obtain ⟨callee, hcallee, hentry, hexit⟩ := h.calls l v intra inter hi
      refine Or.inr (Or.inr (Or.inr ⟨l, v, intra, inter, callee, hcallee, hi, hentry, ?_⟩))
      simpa only [Builder.instructionEdges, hexit, Option.getD_some] using he

theorem edge_places (h : u.BuiltFrom M exitLabels) {e : Edge} (he : e ∈ u.graph.edges) :
    u.IsPlace e.sourceLabel ∧ u.IsPlace e.targetLabel := by
  have hvertex : ∀ {l : ℤ} {i : Instruction}, M.labelToInstruction.find? l = some i →
      i.isGoto = false → u.IsPlace l := fun hi hgoto =>
    Or.inl ⟨_, h.vertex_of_instruction hi hgoto⟩
  have hjump : ∀ {l t : ℤ} {i : Instruction}, M.labelToInstruction.find? l = some i →
      t ∈ i.jumps → u.IsPlace t := fun hi ht => Or.inl (h.vertex_of_jump hi ht)
  rcases h.edge_cases he with rfl | ⟨l, i, t, hi, hwrite, hgoto, rfl⟩ | ⟨l, c, t, x, hi, he⟩ |
    ⟨l, v, intra, inter, callee, hcallee, hi, hentry, he⟩
  · exact ⟨Or.inl ⟨_, h.vertex_entry⟩, Or.inl h.vertex_first⟩
  · refine ⟨hvertex hi ?_, hjump hgoto List.mem_cons_self⟩
    cases i <;> first | rfl | cases hwrite
  · rcases hi with hi | hi <;> rcases he with rfl | rfl <;>
      exact ⟨hvertex hi rfl,
        hjump hi (by simp [Instruction.jumps, Instruction.targets, Instruction.bodyEntry?])⟩
  · have hintra : u.IsPlace intra :=
      hjump hi (by simp [Instruction.jumps, Instruction.targets])
    simp only [callEdges, List.mem_cons, List.not_mem_nil, or_false] at he
    rcases he with rfl | rfl | rfl
    · exact ⟨hvertex hi rfl, Or.inr ⟨callee, hcallee, Or.inl hentry.symm⟩⟩
    · exact ⟨hvertex hi rfl, hintra⟩
    · exact ⟨Or.inr ⟨callee, hcallee, Or.inr rfl⟩, hintra⟩

end CallUnit.BuiltFrom

end Ahorn
