import Mathlib.Data.Finset.Basic
import Ahorn.EtfaTestSuite
import Ahorn.ShadowSimulation

set_option autoImplicit false

/-!
# Change annotations

A patched program has change expressions in the places where its versions differ. The pass collects
the labels of the instructions with such expressions, in a unit and in the units it calls.
-/
namespace Ahorn

/-- A program with change annotations. At the entry and the exit of a unit no instruction is
executed, only branches have sides, and the inputs of the program are among its flattened
variables. -/
structure AnnotatedProgram extends ShadowProgram where
  rootName : ∀ {t : CallTree UnitCfg}, main.Reaches t → t.root.name = t.name
  entryVertex : ∀ {t : CallTree UnitCfg} {v : Vertex}, main.Reaches t →
    t.root.labelToVertex.find? t.root.entryLabel = some v → v.type = .entry
  exitVertex : ∀ {t : CallTree UnitCfg} {v : Vertex}, main.Reaches t →
    t.root.labelToVertex.find? t.root.exitLabel = some v → v.type = .exit
  sides : ∀ {t : CallTree UnitCfg} {e : Edge}, main.Reaches t → e ∈ t.root.edges →
    e.type = .trueBranch ∨ e.type = .falseBranch →
      ∃ v, t.root.labelToVertex.find? e.sourceLabel = some v ∧ v.IsBranch
  inputs : ∀ x ∈ Etfa.UnitCfg.inputVariables main.root, x ∈ main.root.flattenedInterface.keys

namespace ChangeAnnotationCollectionPass

/-- Whether an expression has a change expression in it. The operands of a change expression are not
visited. -/
def visit : Expression → Except String Bool
  | .binary _ l r => do
    let right ← visit r
    let left ← visit l
    .ok (right || left)
  | .unary _ e => visit e
  | .change _ _ => .ok true
  | .booleanConstant _ | .integerConstant _ | .timeConstant _ | .enumeratedValue _ | .reference _ =>
    .ok false
  | .nondeterministicConstant _ | .booleanToInteger _ | .integerToBoolean _ =>
    .error "Not implemented yet."

def containsChangeExpression : Instruction → Except String Bool
  | .assignmentInstruction _ _ e | .ifInstruction e _ _ => visit e
  | .callInstruction _ _ _ | .havocInstruction _ => .ok false
  | .whileInstruction _ _ _ | .gotoInstruction _ => .error "Not implemented yet."

def collectVertices (graph : UnitCfg) : List (ℤ × Vertex) → Finset ℤ → Except String (Finset ℤ)
  | [], labels => .ok labels
  | (label, vertex) :: vertices, labels =>
    if label = graph.entryLabel ∨ label = graph.exitLabel then collectVertices graph vertices labels
    else
      match vertex.instruction with
      | none => collectVertices graph vertices labels
      | some instruction => do
        let changed ← containsChangeExpression instruction
        collectVertices graph vertices (if changed then insert label labels else labels)

mutual

def apply (recurse : Bool) : CallTree UnitCfg → Except String (Finset ℤ)
  | .node _ graph callees => do
    let labels ← if recurse then applyCallees callees else .ok ∅
    collectVertices graph graph.labelToVertex.entries labels

def applyCallees : CallForest UnitCfg → Except String (Finset ℤ)
  | .nil => .ok ∅
  | .cons callee rest => do
    let labels ← apply true callee
    let others ← applyCallees rest
    .ok (labels ∪ others)

end

theorem collectVertices_spec {graph : UnitCfg} {vertices : List (ℤ × Vertex)}
    {labels labels' : Finset ℤ} (h : collectVertices graph vertices labels = .ok labels') :
    labels ⊆ labels' ∧ ∀ e ∈ vertices, e.1 ≠ graph.entryLabel → e.1 ≠ graph.exitLabel →
      ∀ i, e.2.instruction = some i → e.1 ∉ labels' → containsChangeExpression i = .ok false := by
  induction vertices generalizing labels with
  | nil =>
    cases h
    exact ⟨Finset.Subset.refl _, fun e he => absurd he List.not_mem_nil⟩
  | cons e vertices ih =>
    unfold collectVertices at h
    by_cases hlabel : e.1 = graph.entryLabel ∨ e.1 = graph.exitLabel
    · rw [if_pos hlabel] at h
      obtain ⟨hsubset, hrest⟩ := ih h
      refine ⟨hsubset, List.forall_mem_cons.mpr ⟨fun hentry hexit => ?_, hrest⟩⟩
      rcases hlabel with hl | hl
      · exact absurd hl hentry
      · exact absurd hl hexit
    · rw [if_neg hlabel] at h
      cases hi : e.2.instruction with
      | none =>
        rw [hi] at h
        obtain ⟨hsubset, hrest⟩ := ih h
        refine ⟨hsubset, List.forall_mem_cons.mpr ⟨fun _ _ i hi' => ?_, hrest⟩⟩
        rw [hi] at hi'
        cases hi'
      | some i =>
        rw [hi] at h
        obtain ⟨changed, hchanged, h⟩ := bind_eq_ok h
        obtain ⟨hsubset, hrest⟩ := ih h
        cases changed with
        | true =>
          rw [if_pos rfl] at hsubset
          refine ⟨(Finset.subset_insert _ _).trans hsubset,
            List.forall_mem_cons.mpr ⟨fun _ _ i' _ hnot => ?_, hrest⟩⟩
          exact absurd (hsubset (Finset.mem_insert_self _ _)) hnot
        | false =>
          rw [if_neg Bool.false_ne_true] at hsubset
          refine ⟨hsubset, List.forall_mem_cons.mpr ⟨fun _ _ i' hi' _ => ?_, hrest⟩⟩
          rw [hi] at hi'
          cases hi'
          exact hchanged

/-- An instruction whose label is not collected has no change expression. -/
def Collects (graph : UnitCfg) (labels : Finset ℤ) : Prop :=
  ∀ l v i, graph.labelToVertex.find? l = some v → l ≠ graph.entryLabel → l ≠ graph.exitLabel →
    v.instruction = some i → l ∉ labels → containsChangeExpression i = .ok false

theorem Collects.mono {graph : UnitCfg} {labels labels' : Finset ℤ} (h : Collects graph labels)
    (hsubset : labels ⊆ labels') : Collects graph labels' := by
  intro l v i hl hentry hexit hi hnot
  exact h l v i hl hentry hexit hi fun hmem => hnot (hsubset hmem)

theorem applyCallees_spec {callees : CallForest UnitCfg} {labels : Finset ℤ}
    (h : applyCallees callees = .ok labels) :
    ∀ t ∈ callees.toList, ∃ labels', apply true t = .ok labels' ∧ labels' ⊆ labels := by
  cases callees with
  | nil => exact fun t ht => absurd ht List.not_mem_nil
  | cons callee rest =>
    unfold applyCallees at h
    obtain ⟨first, hfirst, h⟩ := bind_eq_ok h
    obtain ⟨others, hothers, h⟩ := bind_eq_ok h
    cases h
    refine List.forall_mem_cons.mpr ⟨⟨first, hfirst, Finset.subset_union_left⟩, fun t ht => ?_⟩
    obtain ⟨labels', hlabels', hsubset⟩ := applyCallees_spec hothers t ht
    exact ⟨labels', hlabels', hsubset.trans Finset.subset_union_right⟩

theorem apply_spec {t : CallTree UnitCfg} {labels : Finset ℤ} (h : apply true t = .ok labels) :
    Collects t.root labels ∧
      ∀ callee ∈ t.callees, ∃ labels', apply true callee = .ok labels' ∧ labels' ⊆ labels := by
  cases t with
  | node name graph callees =>
    unfold apply at h
    obtain ⟨labels₁, hcallees, h⟩ := bind_eq_ok h
    obtain ⟨hsubset, hvertices⟩ := collectVertices_spec h
    constructor
    · intro l v i hl hentry hexit hi hnot
      exact hvertices (l, v) ((graph.labelToVertex.find?_eq_some_iff l v).mp hl) hentry hexit i hi hnot
    · intro callee hcallee
      obtain ⟨labels', hlabels', hsubset'⟩ := applyCallees_spec hcallees callee hcallee
      exact ⟨labels', hlabels', hsubset'.trans hsubset⟩

theorem collects_of_reaches {main t : CallTree UnitCfg} {labels : Finset ℤ}
    (h : apply true main = .ok labels) (ht : main.Reaches t) :
    ∃ labels', apply true t = .ok labels' ∧ labels' ⊆ labels := by
  induction ht with
  | refl => exact ⟨labels, h, Finset.Subset.refl _⟩
  | tail _ hcallee ih =>
    obtain ⟨labels₁, h₁, hsubset⟩ := ih
    obtain ⟨labels₂, h₂, hsubset'⟩ := (apply_spec h₁).2 _ hcallee
    exact ⟨labels₂, h₂, hsubset'.trans hsubset⟩

theorem apply_collects {main t : CallTree UnitCfg} {labels : Finset ℤ}
    (h : apply true main = .ok labels) (ht : main.Reaches t) : Collects t.root labels := by
  obtain ⟨labels', h', hsubset⟩ := collects_of_reaches h ht
  exact (apply_spec h').1.mono hsubset

end ChangeAnnotationCollectionPass

namespace AnnotatedProgram

/-- No instruction of the program assigns a random value. -/
def HavocFree (p : AnnotatedProgram) : Prop :=
  ∀ t l v r, p.main.Reaches t → t.root.labelToVertex.find? l = some v →
    v.instruction ≠ some (.havocInstruction r)

theorem containsChangeExpression_eq_false (p : AnnotatedProgram) {labels : Finset ℤ}
    (h : ChangeAnnotationCollectionPass.apply true p.main = .ok labels) {t : CallTree UnitCfg}
    (ht : p.main.Reaches t) {l : ℤ} {v : Vertex} {i : Instruction}
    (hv : t.root.labelToVertex.find? l = some v) (htype : v.type = .regular)
    (hi : v.instruction = some i) (hl : l ∉ labels) :
    ChangeAnnotationCollectionPass.containsChangeExpression i = .ok false := by
  refine ChangeAnnotationCollectionPass.apply_collects h ht l v i hv ?_ ?_ hi hl
  · rintro rfl
    rw [p.entryVertex ht hv] at htype
    cases htype
  · rintro rfl
    rw [p.exitVertex ht hv] at htype
    cases htype

end AnnotatedProgram

namespace GuardedChange

def a : Variable := ⟨"a", .bool, .input, none⟩

def b : Variable := ⟨"b", .bool, .input, none⟩

def x : Variable := ⟨"x", .bool, .local, none⟩

def read (v : Variable) : Expression := .reference (.variableAccess v)

def changed : Instruction :=
  .assignmentInstruction .regular (.variableAccess x) (.change (read b) (.unary .complement (read b)))

/-- IF a THEN x := change(b, NOT b); END_IF; -/
def main : UnitCfg where
  labelToVertex := ⟨[
    (0, ⟨0, .entry, none⟩),
    (1, ⟨1, .regular, some (.ifInstruction (read a) 2 3)⟩),
    (2, ⟨2, .regular, some changed⟩),
    (3, ⟨3, .exit, none⟩)], by decide⟩
  edges := [
    { sourceLabel := 0, targetLabel := 1 },
    { sourceLabel := 1, targetLabel := 2, type := .trueBranch },
    { sourceLabel := 1, targetLabel := 3, type := .falseBranch },
    { sourceLabel := 2, targetLabel := 3 }]
  entryLabel := 0
  exitLabel := 3
  type := .program
  name := "P"
  interface := [a, b, x]
  flattenedInterface := ⟨[("P.a", a), ("P.b", b), ("P.x", x)], by decide⟩

def tree : CallTree UnitCfg := .node "P" main .nil

theorem eq_tree {t : CallTree UnitCfg} (h : tree.Reaches t) : t = tree := by
  induction h with
  | refl => rfl
  | tail _ hcallee ih =>
    rw [ih] at hcallee
    cases hcallee

theorem main_executable : ∀ e ∈ main.labelToVertex.entries, e.2.label = e.1 ∧ e.2.Executable := by
  have hboundary : ∀ v : Vertex, v.type ≠ .regular → v.Executable := fun _ h h' => absurd h' h
  have hif : ∀ e n n' l, Instruction.ifInstruction e n n' ≠ .gotoInstruction l := by
    intro e n n' l h
    cases h
  have hchanged : ∀ l, changed ≠ .gotoInstruction l := by
    intro l h
    cases h
  simp only [main, List.forall_mem_cons, List.not_mem_nil, false_implies, implies_true, and_true]
  exact ⟨⟨trivial, hboundary _ (by decide)⟩, ⟨trivial, fun _ => ⟨_, rfl, hif _ _ _⟩⟩,
    ⟨trivial, fun _ => ⟨_, rfl, hchanged⟩⟩, ⟨trivial, hboundary _ (by decide)⟩⟩

theorem main_sides {e : Edge} (he : e ∈ main.edges) {v : Vertex}
    (hv : main.labelToVertex.find? e.sourceLabel = some v) :
    v.IsBranch ↔ e.type = .trueBranch ∨ e.type = .falseBranch := by
  simp only [main, List.mem_cons, List.not_mem_nil, or_false] at he
  rcases he with rfl | rfl | rfl | rfl <;> rw [← Option.some.inj hv]
  · exact ⟨fun h => absurd h.1 (by decide), fun h => absurd h (by decide)⟩
  · exact ⟨fun _ => Or.inl rfl, fun _ => ⟨rfl, _, _, _, Or.inl rfl⟩⟩
  · exact ⟨fun _ => Or.inr rfl, fun _ => ⟨rfl, _, _, _, Or.inl rfl⟩⟩
  · refine ⟨fun h => ?_, fun h => absurd h (by decide)⟩
    obtain ⟨-, e, l₁, l₂, h | h⟩ := h <;> cases h

def program : AnnotatedProgram where
  main := tree
  named ht hu _ := (eq_tree ht).trans (eq_tree hu).symm
  labelled ht hu _ _ := (eq_tree ht).trans (eq_tree hu).symm
  executable ht hv := by
    rw [eq_tree ht] at hv
    exact main_executable _ ((OrderedMap.find?_eq_some_iff _ _ _).mp hv)
  branching ht hv hbranch he := by
    rw [eq_tree ht] at hv he
    exact (main_sides he hv).mp hbranch
  rootName ht := by
    rw [eq_tree ht]
    rfl
  entryVertex ht hv := by
    rw [eq_tree ht] at hv
    rw [← Option.some.inj hv]
  exitVertex ht hv := by
    rw [eq_tree ht] at hv
    rw [← Option.some.inj hv]
  sides ht he htype := by
    rw [eq_tree ht] at he ⊢
    have hsource : ∀ e ∈ main.edges, ∃ v, main.labelToVertex.find? e.sourceLabel = some v := by
      simp only [main, List.forall_mem_cons, List.not_mem_nil, false_implies, implies_true, and_true]
      exact ⟨⟨_, rfl⟩, ⟨_, rfl⟩, ⟨_, rfl⟩, ⟨_, rfl⟩⟩
    obtain ⟨v, hv⟩ := hsource _ he
    exact ⟨v, hv, (main_sides he hv).mpr htype⟩
  inputs := by decide

theorem havocFree : program.HavocFree := by
  intro t l v r ht hv hi
  rw [eq_tree ht] at hv
  have hmem := (OrderedMap.find?_eq_some_iff _ _ _).mp hv
  simp only [tree, CallTree.root, main, List.mem_cons, Prod.mk.injEq, List.not_mem_nil, or_false]
    at hmem
  rcases hmem with ⟨-, rfl⟩ | ⟨-, rfl⟩ | ⟨-, rfl⟩ | ⟨-, rfl⟩ <;> cases hi

def inputs (a b : Bool) : OrderedMap ℕ (OrderedMap String Value) :=
  ⟨[(0, ⟨[("P.a", .bool a), ("P.b", .bool b)], List.pairwise_pair.mpr (show "P.a" < "P.b" by decide)⟩)],
    List.pairwise_singleton _ _⟩

/-- The condition holds, and the change is executed. -/
def touching : Etfa.TestCase := ⟨⟨[("P.x", .bool true)], by decide⟩, inputs true true⟩

def passing : Etfa.TestCase := ⟨⟨[("P.x", .bool true)], by decide⟩, inputs false true⟩

end GuardedChange

end Ahorn
