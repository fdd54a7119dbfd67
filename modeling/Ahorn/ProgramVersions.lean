import Ahorn.ChangeAnnotations
import Ahorn.ProgramRuns
import Ahorn.SimulatorExecutor

set_option autoImplicit false

/-!
# The versions of a program

A program with change annotations stands for two programs, one with the old and one with the new
operands.
-/
namespace Ahorn

open Simulator (ShadowProcessingMode)

def Expression.version (mode : ShadowProcessingMode) : Expression → Expression
  | .unary op e => .unary op (e.version mode)
  | .binary op l r => .binary op (l.version mode) (r.version mode)
  | .change old new =>
    match mode with
    | .none => .change old new
    | .old => old.version mode
    | .new => new.version mode
  | .booleanToInteger e => .booleanToInteger (e.version mode)
  | .integerToBoolean e => .integerToBoolean (e.version mode)
  | e => e

def Instruction.version (mode : ShadowProcessingMode) : Instruction → Instruction
  | .assignmentInstruction type r e => .assignmentInstruction type r (e.version mode)
  | .ifInstruction e l₁ l₂ => .ifInstruction (e.version mode) l₁ l₂
  | .whileInstruction e l₁ l₂ => .whileInstruction (e.version mode) l₁ l₂
  | i => i

def Vertex.version (mode : ShadowProcessingMode) (v : Vertex) : Vertex :=
  { v with instruction := v.instruction.map (Instruction.version mode) }

def UnitCfg.version (mode : ShadowProcessingMode) (cfg : UnitCfg) : UnitCfg :=
  { cfg with labelToVertex := cfg.labelToVertex.mapValues (Vertex.version mode) }

/-- A version of a program. Instances are nested less deep than there are units. -/
def AnnotatedProgram.version (p : AnnotatedProgram) (mode : ShadowProcessingMode) : Etfa.Program where
  main := p.main.root.version mode
  getCfg name := (p.main.units.find? (·.name = name)).map fun u => u.graph.version mode
  nesting := p.main.units.length

section Units

variable {γ : Type}

mutual

theorem CallTree.exists_of_mem_units : (t : CallTree γ) → ∀ u ∈ t.units,
    ∃ t', t.Reaches t' ∧ t'.name = u.name ∧ t'.root = u.graph
  | .node name graph callees => by
    intro u hu
    rcases List.mem_append.mp hu with hu | hu
    · obtain ⟨callee, hcallee, t', ht', h⟩ := callees.exists_of_mem_units u hu
      exact ⟨t', .head hcallee ht', h⟩
    · rw [List.mem_singleton.mp hu]
      exact ⟨_, .refl, rfl, rfl⟩

theorem CallForest.exists_of_mem_units : (ts : CallForest γ) → ∀ u ∈ ts.units,
    ∃ callee ∈ ts.toList, ∃ t', callee.Reaches t' ∧ t'.name = u.name ∧ t'.root = u.graph
  | .nil => fun u hu => absurd hu List.not_mem_nil
  | .cons callee rest => by
    intro u hu
    rcases List.mem_append.mp hu with hu | hu
    · obtain ⟨t', ht', h⟩ := callee.exists_of_mem_units u hu
      exact ⟨callee, List.mem_cons_self, t', ht', h⟩
    · obtain ⟨other, hother, h⟩ := rest.exists_of_mem_units u hu
      exact ⟨other, List.mem_cons_of_mem _ hother, h⟩

end

theorem CallForest.units_subset {ts : CallForest γ} {t : CallTree γ} (h : t ∈ ts.toList) :
    t.units ⊆ ts.units := by
  cases ts with
  | nil => cases h
  | cons callee rest =>
    rcases List.mem_cons.mp h with rfl | h
    · exact List.subset_append_left _ _
    · exact List.subset_append_of_subset_right _ (units_subset h)

theorem CallTree.Reaches.units_subset {t t' : CallTree γ} (h : t.Reaches t') : t'.units ⊆ t.units := by
  induction h with
  | refl => exact List.Subset.refl _
  | @tail u callee _ hcallee ih =>
    refine List.Subset.trans ?_ ih
    cases u with
    | node name graph callees =>
      exact List.subset_append_of_subset_left _ (CallForest.units_subset hcallee)

theorem CallTree.mem_units (t : CallTree γ) : ∃ u ∈ t.units, u.name = t.name ∧ u.graph = t.root := by
  cases t with
  | node name graph callees =>
    exact ⟨_, List.mem_append_right _ List.mem_cons_self, rfl, rfl⟩

end Units

section Versions

variable {p : AnnotatedProgram} {mode : ShadowProcessingMode} {t : CallTree UnitCfg} {cfg : UnitCfg}
  {l : ℤ} {v : Vertex}

theorem AnnotatedProgram.getCfg_version (ht : p.main.Reaches t) :
    (p.version mode).getCfg t.name = some (t.root.version mode) := by
  obtain ⟨u, hu, hname, hgraph⟩ := t.mem_units
  have hfound : (p.main.units.find? (·.name = t.name)).isSome = true :=
    List.find?_isSome.mpr ⟨u, ht.units_subset hu, decide_eq_true hname⟩
  obtain ⟨u', hu'⟩ := Option.isSome_iff_exists.mp hfound
  have hname' : u'.name = t.name := by simpa using List.find?_some hu'
  obtain ⟨t', ht', hname'', hgraph'⟩ := p.main.exists_of_mem_units u' (List.mem_of_find?_eq_some hu')
  have heq := p.named ht' ht (hname''.trans hname')
  subst heq
  unfold version
  dsimp only
  rw [hu', Option.map_some, hgraph']

theorem UnitCfg.getVertex_version (h : cfg.getVertex l = .ok v) :
    (cfg.version mode).getVertex l = .ok (v.version mode) := by
  unfold Cfg.getVertex at h ⊢
  unfold UnitCfg.version
  dsimp only
  rw [OrderedMap.find?_mapValues]
  cases hfind : cfg.labelToVertex.find? l with
  | none =>
    rw [hfind] at h
    cases h
  | some v' =>
    rw [hfind] at h
    cases h
    rfl

theorem UnitCfg.getOnlySuccessor_version (h : cfg.getOnlySuccessor l = .ok v) :
    (cfg.version mode).getOnlySuccessor l = .ok (v.version mode) := by
  have hsame : (cfg.version mode).getSucceedingLabels l = cfg.getSucceedingLabels l := rfl
  unfold Cfg.getOnlySuccessor at h ⊢
  rw [hsame]
  cases hlabels : cfg.getSucceedingLabels l with
  | nil =>
    rw [hlabels] at h
    cases h
  | cons next labels =>
    rw [hlabels] at h
    cases labels with
    | nil => exact getVertex_version h
    | cons _ _ => cases h

theorem Simulator.Evaluator.evaluate_version {access : VariableReference → Except String Value}
    {σ : Valuation} (hacc : ∀ r v, access r = .ok v → v = σ r.getName) {e : Expression} {w : Value}
    (h : Simulator.Evaluator.evaluate mode access e = .ok w) : w = (e.version mode).eval σ := by
  induction e generalizing w with
  | booleanConstant _ | integerConstant _ | timeConstant _ | enumeratedValue _ =>
    cases h
    rfl
  | nondeterministicConstant _ | booleanToInteger _ | integerToBoolean _ => cases h
  | reference r => exact hacc r w h
  | unary op e ih =>
    obtain ⟨u, hu, h⟩ := bind_eq_ok h
    rw [Ahorn.Evaluator.evaluateUnary_eq h, ih hu]
    rfl
  | binary op l r ihl ihr =>
    obtain ⟨u, hu, h⟩ := bind_eq_ok h
    obtain ⟨w', hw, h⟩ := bind_eq_ok h
    -- what the simulator evaluates, the evaluator of the symbolic engine evaluates alike
    have hsame : Ahorn.Evaluator.evaluateBinary op u w' = .ok w := by
      cases op <;> cases u <;> cases w' <;> cases h <;> rfl
    rw [Ahorn.Evaluator.evaluateBinary_eq hsame, ihl hu, ihr hw]
    rfl
  | change old new ihold ihnew =>
    cases mode with
    | none => cases h
    | old => exact ihold h
    | new => exact ihnew h

end Versions

end Ahorn
