import Ahorn.EtfaEngine

set_option autoImplicit false

/-!
# What holds of every context

The valuations of a context are a system of definitions without cycles; every flattened variable
has a current version with a valuation of its sort; and no version of the current cycle exceeds the
one the executor remembers, so the next version of the executor is fresh in every context.
-/
namespace Ahorn.Etfa

def Program.sortOf (p : Program) (flattenedName : String) : Option SmtSort :=
  (p.main.flattenedInterface.find? flattenedName).bind fun v => v.dataType.sort.toOption

/-- The units of a program under the scopes they are called in. -/
inductive Program.Instance (p : Program) : String → UnitCfg → Prop where
  | main : Instance p p.main.name p.main
  | called {scope typeName : String} {cfg callee : UnitCfg} {l t₁ t₂ : ℤ} {v : Vertex}
      {f : Variable} : Instance p scope cfg → cfg.labelToVertex.find? l = some v →
      v.instruction = some (.callInstruction f t₁ t₂) → f.dataType = .derivedType typeName →
      p.getCfg typeName = some callee → Instance p (scope ++ "." ++ f.name) callee

/-- A reference resolves to a flattened variable of the sort of its own variable. -/
def Program.Resolves (p : Program) (scope : String) (r : VariableReference) : Prop :=
  ∃ s, p.sortOf (scope ++ "." ++ r.getName) = some s ∧ r.getVariable.dataType.sort = .ok s

/-- The references of an instruction resolve, and an assignment keeps the sort. -/
def Program.Sorted (p : Program) (scope : String) : Instruction → Prop
  | .assignmentInstruction _ r e =>
    (∀ q ∈ e.references, p.Resolves scope q) ∧
      p.sortOf (scope ++ "." ++ r.getName) = some (e.sort .rejected)
  | .ifInstruction e _ _ => ∀ q ∈ e.references, p.Resolves scope q
  | _ => True

/-- The instructions of every instance are sorted, and so are the initial values. -/
structure Program.WellSorted (p : Program) : Prop where
  sorted : ∀ {scope cfg}, p.Instance scope cfg → ∀ {l v i}, cfg.labelToVertex.find? l = some v →
    v.instruction = some i → p.Sorted scope i
  encodable : ∀ {x v}, p.main.flattenedInterface.find? x = some v →
    ∃ s, v.dataType.sort = .ok s ∧ ∀ value, v.initialization = some value →
      (Engine.makeValue value).1 = s

/-- A program as the compiler hands it over: well sorted, with its exit behind all its joins. -/
structure Program.WellFormed (p : Program) : Prop extends p.WellSorted where
  type : p.main.type = .program
  labels : ∀ {l v}, p.main.labelToVertex.find? l = some v →
    v.label = l ∧ (v.type = .exit → l = p.main.exitLabel)
  exitLast : ∀ {l v}, p.main.labelToVertex.find? l = some v → Merger.joins p.main.toCfg l = true →
    l ≤ p.main.exitLabel

theorem Program.WellSorted.sortOf_entry {p : Program} (hp : p.WellSorted) {x : String} {v : Variable}
    (hx : (x, v) ∈ p.main.flattenedInterface.entries) :
    ∃ s, v.dataType.sort = .ok s ∧ p.sortOf x = some s := by
  have hx := (OrderedMap.find?_eq_some_iff _ _ _).mpr hx
  obtain ⟨s, hs, -⟩ := hp.encodable hx
  refine ⟨s, hs, ?_⟩
  rw [Program.sortOf, hx, Option.bind_some, hs]
  rfl

theorem Program.entry_of_sortOf {p : Program} {x : String} {s : SmtSort} (hx : p.sortOf x = some s) :
    ∃ v, (x, v) ∈ p.main.flattenedInterface.entries := by
  obtain ⟨v, hv, -⟩ := Option.bind_eq_some_iff.mp hx
  exact ⟨v, (OrderedMap.find?_eq_some_iff _ _ _).mp hv⟩

/-- The call stacks of a program. -/
inductive Program.Stack (p : Program) : List Frame → Prop where
  | main : Stack p [⟨p.main, p.main.name, p.main.entryLabel⟩]
  | call {frame : Frame} {frames : List Frame} :
      p.Instance frame.scope frame.cfg → Stack p frames → Stack p (frame :: frames)

theorem Program.Stack.instance_of_head {p : Program} {frame : Frame} {frames : List Frame}
    (h : p.Stack (frame :: frames)) : p.Instance frame.scope frame.cfg := by
  cases h with
  | main => exact .main
  | call h _ => exact h

theorem Program.Stack.of_length_one {p : Program} {frames : List Frame} (h : p.Stack frames)
    (hl : frames.length = 1) : frames = [⟨p.main, p.main.name, p.main.entryLabel⟩] := by
  cases h with
  | main => rfl
  | call _ h => cases h <;> simp at hl

/-- The vertex of the context is one of its current unit. -/
def Context.AtVertex (c : Context) : Prop :=
  ∀ frame frames, c.callStack = frame :: frames →
    ∃ l, frame.cfg.labelToVertex.find? l = some c.state.vertex

/-- The valuations are definitions without cycles, and every flattened variable has a current version
with a valuation of its sort. -/
structure Context.WellDefined (p : Program) (c : Context) : Prop where
  acyclic : c.definitions.Acyclic
  closed : ∀ t ∈ c.state.pathConstraint, c.definitions.Closed t
  current : ∀ {x s}, p.sortOf x = some s → ∃ v, c.state.flattenedNameToVersion.find? x = some v ∧
    ∃ t, c.definitions (contextualized x v c.cycle) = some ⟨s, t⟩
  declared : ∀ {x v}, c.state.flattenedNameToVersion.find? x = some v → ∃ s, p.sortOf x = some s

/-- What holds of a context in a cycle, under the versions of the executor. -/
structure Context.Invariant (p : Program) (versions : Versions) (k : ℕ) (c : Context) :
    Prop where
  cycle : c.cycle = k
  acyclic : c.definitions.Acyclic
  closed : ∀ t ∈ c.state.pathConstraint, c.definitions.Closed t
  current : ∀ {x s}, p.sortOf x = some s → ∃ v, c.state.flattenedNameToVersion.find? x = some v ∧
    ∃ t, c.definitions (contextualized x v k) = some ⟨s, t⟩
  declared : ∀ {x v}, c.state.flattenedNameToVersion.find? x = some v → ∃ s, p.sortOf x = some s
  bounded : ∀ {x v d e}, c.definitions (contextualized x v d) = some e →
    d ≤ k ∧ (d = k → ∃ w, versions.find? x = some w ∧ v ≤ w)

/-- The part of the invariant that concerns the control flow. -/
structure Context.Placed (p : Program) (c : Context) : Prop where
  stack : p.Stack c.callStack
  atVertex : c.AtVertex

/-- Versions only grow within a cycle. -/
def Versions.Le (versions versions' : Versions) : Prop :=
  ∀ x v, versions.find? x = some v → ∃ v', versions'.find? x = some v' ∧ v ≤ v'

theorem Versions.Le.refl (versions : Versions) : versions.Le versions :=
  fun _ v h => ⟨v, h, le_rfl⟩

theorem Versions.Le.trans {versions₁ versions₂ versions₃ : Versions} (h : versions₁.Le versions₂)
    (h' : versions₂.Le versions₃) : versions₁.Le versions₃ := by
  intro x v hv
  obtain ⟨v', hv', hle⟩ := h x v hv
  obtain ⟨v'', hv'', hle'⟩ := h' x v' hv'
  exact ⟨v'', hv'', hle.trans hle'⟩

theorem Versions.Le.assign {versions : Versions} {x : String} {v w : ℕ}
    (h : versions.find? x = some v) (hle : v ≤ w) : versions.Le (versions.assign x w) := by
  intro y u hu
  rw [OrderedMap.find?_assign]
  split_ifs with hxy
  · subst hxy
    rw [h] at hu
    cases hu
    exact ⟨w, rfl, hle⟩
  · exact ⟨u, hu, le_rfl⟩

namespace Context

variable {p : Program} {versions versions' : Versions} {k : ℕ} {c c' : Context}

theorem Invariant.mono (h : c.Invariant p versions k) (hle : versions.Le versions') :
    c.Invariant p versions' k where
  cycle := h.cycle
  acyclic := h.acyclic
  closed := h.closed
  current := h.current
  declared := h.declared
  bounded := by
    intro x v d e hd
    obtain ⟨hd, hv⟩ := h.bounded hd
    refine ⟨hd, fun heq => ?_⟩
    obtain ⟨w, hw, hvw⟩ := hv heq
    obtain ⟨w', hw', hww⟩ := hle x w hw
    exact ⟨w', hw', hvw.trans hww⟩

theorem WellDefined.of_eq (h : c.WellDefined p) (hcycle : c'.cycle = c.cycle)
    (hvaluations : c'.state.symbolicValuations = c.state.symbolicValuations)
    (hconstraint : ∀ t ∈ c'.state.pathConstraint, c.definitions.Closed t)
    (hversions : c'.state.flattenedNameToVersion = c.state.flattenedNameToVersion) :
    c'.WellDefined p := by
  have hdef : c'.definitions = c.definitions := congrArg OrderedMap.find? hvaluations
  refine ⟨hdef ▸ h.acyclic, hdef ▸ hconstraint, ?_, ?_⟩
  · intro x s hx
    rw [hversions, hdef, hcycle]
    exact h.current hx
  · intro x v hx
    rw [hversions] at hx
    exact h.declared hx

theorem WellDefined.currentVersion (h : c.WellDefined p) {x : String} {s : SmtSort} {v : ℕ}
    (hx : p.sortOf x = some s) (hv : c.state.flattenedNameToVersion.find? x = some v) :
    ∃ t, c.definitions (contextualized x v c.cycle) = some ⟨s, t⟩ := by
  obtain ⟨v', hv', ht⟩ := h.current hx
  rw [hv] at hv'
  cases hv'
  exact ht

theorem Invariant.wellDefined (h : c.Invariant p versions k) : c.WellDefined p where
  acyclic := h.acyclic
  closed := h.closed
  current := by
    rw [h.cycle]
    exact h.current
  declared := h.declared

theorem WellDefined.invariant (h : c.WellDefined p) (hcycle : c.cycle = k)
    (hbounded : ∀ {x v d e}, c.definitions (contextualized x v d) = some e →
      d ≤ k ∧ (d = k → ∃ w, versions.find? x = some w ∧ v ≤ w)) : c.Invariant p versions k where
  cycle := hcycle
  acyclic := h.acyclic
  closed := h.closed
  current := by
    rw [← hcycle]
    exact h.current
  declared := h.declared
  bounded := hbounded

theorem Invariant.of_eq (h : c.Invariant p versions k) (hcycle : c'.cycle = c.cycle)
    (hvaluations : c'.state.symbolicValuations = c.state.symbolicValuations)
    (hconstraint : ∀ t ∈ c'.state.pathConstraint, c.definitions.Closed t)
    (hversions : c'.state.flattenedNameToVersion = c.state.flattenedNameToVersion) :
    c'.Invariant p versions k := by
  apply (h.wellDefined.of_eq hcycle hvaluations hconstraint hversions).invariant
    (hcycle.trans h.cycle)
  intro x v d e hd
  have hdef : c'.definitions = c.definitions := congrArg OrderedMap.find? hvaluations
  rw [hdef] at hd
  exact h.bounded hd

theorem Invariant.currentVersion (h : c.Invariant p versions k) {x : String} {s : SmtSort}
    {v : ℕ} (hx : p.sortOf x = some s) (hv : c.state.flattenedNameToVersion.find? x = some v) :
    (∃ t, c.definitions (contextualized x v k) = some ⟨s, t⟩) ∧
      ∃ w, versions.find? x = some w ∧ v ≤ w := by
  obtain ⟨t, ht⟩ := h.wellDefined.currentVersion hx hv
  rw [h.cycle] at ht
  exact ⟨⟨t, ht⟩, (h.bounded ht).2 rfl⟩

theorem Invariant.fresh (h : c.Invariant p versions k) {x : String} {v w : ℕ}
    (hx : versions.find? x = some w) (hv : w < v) :
    c.definitions (contextualized x v k) = none := by
  cases hd : c.definitions (contextualized x v k) with
  | none => rfl
  | some e =>
    obtain ⟨w', hw', hle⟩ := (h.bounded hd).2 rfl
    rw [hx] at hw'
    cases hw'
    omega

end Context

end Ahorn.Etfa
