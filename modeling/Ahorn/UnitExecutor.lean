import Ahorn.UnitContexts

set_option autoImplicit false

/-!
# The executors that encode a unit

The executor of the summarization and the one of the validation differ in the version a havoc gives
its variable, in the operand of a change expression they take, and in what they do with a literal
that is reached again.
-/
namespace Ahorn.Summarization

/-- What an executor works with. The version a havoc gives its variable may depend on the highest
one. -/
structure Executor where
  simplifier : Simplifier String
  solver : Solver String
  change : Encoder.ChangeOperand
  havocVersion : ℕ → ℕ
  joins : Bool

/-- The executor of the summarization: a havoc begins with version 0 again. -/
def executor (simplifier : Simplifier String) (solver : Solver String) : Executor where
  simplifier := simplifier
  solver := solver
  change := .rejected
  havocVersion := fun _ => 0
  joins := false

end Ahorn.Summarization

namespace Ahorn.Reuse

/-- The executor of the validation: a havoc gets the next version. -/
def executor (simplifier : Simplifier String) (solver : Solver String) (old : Bool) :
    Summarization.Executor where
  simplifier := simplifier
  solver := solver
  change := if old then .old else .new
  havocVersion := fun highest => highest + 1
  joins := true

end Ahorn.Reuse

namespace Ahorn.Summarization

open Etfa (Frame)

namespace Executor

/-- The constant that stands for the current version of a variable in the frame. -/
def access (frame : Frame) (c : Context) (r : VariableReference) :
    Except String (SortedTerm String) := do
  let flattenedName := frame.scope ++ "." ++ r.getName
  let version ← c.state.getVersion flattenedName
  makeConstant (versioned flattenedName version) r.getVariable.dataType

def encode (ex : Executor) (frame : Frame) (c : Context) (e : Expression) :
    Except String (SortedTerm String) :=
  Encoder.encode ex.simplifier ex.change (access frame c) e

def handleOnlySuccessor (ex : Executor) (frame : Frame) (c : Context) : Except String Context :=
  match frame.cfg.getSucceedingLabels c.state.vertex.label with
  | [nextLabel] => do
    let next ← frame.cfg.getVertex nextLabel
    let st ← c.state.enter ex.joins (literalName frame.scope nextLabel) next
    .ok { c with state := st }
  | _ => .error "assertion failed"

/-- Write a term to a version of a variable, under the current literal. -/
def write (ex : Executor) (frame : Frame) (flattenedName : String) (version : ℕ)
    (encoded : SortedTerm String) (versions : Versions) (c : Context) :
    Except String (Versions × Context) := do
  let st ← c.state.setVersion flattenedName version
  let edge ← frame.cfg.getIntraproceduralEdge st.vertex.label
  let next ← frame.cfg.getVertex edge.targetLabel
  let st := st.pushHardConstraint st.assumptionLiteral (versioned flattenedName version) encoded
  let st ← st.enter ex.joins (literalName frame.scope edge.targetLabel) next
  .ok (versions.assign flattenedName version, { c with state := st })

def visitAssignment (ex : Executor) (frame : Frame) (r : VariableReference) (e : Expression)
    (versions : Versions) (c : Context) : Except String (Versions × Context) := do
  let encoded ← ex.encode frame c e
  let flattenedName := frame.scope ++ "." ++ r.getName
  let highest ← Etfa.Executor.getVersion versions flattenedName
  ex.write frame flattenedName (highest + 1) encoded versions c

/-- A havoc writes the constant of the version itself. -/
def visitHavoc (ex : Executor) (frame : Frame) (r : VariableReference) (versions : Versions)
    (c : Context) : Except String (Versions × Context) := do
  let flattenedName := frame.scope ++ "." ++ r.getName
  let highest ← Etfa.Executor.getVersion versions flattenedName
  let version := ex.havocVersion highest
  let encoded ← makeConstant (versioned flattenedName version) r.getVariable.dataType
  ex.write frame flattenedName version encoded versions c

def realizable (ex : Executor) (st : State) (literal : String) (side : Term String .bool) : Bool :=
  ex.solver.check (st.encoding ex.simplifier ++
    [.connective .implies (.constant .bool literal) (.constant .bool st.assumptionLiteral),
      .connective .implies (.constant .bool literal) side, .constant .bool literal])

/-- The context on a side of a branch. What is assumed there is filed under its literal. -/
def take (ex : Executor) (literal : String) (vertex : Vertex) (side : Term String .bool)
    (c : Context) : Except String Context := do
  let st ← c.state.pushAssumptionLiteral ex.joins literal (.constant .bool c.state.assumptionLiteral)
  .ok { c with
    state := { st.pushAssumption literal side with vertex := vertex, assumptionLiteral := literal } }

def visitIf (ex : Executor) (frame : Frame) (e : Expression) (c : Context) :
    Except String (List Context) := do
  match ← ex.encode frame c e with
  | ⟨.int, _⟩ => .error "Sort mismatch"
  | ⟨.bool, encoded⟩ =>
    let negated := ex.simplifier.simplify (Term.not encoded)
    let trueEdge ← frame.cfg.getTrueEdge c.state.vertex.label
    let positive ← frame.cfg.getVertex trueEdge.targetLabel
    let falseEdge ← frame.cfg.getFalseEdge c.state.vertex.label
    let negative ← frame.cfg.getVertex falseEdge.targetLabel
    let positiveLiteral := literalName frame.scope trueEdge.targetLabel
    let negativeLiteral := literalName frame.scope falseEdge.targetLabel
    if ex.realizable c.state positiveLiteral encoded then
      let taken ← ex.take positiveLiteral positive encoded c
      if ex.realizable c.state negativeLiteral (.not encoded) then
        let forked ← ex.take negativeLiteral negative negated c
        .ok [taken, forked]
      else .ok [taken]
    else
      -- the other side must be satisfiable
      let taken ← ex.take negativeLiteral negative (.not encoded) c
      .ok [taken]

/-- One step of a context that is not at the exit of its unit. -/
def execute (ex : Executor) (versions : Versions) (c : Context) :
    Except String (Versions × List Context) := do
  let frame ← c.getFrame
  match c.state.vertex.type with
  | .entry => do
    let c' ← ex.handleOnlySuccessor frame c
    .ok (versions, [c'])
  | .regular =>
    match c.state.vertex.instruction with
    | none => do
      let c' ← ex.handleOnlySuccessor frame c
      .ok (versions, [c'])
    | some (.assignmentInstruction _ r e) => do
      let (versions, c') ← ex.visitAssignment frame r e versions c
      .ok (versions, [c'])
    | some (.havocInstruction r) => do
      let (versions, c') ← ex.visitHavoc frame r versions c
      .ok (versions, [c'])
    | some (.ifInstruction e _ _) => do
      let cs ← ex.visitIf frame e c
      .ok (versions, cs)
    | some (.callInstruction _ _ _) => .error "Nested calls are not supported yet."
    | some (.whileInstruction _ _ _) => .error "Summarization of loops is not supported yet."
    | some (.gotoInstruction _) => .error "Should not be reachable."
  | .exit => .ok (versions, [])

end Executor

namespace Executor

variable {ex : Executor} {frame : Frame} {versions versions' : Versions} {c c' : Context}

/-- What a step can lead to: the next vertex, the vertex behind a version that has been written, or a
side of a branch. -/
inductive Leads (ex : Executor) (frame : Frame) (c : Context) : Context → Prop
  | enter {literal : String} {vertex : Vertex} {st : State}
    (hst : c.state.enter ex.joins literal vertex = .ok st) : Leads ex frame c { c with state := st }
  | assign {versions versions' : Versions} {name : String} {version : ℕ} {e : Expression}
    {encoded : SortedTerm String} {c' : Context} (hencoded : ex.encode frame c e = .ok encoded)
    (hc' : ex.write frame name version encoded versions c = .ok (versions', c')) :
    Leads ex frame c c'
  | havoc {versions versions' : Versions} {name : String} {version : ℕ} {dataType : DataType}
    {encoded : SortedTerm String} {c' : Context}
    (hencoded : makeConstant (versioned name version) dataType = .ok encoded)
    (hc' : ex.write frame name version encoded versions c = .ok (versions', c')) :
    Leads ex frame c c'
  | take {literal : String} {vertex : Vertex} {e : Expression} {encoded side : Term String .bool}
    {c' : Context} (hencoded : ex.encode frame c e = .ok ⟨.bool, encoded⟩)
    (hside : side.occurrences ⊆ encoded.occurrences)
    (hc' : ex.take literal vertex side c = .ok c') : Leads ex frame c c'

theorem Leads.of_handleOnlySuccessor (h : ex.handleOnlySuccessor frame c = .ok c') :
    Leads ex frame c c' := by
  unfold handleOnlySuccessor at h
  split at h
  · obtain ⟨next, -, h⟩ := bind_eq_ok h
    obtain ⟨st, hst, h⟩ := bind_eq_ok h
    cases h
    exact .enter hst
  · cases h

theorem Leads.of_visitIf {e : Expression} {cs : List Context} (h : ex.visitIf frame e c = .ok cs)
    (hc' : c' ∈ cs) : Leads ex frame c c' := by
  unfold visitIf at h
  obtain ⟨⟨s, encoded⟩, hencoded, h⟩ := bind_eq_ok h
  cases s with
  | int => cases h
  | bool =>
    have hnegated : (ex.simplifier.simplify encoded.not).occurrences ⊆ encoded.occurrences :=
      ex.simplifier.occurrences_simplify encoded.not
    have hnot : encoded.not.occurrences ⊆ encoded.occurrences := List.Subset.refl _
    obtain ⟨trueEdge, -, h⟩ := bind_eq_ok h
    obtain ⟨positive, -, h⟩ := bind_eq_ok h
    obtain ⟨falseEdge, -, h⟩ := bind_eq_ok h
    obtain ⟨negative, -, h⟩ := bind_eq_ok h
    dsimp only at h
    split_ifs at h
    · obtain ⟨taken, htaken, h⟩ := bind_eq_ok h
      obtain ⟨forked, hforked, h⟩ := bind_eq_ok h
      cases h
      rcases List.mem_pair.mp hc' with rfl | rfl
      · exact .take hencoded (List.Subset.refl _) htaken
      · exact .take hencoded hnegated hforked
    · obtain ⟨taken, htaken, h⟩ := bind_eq_ok h
      cases h
      obtain rfl := List.mem_singleton.mp hc'
      exact .take hencoded (List.Subset.refl _) htaken
    · obtain ⟨taken, htaken, h⟩ := bind_eq_ok h
      cases h
      obtain rfl := List.mem_singleton.mp hc'
      exact .take hencoded hnot htaken

theorem execute_fork {e : Expression} {l t₁ t₂ : ℤ} {encoded negated : Term String .bool}
    {trueEdge falseEdge : Edge} {positive negative : Vertex} {taken forked : Context}
    (hframe : c.getFrame = .ok frame)
    (hvertex : c.state.vertex = ⟨l, .regular, some (.ifInstruction e t₁ t₂)⟩)
    (hencode : ex.encode frame c e = .ok ⟨.bool, encoded⟩)
    (hnegated : ex.simplifier.simplify encoded.not = negated)
    (htrue : frame.cfg.getTrueEdge l = .ok trueEdge)
    (hpositive : frame.cfg.getVertex trueEdge.targetLabel = .ok positive)
    (hfalse : frame.cfg.getFalseEdge l = .ok falseEdge)
    (hnegative : frame.cfg.getVertex falseEdge.targetLabel = .ok negative)
    (hcheck : ex.realizable c.state (literalName frame.scope trueEdge.targetLabel) encoded = true)
    (hcheckNot : ex.realizable c.state (literalName frame.scope falseEdge.targetLabel)
      encoded.not = true)
    (htaken : ex.take (literalName frame.scope trueEdge.targetLabel) positive encoded c = .ok taken)
    (hforked : ex.take (literalName frame.scope falseEdge.targetLabel) negative negated c =
      .ok forked) :
    ex.execute versions c = .ok (versions, [taken, forked]) := by
  have hif : ex.visitIf frame e c = .ok [taken, forked] := by
    unfold visitIf
    simp only [hencode, hnegated, hvertex, htrue, hpositive, hfalse, hnegative, hcheck, hcheckNot,
      htaken, hforked, bind, Except.bind, if_true]
  unfold execute
  rw [hframe]
  dsimp only [bind, Except.bind]
  rw [hvertex]
  dsimp only
  rw [hif]

theorem execute_leads (hframe : c.getFrame = .ok frame) {cs : List Context}
    (h : ex.execute versions c = .ok (versions', cs)) (hc' : c' ∈ cs) : Leads ex frame c c' := by
  unfold execute at h
  rw [hframe] at h
  change (match c.state.vertex.type with
    | .entry => _
    | .regular => _
    | .exit => _) = _ at h
  split at h
  · obtain ⟨c'', hc'', h⟩ := bind_eq_ok h
    cases h
    obtain rfl := List.mem_singleton.mp hc'
    exact .of_handleOnlySuccessor hc''
  · split at h
    · obtain ⟨c'', hc'', h⟩ := bind_eq_ok h
      cases h
      obtain rfl := List.mem_singleton.mp hc'
      exact .of_handleOnlySuccessor hc''
    · obtain ⟨⟨versions₁, c''⟩, hc'', h⟩ := bind_eq_ok h
      cases h
      obtain rfl := List.mem_singleton.mp hc'
      obtain ⟨encoded, hencoded, hc''⟩ := bind_eq_ok hc''
      obtain ⟨highest, -, hwrite⟩ := bind_eq_ok hc''
      exact .assign hencoded hwrite
    · obtain ⟨⟨versions₁, c''⟩, hc'', h⟩ := bind_eq_ok h
      cases h
      obtain rfl := List.mem_singleton.mp hc'
      obtain ⟨highest, -, hc''⟩ := bind_eq_ok hc''
      obtain ⟨encoded, hencoded, hwrite⟩ := bind_eq_ok hc''
      exact .havoc hencoded hwrite
    · obtain ⟨cs', hcs', h⟩ := bind_eq_ok h
      cases h
      exact .of_visitIf hcs' hc'
    all_goals cases h
  · cases h
    cases hc'

end Executor

end Ahorn.Summarization
