import Ahorn.BuiltTrees

set_option autoImplicit false

/-!
# Intermediate vertices behind decisions

The pass puts a vertex of its own on either branch of every IF. Labels and the vertices behind each
IF are kept for all units, callees first.
-/
namespace Ahorn

/-- The next label, and for the label of each IF the labels of its two intermediate vertices. -/
structure DecisionTransformationPass where
  label : ℤ
  decisionLabelToIntermediateSuccessors : OrderedMap ℤ (ℤ × ℤ)

namespace DecisionTransformationPass

def initial : DecisionTransformationPass := ⟨9000, .empty⟩

def visitVertex (s : OrderedMap ℤ Vertex × DecisionTransformationPass) (v : Vertex) :
    Except String (OrderedMap ℤ Vertex × DecisionTransformationPass) :=
  match v.type with
  | .entry => .ok (s.1.emplace v.label { label := v.label, type := .entry }, s.2)
  | .exit => .ok (s.1.emplace v.label { label := v.label, type := .exit }, s.2)
  | .regular =>
    match v.instruction with
    | none => .error "assertion failed"
    | some (.ifInstruction e t x) =>
      let intermediateTrueLabel := s.2.label
      let intermediateFalseLabel := s.2.label + 1
      .ok (((s.1.emplace v.label
          { label := v.label, instruction := some (.ifInstruction e t x) }).emplace
          intermediateTrueLabel { label := intermediateTrueLabel }).emplace
          intermediateFalseLabel { label := intermediateFalseLabel },
        ⟨s.2.label + 2, s.2.decisionLabelToIntermediateSuccessors.emplace v.label
          (intermediateTrueLabel, intermediateFalseLabel)⟩)
    | some (.whileInstruction _ _ _) => .error "Not implemented yet."
    | some i => .ok (s.1.emplace v.label { label := v.label, instruction := some i }, s.2)

def visitEdge (pass : DecisionTransformationPass) (e : Edge) : Except String (List Edge) :=
  match e.type with
  | .intraproceduralCallToReturn | .intraprocedural | .interproceduralCall =>
    .ok [{ sourceLabel := e.sourceLabel, targetLabel := e.targetLabel, type := e.type }]
  | .trueBranch =>
    match pass.decisionLabelToIntermediateSuccessors.find? e.sourceLabel with
    | none => .error "assertion failed"
    | some (intermediateLabel, _) =>
      .ok [{ sourceLabel := e.sourceLabel, targetLabel := intermediateLabel, type := .trueBranch },
        { sourceLabel := intermediateLabel, targetLabel := e.targetLabel }]
  | .falseBranch =>
    match pass.decisionLabelToIntermediateSuccessors.find? e.sourceLabel with
    | none => .error "assertion failed"
    | some (_, intermediateLabel) =>
      .ok [{ sourceLabel := e.sourceLabel, targetLabel := intermediateLabel, type := .falseBranch },
        { sourceLabel := intermediateLabel, targetLabel := e.targetLabel }]
  | .interproceduralReturn =>
    .ok [⟨e.sourceLabel, e.targetLabel, e.callerName, e.callLabel, e.type⟩]

def transform (cfg : Cfg) (pass : DecisionTransformationPass) :
    Except String (Cfg × DecisionTransformationPass) := do
  let (labelToVertex, pass) ← (cfg.labelToVertex.entries.map Prod.snd).foldlM visitVertex
    (.empty, pass)
  let edges ← cfg.edges.mapM pass.visitEdge
  .ok (⟨labelToVertex, edges.flatten, cfg.entryLabel, cfg.exitLabel⟩, pass)

def apply (t : CallTree Cfg) : Except String (CallTree Cfg) :=
  (t.apply transform initial).map Prod.fst

end DecisionTransformationPass

/-- An IF with the labels of its intermediate vertices. -/
structure DecisionSplit where
  decision : ℤ
  trueLabel : ℤ
  falseLabel : ℤ

namespace DecisionSplit

def labels (x : DecisionSplit) : List ℤ := [x.trueLabel, x.falseLabel]

def fromLabel (n : ℤ) : List ℤ → List DecisionSplit
  | [] => []
  | l :: ls => ⟨l, n, n + 1⟩ :: fromLabel (n + 2) ls

end DecisionSplit

def Vertex.isDecision (v : Vertex) : Bool :=
  match v.instruction with
  | some (.ifInstruction _ _ _) => true
  | _ => false

namespace Cfg

def decisions (cfg : Cfg) : List ℤ :=
  ((cfg.labelToVertex.entries.map Prod.snd).filter Vertex.isDecision).map (·.label)

def behind (cfg : Cfg) (l : ℤ) : ℤ := (cfg.getSucceedingLabels l).headD l

/-- The graph without the vertices of the labels: edges into them lead to where they lead. -/
def contract (labels : List ℤ) (cfg : Cfg) : Cfg where
  labelToVertex := labels.foldl OrderedMap.erase cfg.labelToVertex
  edges := (cfg.edges.filter (·.sourceLabel ∉ labels)).map fun e =>
    if e.targetLabel ∈ labels then { e with targetLabel := cfg.behind e.targetLabel } else e
  entryLabel := cfg.entryLabel
  exitLabel := cfg.exitLabel

end Cfg

/-- The unit `u'` is `u` with two intermediate vertices behind each IF. -/
structure SplitsDecisions (u u' : CallUnit Cfg) (splits : List DecisionSplit) : Prop where
  decisions : splits.map (·.decision) = u.graph.decisions
  connected : ∀ e ∈ u'.graph.edges, u'.IsPlace e.sourceLabel ∧ u'.IsPlace e.targetLabel
  intermediate : ∀ x ∈ splits, ∀ l ∈ x.labels,
    u'.graph.labelToVertex.find? l = some { label := l }
  trueEdge : ∀ x ∈ splits,
    { sourceLabel := x.decision, targetLabel := x.trueLabel, type := .trueBranch } ∈ u'.graph.edges
  falseEdge : ∀ x ∈ splits,
    { sourceLabel := x.decision, targetLabel := x.falseLabel, type := .falseBranch } ∈
      u'.graph.edges
  contracted : u'.graph.contract (splits.flatMap (·.labels)) = u.graph

/-- Units side by side, with the IFs of all of them. -/
inductive SplitUnits : List (CallUnit Cfg) → List (CallUnit Cfg) → List DecisionSplit → Prop
  | nil : SplitUnits [] [] []
  | cons {u u' : CallUnit Cfg} {us us' : List (CallUnit Cfg)} {splits rest : List DecisionSplit} :
      SplitsDecisions u u' splits → SplitUnits us us' rest →
      SplitUnits (u :: us) (u' :: us') (splits ++ rest)

/-- Every IF of the program gets two intermediate vertices of its own. -/
structure TransformsDecisions (t t' : CallTree Cfg) : Prop where
  shape : t'.shape = t.shape
  splits : ∃ splits, SplitUnits t.units t'.units splits ∧
    (splits.flatMap (·.labels)).Nodup ∧
    ∀ l ∈ splits.flatMap (·.labels), ∀ u ∈ t.units, u.graph.labelToVertex.find? l = none

def CallTree.decisions (t : CallTree Cfg) : List ℤ := t.units.flatMap (·.graph.decisions)

/-- No loops, no IF that is visited twice, and no label that the pass hands out itself. -/
structure CallTree.Separate (t : CallTree Cfg) : Prop where
  noLoop : ∀ u ∈ t.units, ∀ l e a b, u.graph.labelToVertex.find? l ≠
    some { label := l, instruction := some (.whileInstruction e a b) }
  once : t.decisions.Nodup
  below : ∀ u ∈ t.units, ∀ l v, u.graph.labelToVertex.find? l = some v →
    l < 9000 ∨ 9000 + 2 * (t.decisions.length : ℤ) ≤ l

end Ahorn
