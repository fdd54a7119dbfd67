import Ahorn.EtfaExecutor

set_option autoImplicit false

/-!
# The merger of the symbolic execution

Contexts that reach a merge point wait there; they are merged pairwise once no other context is
left. A variable with different versions in the two contexts gets a fresh one, defined by a case
distinction on the first path constraint.
-/
namespace Ahorn.Etfa

/-- A merge point: scope, depth of the call stack, label and return label. -/
structure MergePoint where
  scope : String
  depth : ℕ
  label : ℤ
  returnLabel : ℤ
  deriving DecidableEq, Repr

namespace Merger

def isCallEdge (e : Edge) : Bool :=
  e.type = .intraproceduralCallToReturn || e.type = .interproceduralCall ||
    e.type = .interproceduralReturn

/-- Whether a regular vertex joins intraprocedural edges. -/
def joins (cfg : Cfg) (label : ℤ) : Bool :=
  1 < (cfg.getIncomingEdges label).length && (cfg.getIncomingEdges label).all (!isCallEdge ·)

def vertexMergePoints (cfg : UnitCfg) (scope : String) (depth : ℕ) (returnLabel : ℤ)
    (entry : ℤ × Vertex) : List MergePoint :=
  match entry.2.type with
  | .entry => []
  | .exit => [⟨scope, depth, cfg.exitLabel, returnLabel⟩]
  | .regular => if joins cfg.toCfg entry.1 then [⟨scope, depth, entry.1, returnLabel⟩] else []

/-- The unit that is called at a vertex, the name of the instance and the label to return to. -/
def calledAt (getCfg : String → Option UnitCfg) (cfg : UnitCfg) (entry : ℤ × Vertex) :
    Option (UnitCfg × String × ℤ) :=
  match entry.2.type, entry.2.instruction with
  | .regular, some (.callInstruction called _ _) =>
    match called.dataType with
    | .derivedType typeName =>
      match getCfg typeName, cfg.getIntraproceduralCallToReturnEdge entry.1 with
      | some callee, .ok edge => some (callee, called.name, edge.targetLabel)
      | _, _ => none
    | _ => none
  | _, _ => none

/-- The merge points of a unit and, up to the given depth of nesting, of the instances in it. -/
def initializeMergePoints (getCfg : String → Option UnitCfg) :
    ℕ → UnitCfg → String → ℕ → ℤ → List MergePoint
  | 0, cfg, scope, depth, returnLabel =>
    cfg.labelToVertex.entries.flatMap (vertexMergePoints cfg scope depth returnLabel)
  | nesting + 1, cfg, scope, depth, returnLabel =>
    cfg.labelToVertex.entries.flatMap fun entry =>
      vertexMergePoints cfg scope depth returnLabel entry ++
        match calledAt getCfg cfg entry with
        | some (callee, name, returnLabel) =>
          initializeMergePoints getCfg nesting callee (scope ++ "." ++ name) (depth + 1) returnLabel
        | none => []

def mergePointOf (c : Context) : Option MergePoint :=
  match c.callStack with
  | frame :: _ =>
    some ⟨frame.scope, c.callStack.length, c.state.vertex.label, frame.returnLabel⟩
  | [] => none

/-- What the merge of the variables has produced so far: the fresh versions of the executor, the
valuations, the versions and the constants that have been merged, each with its merged name. -/
structure Merging where
  versions : Versions
  symbolicValuations : OrderedMap String (SortedTerm String)
  flattenedNameToVersion : OrderedMap String ℕ := .empty
  mergedVariables : List ((SmtSort × String) × String) := []

/-- The assertion of the merge on names with two valuations. -/
def valuationsDiffer : String :=
  "assertion failed: z3::eq(symbolic_expression_1, symbolic_expression_2)"

/-- The union of the valuations; a name with two of them must have the same one twice. -/
def mergeValuations : List (String × SortedTerm String) → OrderedMap String (SortedTerm String) →
    Except String (OrderedMap String (SortedTerm String))
  | [], valuations => .ok valuations
  | (n, e) :: entries, valuations =>
    match valuations.find? n with
    | none => mergeValuations entries (valuations.emplace n e)
    | some e' =>
      if e' = e then mergeValuations entries valuations else .error valuationsDiffer

def mergeVariable (simplifier : Simplifier String) (st₁ st₂ : State) (cycle : ℕ)
    (flattenedName : String) (flattened : Variable) (acc : Merging) : Except String Merging := do
  let version₁ ← st₁.getVersion flattenedName
  let version₂ ← st₂.getVersion flattenedName
  if version₁ = version₂ then
    .ok { acc with
      flattenedNameToVersion := acc.flattenedNameToVersion.emplace flattenedName version₁ }
  else
    let name₁ := contextualized flattenedName version₁ cycle
    let name₂ := contextualized flattenedName version₂ cycle
    let expression₁ ← st₁.getSymbolicValuation name₁
    let expression₂ ← st₂.getSymbolicValuation name₂
    let highest ← Executor.getVersion acc.versions flattenedName
    let version := highest + 1
    let name := contextualized flattenedName version cycle
    let acc : Merging := { acc with
      versions := acc.versions.assign flattenedName version
      flattenedNameToVersion := acc.flattenedNameToVersion.emplace flattenedName version }
    if expression₁ = expression₂ then
      .ok { acc with symbolicValuations := acc.symbolicValuations.emplace name expression₁ }
    else
      let s ← flattened.dataType.sort
      let expression := simplifier.simplify
        (.ite (.conjunction st₁.pathConstraint) (.constant s name₁) (.constant s name₂))
      .ok { acc with
        symbolicValuations := acc.symbolicValuations.emplace name ⟨s, expression⟩
        mergedVariables := acc.mergedVariables ++ [((s, name₁), name), ((s, name₂), name)] }

def mergeVariables (simplifier : Simplifier String) (st₁ st₂ : State) (cycle : ℕ) :
    List (String × Variable) → Merging → Except String Merging
  | [], acc => .ok acc
  | (flattenedName, flattened) :: entries, acc => do
    let acc ← mergeVariable simplifier st₁ st₂ cycle flattenedName flattened acc
    mergeVariables simplifier st₁ st₂ cycle entries acc

def mergePathConstraints (simplifier : Simplifier String) (st₁ st₂ : State) : Term String .bool :=
  simplifier.simplify
    (.connective .or (.conjunction st₁.pathConstraint) (.conjunction st₂.pathConstraint))

/-- Replace the constants of merged variables by the merged ones, one after the other. -/
def substituteMerged (merged : List ((SmtSort × String) × String)) :
    List (SmtSort × String) → Term String .bool → Term String .bool
  | [], t => t
  | k :: ks, t =>
    match merged.find? (·.1 = k) with
    | some m => substituteMerged merged ks (t.substitute k.2 (.constant k.1 m.2))
    | none => substituteMerged merged ks t

/-- Two contexts can only be merged in the frame of the program. -/
def sameFrame (c₁ c₂ : Context) : Bool :=
  match c₁.callStack, c₂.callStack with
  | [frame₁], [frame₂] =>
    frame₁.scope = frame₂.scope && frame₁.returnLabel = frame₂.returnLabel
  | _, _ => false

/-- The merged context: the vertex and the call stack of the first one, and as path constraint the
disjunction with the merged constants. -/
def Merging.context (simplifier : Simplifier String) (pathConstraint : Term String .bool)
    (c₁ : Context) (merging : Merging) : Context :=
  let substituted := substituteMerged merging.mergedVariables pathConstraint.constants pathConstraint
  { c₁ with
    state :=
      { vertex := c₁.state.vertex
        symbolicValuations := merging.symbolicValuations
        pathConstraint := [simplifier.simplify (.conjunction [substituted])]
        flattenedNameToVersion := merging.flattenedNameToVersion } }

def merge (simplifier : Simplifier String) (versions : Versions) (c₁ c₂ : Context) :
    Except String (Versions × Context) := do
  if c₁.cycle ≠ c₂.cycle || c₁.state.vertex.label ≠ c₂.state.vertex.label || !sameFrame c₁ c₂ then
    .error "assertion failed"
  else
    let pathConstraint := mergePathConstraints simplifier c₁.state c₂.state
    let valuations ← mergeValuations c₂.state.symbolicValuations.entries c₁.state.symbolicValuations
    let frame ← c₁.getFrame
    let merging ← mergeVariables simplifier c₁.state c₂.state c₁.cycle
      frame.cfg.flattenedInterface.entries ⟨versions, valuations, .empty, []⟩
    .ok (merging.versions, merging.context simplifier pathConstraint c₁)

/-- The merge of all contexts at a merge point, from the first one on. -/
def mergeAll (simplifier : Simplifier String) :
    Versions → Context → List Context → Except String (Versions × Context)
  | versions, c, [] => .ok (versions, c)
  | versions, c, c' :: cs => do
    let (versions, merged) ← merge simplifier versions c c'
    mergeAll simplifier versions merged cs

/-- Whether the first merge point is taken before the second: the deeper one, then that with the
lower return label, then that with the lower label. -/
def before (p q : MergePoint) : Bool :=
  q.depth < p.depth || (p.depth = q.depth && p.returnLabel < q.returnLabel) ||
    (p.depth = q.depth && p.returnLabel = q.returnLabel && p.label < q.label)

end Merger

end Ahorn.Etfa
