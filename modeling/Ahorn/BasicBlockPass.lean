import Ahorn.BuiltTrees

set_option autoImplicit false

/-!
# The pass that forms basic blocks

Leaders are collected first; from each leader that writes a variable the block is extended up to
the next leader, or up to an IF or a call that ends it.
-/
namespace Ahorn

inductive BlockInstruction where
  | instruction (i : Instruction)
  | sequenceInstruction (instructions : List Instruction)
  deriving DecidableEq, Repr

structure BlockVertex where
  label : ℤ
  type : VertexType := .regular
  instruction : Option BlockInstruction := none
  deriving DecidableEq, Repr

/-- A graph of basic blocks. -/
structure BlockCfg where
  labelToVertex : OrderedMap ℤ BlockVertex
  edges : List Edge
  entryLabel : ℤ
  exitLabel : ℤ

namespace Cfg

variable (cfg : Cfg)

def getPrecedingLabels (label : ℤ) : List ℤ := (cfg.getIncomingEdges label).map (·.sourceLabel)

/-- The first return edge into a label, whatever call it belongs to. -/
def getInterproceduralReturnEdge (label : ℤ) : Except String Edge :=
  match (cfg.getIncomingEdges label).find? (·.type = .interproceduralReturn) with
  | some e => .ok e
  | none =>
    .error ("No interprocedural return edge for instruction at label " ++ toString label ++
      " exists.")

end Cfg

namespace BasicBlockPass

variable (cfg : Cfg)

/-- What the type and the instruction of a vertex make leaders. -/
def leadingAt (v : Vertex) : Except String (List ℤ) :=
  match v.type with
  | .entry =>
    match cfg.getSucceedingLabels v.label with
    | [next] => .ok [v.label, next]
    | _ => .error "assertion failed"
  | .regular =>
    match v.instruction with
    | none => .error "assertion failed"
    | some (.callInstruction _ _ _) => do
      let e ← cfg.getIntraproceduralCallToReturnEdge v.label
      .ok [e.targetLabel]
    | some (.ifInstruction _ _ _) =>
      match cfg.getSucceedingLabels v.label with
      | [a, b] => .ok [a, b]
      | _ => .error "assertion failed"
    | some (.whileInstruction _ _ _) =>
      match cfg.getSucceedingLabels v.label with
      | [a, b] => .ok [v.label, a, b]
      | _ => .error "assertion failed"
    | some (.assignmentInstruction _ _ _) | some (.gotoInstruction _)
    | some (.havocInstruction _) => .ok []
  | .exit => .ok [v.label]

/-- The leaders that are found at a vertex; where edges meet the vertex itself is one. -/
def leadersAt (v : Vertex) : Except String (List ℤ) := do
  let leading ← leadingAt cfg v
  .ok ((if (cfg.getPrecedingLabels v.label).length > 1 then [v.label] else []) ++ leading)

def leaders : Except String (OrderedMap ℤ Unit) :=
  (cfg.labelToVertex.entries.map Prod.snd).foldlM (fun s v => do
    let ls ← leadersAt cfg v
    .ok (ls.foldl (fun s l => s.emplace l ()) s)) .empty

/-- The labels behind the label of a write that belong to the same block. -/
def extend (leaders : OrderedMap ℤ Unit) : ℕ → ℤ → Except String (List ℤ)
  | 0, _ => .error "out of fuel"
  | fuel + 1, label =>
    match cfg.getSucceedingLabels label with
    | [next] =>
      match leaders.find? next with
      | some _ => .ok []
      | none => do
        let v ← cfg.getVertex next
        match v.type, v.instruction with
        | .regular, some (.ifInstruction _ _ _) | .regular, some (.callInstruction _ _ _) =>
          .ok [next]
        | .regular, some (.whileInstruction _ _ _) | .regular, some (.gotoInstruction _) =>
          .error "Not implemented yet."
        | .regular, some _ => do
          let rest ← extend leaders fuel next
          .ok (next :: rest)
        | _, _ => .error "assertion failed"
    | _ => .error "assertion failed"

def instructionOf (label : ℤ) : Except String Instruction := do
  let v ← cfg.getVertex label
  match v.instruction with
  | some i => .ok i
  | none => .error "assertion failed"

/-- The edges out of a sequence. Its last instruction decides whether control returns to it. -/
def sequenceEdges (leader last : ℤ) : Except String (List Edge) := do
  let outgoing := (cfg.getOutgoingEdges last).map fun e =>
    { sourceLabel := leader, targetLabel := e.targetLabel, type := e.type : Edge }
  match ← instructionOf cfg last with
  | .callInstruction _ _ _ => do
    let intraprocedural ← cfg.getIntraproceduralCallToReturnEdge last
    let e ← cfg.getInterproceduralReturnEdge intraprocedural.targetLabel
    .ok (outgoing ++
      [⟨e.sourceLabel, e.targetLabel, e.callerName, some leader, .interproceduralReturn⟩])
  | .assignmentInstruction _ _ _ | .havocInstruction _ | .ifInstruction _ _ _ => .ok outgoing
  | _ => .error "Not implemented yet."

/-- The block of a leader that writes a variable, with the edges out of it. -/
def writeBlock (leaders : OrderedMap ℤ Unit) (leader : ℤ) (i : Instruction) :
    Except String (BlockVertex × List Edge) := do
  let rest ← extend cfg leaders (cfg.labelToVertex.entries.length + 1) leader
  match rest.getLast? with
  | none =>
    match cfg.getOutgoingEdges leader with
    | [e] =>
      .ok ({ label := leader, instruction := some (.instruction i) },
        [{ sourceLabel := e.sourceLabel, targetLabel := e.targetLabel, type := e.type }])
    | _ => .error "assertion failed"
  | some last => do
    let instructions ← (leader :: rest).mapM (instructionOf cfg)
    let edges ← sequenceEdges cfg leader last
    .ok ({ label := leader, instruction := some (.sequenceInstruction instructions) }, edges)

def block (leaders : OrderedMap ℤ Unit) (leader : ℤ) :
    Except String (BlockVertex × List Edge) :=
  if leader = cfg.entryLabel then
    match cfg.getOutgoingEdges leader with
    | [e] =>
      .ok ({ label := leader, type := .entry },
        [{ sourceLabel := e.sourceLabel, targetLabel := e.targetLabel, type := e.type }])
    | _ => .error "assertion failed"
  else if leader = cfg.exitLabel then
    match cfg.getOutgoingEdges leader with
    | [] => .ok ({ label := leader, type := .exit }, [])
    | _ => .error "assertion failed"
  else do
    let v ← cfg.getVertex leader
    match v.type, v.instruction with
    | .regular, some (.assignmentInstruction type r e) =>
      writeBlock cfg leaders leader (.assignmentInstruction type r e)
    | .regular, some (.havocInstruction r) => writeBlock cfg leaders leader (.havocInstruction r)
    | .regular, some (.callInstruction w intra inter) => do
      let call ← cfg.getInterproceduralCallEdge leader
      let intraprocedural ← cfg.getIntraproceduralCallToReturnEdge leader
      let e ← cfg.getInterproceduralReturnEdge intraprocedural.targetLabel
      .ok ({ label := leader, instruction := some (.instruction (.callInstruction w intra inter)) },
        [{ sourceLabel := call.sourceLabel, targetLabel := call.targetLabel, type := call.type },
          { sourceLabel := intraprocedural.sourceLabel,
            targetLabel := intraprocedural.targetLabel, type := intraprocedural.type },
          ⟨e.sourceLabel, e.targetLabel, e.callerName, e.callLabel, .interproceduralReturn⟩])
    | .regular, some (.ifInstruction e t x) =>
      .ok ({ label := leader, instruction := some (.instruction (.ifInstruction e t x)) },
        (cfg.getOutgoingEdges leader).map fun e =>
          { sourceLabel := e.sourceLabel, targetLabel := e.targetLabel, type := e.type })
    | .regular, some (.whileInstruction e t x) =>
      .ok ({ label := leader, instruction := some (.instruction (.whileInstruction e t x)) },
        (cfg.getOutgoingEdges leader).map fun e =>
          { sourceLabel := e.sourceLabel, targetLabel := e.targetLabel, type := e.type })
    | .regular, some (.gotoInstruction _) => .error "Not implemented yet."
    | _, _ => .error "assertion failed"

def transform : Except String BlockCfg := do
  let leaders ← leaders cfg
  let blocks ← leaders.keys.mapM (block cfg leaders)
  .ok ⟨OrderedMap.empty.emplaceAll (blocks.map fun b => (b.1.label, b.1)),
    blocks.flatMap (·.2), cfg.entryLabel, cfg.exitLabel⟩

def apply (t : CallTree Cfg) : Except String (CallTree BlockCfg) :=
  (t.apply (fun cfg (_ : Unit) => (transform cfg).map fun cfg' => (cfg', ())) ()).map Prod.fst

end BasicBlockPass

end Ahorn
