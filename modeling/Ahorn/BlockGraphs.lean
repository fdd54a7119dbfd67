import Ahorn.BasicBlocks

set_option autoImplicit false

/-!
# The graphs of basic blocks

A block holds the instructions of its labels in order. Its edges are those out of its last label,
and the return edge of the call that it may end in.
-/
namespace Ahorn

def BlockVertex.instructions (v : BlockVertex) : List Instruction :=
  match v.instruction with
  | none => []
  | some (.instruction i) => [i]
  | some (.sequenceInstruction instructions) => instructions

def Cfg.instruction? (cfg : Cfg) (label : ℤ) : Option Instruction :=
  (cfg.labelToVertex.find? label).bind (·.instruction)

namespace BasicBlockPass

variable (cfg : Cfg) (leaders : OrderedMap ℤ Unit)

def blockLabels (leader : ℤ) : List ℤ :=
  match cfg.instruction? leader with
  | some i =>
    if i.isWrite then
      leader :: (extend cfg leaders (cfg.labelToVertex.entries.length + 1) leader).toOption.getD []
    else [leader]
  | none => [leader]

def blockLast (leader : ℤ) : ℤ := (blockLabels cfg leaders leader).getLastD leader

def blockInstruction : List Instruction → Option BlockInstruction
  | [] => none
  | [i] => some (.instruction i)
  | instructions => some (.sequenceInstruction instructions)

def blockVertex (leader : ℤ) : BlockVertex where
  label := leader
  type := ((cfg.labelToVertex.find? leader).map (·.type)).getD .regular
  instruction := blockInstruction ((blockLabels cfg leaders leader).filterMap cfg.instruction?)

/-- The return edge of a block that ends in a call. Only in a sequence it gets the leader as call
label. -/
def returnEdges (leader last : ℤ) : List Edge :=
  match cfg.instruction? last with
  | some (.callInstruction _ intra _) =>
    match cfg.getInterproceduralReturnEdge intra with
    | .ok e => [⟨e.sourceLabel, e.targetLabel, e.callerName,
        if last = leader then e.callLabel else some leader, .interproceduralReturn⟩]
    | .error _ => []
  | _ => []

/-- The edges out of the last label of a block, as edges out of its leader. -/
def outgoingEdges (leader last : ℤ) : List Edge :=
  (cfg.getOutgoingEdges last).map fun e =>
    { sourceLabel := leader, targetLabel := e.targetLabel, type := e.type }

def blockEdges (leader : ℤ) : List Edge :=
  outgoingEdges cfg leader (blockLast cfg leaders leader) ++
    returnEdges cfg leader (blockLast cfg leaders leader)

end BasicBlockPass

theorem BlockVertex.instructions_blockVertex (cfg : Cfg) (leaders : OrderedMap ℤ Unit)
    (leader : ℤ) : (BasicBlockPass.blockVertex cfg leaders leader).instructions =
      (BasicBlockPass.blockLabels cfg leaders leader).filterMap cfg.instruction? := by
  unfold instructions BasicBlockPass.blockVertex BasicBlockPass.blockInstruction
  cases (BasicBlockPass.blockLabels cfg leaders leader).filterMap cfg.instruction? with
  | nil => rfl
  | cons i is => cases is <;> rfl

namespace CallUnit.BuiltFrom

open BasicBlockPass

variable {u : CallUnit Cfg} {M : Module} {exitLabels : String → Option ℤ}

theorem instruction?_eq (h : u.BuiltFrom M exitLabels) {l : ℤ} {i : Instruction}
    (hi : M.labelToInstruction.find? l = some i) (hgoto : i.isGoto = false) :
    u.graph.instruction? l = some i := by
  unfold Cfg.instruction?
  rw [h.vertex_of_instruction hi hgoto]
  rfl

theorem instructionOf_eq (h : u.BuiltFrom M exitLabels) {l : ℤ} {i : Instruction}
    (hi : M.labelToInstruction.find? l = some i) (hgoto : i.isGoto = false) :
    instructionOf u.graph l = .ok i := by
  unfold instructionOf Cfg.getVertex
  rw [h.vertex_of_instruction hi hgoto]
  rfl

theorem isGoto_of_isWrite {i : Instruction} (h : i.isWrite = true) : i.isGoto = false := by
  cases i <;> first | rfl | cases h

theorem getInterproceduralReturnEdge_ok (h : u.BuiltFrom M exitLabels) {l : ℤ} {v : Variable}
    {intra inter : ℤ}
    (hi : M.labelToInstruction.find? l = some (.callInstruction v intra inter)) :
    ∃ e ∈ u.graph.edges, u.graph.getInterproceduralReturnEdge intra = .ok e ∧
      e.targetLabel = intra ∧ e.type = .interproceduralReturn := by
  obtain ⟨callee, hcallee, -, hexit⟩ := h.calls l v intra inter hi
  have hmem : (⟨callee.exitLabel, intra, some u.name, some l, .interproceduralReturn⟩ : Edge) ∈
      u.graph.getIncomingEdges intra := by
    refine List.mem_filter.mpr ⟨h.graph.mem_edges.mpr (Or.inr ⟨l, _, hi, ?_⟩), by simp⟩
    simp [Builder.instructionEdges, hexit, callEdges]
  unfold Cfg.getInterproceduralReturnEdge
  cases hfind : (u.graph.getIncomingEdges intra).find? (·.type = .interproceduralReturn) with
  | none => simpa using List.find?_eq_none.mp hfind _ hmem
  | some e =>
    obtain ⟨he, htarget⟩ := List.mem_filter.mp (List.mem_of_find?_eq_some hfind)
    have htype := List.find?_some hfind
    exact ⟨e, he, rfl, of_decide_eq_true htarget, of_decide_eq_true htype⟩

section Blocks

variable (h : u.BuiltFrom M exitLabels) {s : OrderedMap ℤ Unit} (hs : leaders u.graph = .ok s)
include h hs

theorem extension_ok {l : ℤ} (hl : s.find? l = some ()) {i : Instruction}
    (hi : M.labelToInstruction.find? l = some i) (hwrite : i.isWrite = true) :
    ∃ rest, extend u.graph s (u.graph.labelToVertex.entries.length + 1) l = .ok rest ∧
      Extension M s l rest ∧ blockLabels u.graph s l = l :: rest := by
  have hfuel : u.graph.labelToVertex.entries.length + 1 ≤
      ([] : List ℤ).length + (u.graph.labelToVertex.entries.length + 1) := by simp
  obtain ⟨rest, hok, hrest⟩ := h.extend_ok hs (.start hl) hi hwrite hfuel
  refine ⟨rest, hok, hrest, ?_⟩
  unfold blockLabels
  rw [h.instruction?_eq hi (isGoto_of_isWrite hwrite)]
  simp only [hwrite, if_true, hok]
  rfl

omit hs in
theorem blockLabels_of_not_write {l : ℤ}
    (hl : ∀ i, M.labelToInstruction.find? l = some i → i.isWrite = false) :
    blockLabels u.graph s l = [l] := by
  unfold blockLabels
  cases hi : u.graph.instruction? l with
  | none => rfl
  | some i =>
    unfold Cfg.instruction? at hi
    obtain ⟨v, hv, hvi⟩ := Option.bind_eq_some_iff.mp hi
    rcases (h.graph.vertex_iff h.closed).mp hv with ⟨-, rfl⟩ | ⟨-, rfl⟩ | ⟨j, hj, -, rfl⟩
    · cases hvi
    · cases hvi
    · cases hvi
      simp [hl i hj]

omit hs in
theorem extension_instructions {l : ℤ} {rest : List ℤ} (hrest : Extension M s l rest) :
    ∀ q ∈ rest, s.find? q = none ∧ ∃ i, M.labelToInstruction.find? q = some i ∧
      u.graph.instruction? q = some i ∧ i.isGoto = false := by
  have hng : ∀ {l t : ℤ} {i : Instruction},
      M.labelToInstruction.find? (l + 1) = some (.gotoInstruction t) →
      M.labelToInstruction.find? t = some i → i.isGoto = false := by
    intro l t i hgoto hi
    rcases h.closed.jumps hgoto t (by simp [Instruction.jumps, Instruction.targets]) with
      rfl | ⟨j, hj, hng⟩
    · have := h.within hi
      omega
    · rw [hi] at hj
      cases hj
      exact hng
  induction hrest with
  | stop _ _ =>
    intro q hq
    cases hq
  | last hgoto hnone hi _ =>
    intro q hq
    rw [List.mem_singleton.mp hq]
    exact ⟨hnone, _, hi, h.instruction?_eq hi (hng hgoto hi), hng hgoto hi⟩
  | more hgoto hnone hi _ _ ih =>
    intro q hq
    rcases List.mem_cons.mp hq with rfl | hq
    · exact ⟨hnone, _, hi, h.instruction?_eq hi (hng hgoto hi), hng hgoto hi⟩
    · exact ih q hq

omit h hs in
theorem outgoingEdges_self (cfg : Cfg) (l : ℤ) : (cfg.getOutgoingEdges l).map (fun e =>
    ({ sourceLabel := e.sourceLabel, targetLabel := e.targetLabel, type := e.type } : Edge)) =
      outgoingEdges cfg l l := by
  apply List.map_congr_left
  intro e he
  rw [of_decide_eq_true (List.mem_filter.mp he).2]

theorem sequenceEdges_ok {l last : ℤ} {i : Instruction} (hne : last ≠ l)
    (hi : M.labelToInstruction.find? last = some i) (hgoto : i.isGoto = false)
    (hnone : s.find? last = none) :
    sequenceEdges u.graph l last =
      .ok (outgoingEdges u.graph l last ++ returnEdges u.graph l last) := by
  unfold sequenceEdges returnEdges outgoingEdges
  rw [h.instructionOf_eq hi hgoto, h.instruction?_eq hi hgoto]
  cases i with
  | assignmentInstruction _ _ _ => simp [bind, Except.bind]
  | havocInstruction _ => simp [bind, Except.bind]
  | ifInstruction _ _ _ => simp [bind, Except.bind]
  | gotoInstruction _ => cases hgoto
  | whileInstruction c a b =>
    rw [h.leader_of_instruction hs hi hgoto (by simp [instructionLeads])] at hnone
    cases hnone
  | callInstruction v intra inter =>
    obtain ⟨e, -, he, -, -⟩ := h.getInterproceduralReturnEdge_ok hi
    simp only [bind, Except.bind, (h.getEdgeOfType_call hi).2, he, if_neg hne]

theorem writeBlock_ok {l : ℤ} (hl : s.find? l = some ()) {i : Instruction}
    (hi : M.labelToInstruction.find? l = some i) (hwrite : i.isWrite = true) :
    writeBlock u.graph s l i = .ok (blockVertex u.graph s l, blockEdges u.graph s l) := by
  obtain ⟨rest, hok, hrest, hlabels⟩ := h.extension_ok hs hl hi hwrite
  have hgoto := isGoto_of_isWrite hwrite
  have hself := h.instruction?_eq hi hgoto
  have hall := h.extension_instructions hrest
  unfold writeBlock blockVertex blockEdges blockLast
  rw [hok, hlabels, h.vertex_of_instruction hi hgoto]
  simp only [bind, Except.bind, Option.map_some, Option.getD_some]
  cases hlast : rest.getLast? with
  | none =>
    obtain rfl := List.getLast?_eq_none_iff.mp hlast
    obtain ⟨t, hfollows⟩ := h.closed.follows hi hwrite
    have hreturn : returnEdges u.graph l l = [] := by
      unfold returnEdges
      rw [hself]
      cases i <;> first | rfl | cases hwrite
    simp only [h.getOutgoingEdges_write hi hwrite hfollows, List.filterMap_cons, hself,
      List.filterMap_nil, blockInstruction, List.getLastD_cons, List.getLastD_nil, hreturn,
      outgoingEdges, List.map_cons, List.map_nil, List.append_nil]
  | some last =>
    obtain ⟨hnone, j, hj, hjself, hjgoto⟩ := hall last (List.mem_of_getLast? hlast)
    have hne : last ≠ l := by
      rintro rfl
      rw [hl] at hnone
      cases hnone
    have hmapM : (l :: rest).mapM (instructionOf u.graph) =
        .ok ((l :: rest).map fun q => (u.graph.instruction? q).getD i) := by
      apply mapM_eq_ok
      intro q hq
      rcases List.mem_cons.mp hq with rfl | hq
      · rw [h.instructionOf_eq hi hgoto, hself]
        rfl
      · obtain ⟨-, k, hk, hkself, hkgoto⟩ := hall q hq
        rw [h.instructionOf_eq hk hkgoto, hkself]
        rfl
    have hfilter : ((l :: rest).filterMap u.graph.instruction?) =
        (l :: rest).map fun q => (u.graph.instruction? q).getD i := by
      rw [← List.filterMap_eq_map]
      apply List.filterMap_congr
      intro q hq
      rcases List.mem_cons.mp hq with rfl | hq
      · simp [hself]
      · obtain ⟨-, k, -, hkself, -⟩ := hall q hq
        simp [hkself]
    have hsequence : blockInstruction ((l :: rest).map fun q => (u.graph.instruction? q).getD i) =
        some (.sequenceInstruction ((l :: rest).map fun q => (u.graph.instruction? q).getD i)) := by
      cases rest with
      | nil => cases hlast
      | cons q rest => rfl
    have hlastD : (l :: rest).getLastD l = last := by
      rw [List.getLastD_cons, List.getLastD_eq_getLast?, hlast]
      rfl
    simp only [hmapM, h.sequenceEdges_ok hs hne hj hjgoto hnone, hfilter, hsequence, hlastD]

/-- Every leader gets its block. -/
theorem block_ok {l : ℤ} (hl : s.find? l = some ()) :
    block u.graph s l = .ok (blockVertex u.graph s l, blockEdges u.graph s l) := by
  have hlt := h.closed.entry_lt_exit
  have hnone : ∀ {l v}, u.graph.labelToVertex.find? l = some v → v.instruction = none →
      u.graph.instruction? l = none := by
    intro l v hv hvi
    unfold Cfg.instruction?
    rw [hv]
    exact hvi
  obtain ⟨v, hv⟩ := h.leader_vertex hs hl
  unfold block
  rw [h.graph.entry, h.graph.exit]
  rcases (h.graph.vertex_iff h.closed).mp hv with ⟨rfl, rfl⟩ | ⟨rfl, rfl⟩ | ⟨i, hi, hgoto, rfl⟩
  · have hself := hnone hv rfl
    rw [if_pos rfl, h.getOutgoingEdges_entry]
    unfold blockVertex blockEdges blockLast blockLabels
    simp [hself, hv, blockInstruction, returnEdges, outgoingEdges, h.getOutgoingEdges_entry]
  · have hself := hnone hv rfl
    rw [if_neg (ne_of_gt hlt), if_pos rfl, h.getOutgoingEdges_exit]
    unfold blockVertex blockEdges blockLast blockLabels
    simp [hself, hv, blockInstruction, returnEdges, outgoingEdges, h.getOutgoingEdges_exit]
  · obtain ⟨hl₁, hl₂⟩ := h.within hi
    have hself := h.instruction?_eq hi hgoto
    have hvertex : u.graph.getVertex l = .ok { label := l, instruction := some i } := by
      unfold Cfg.getVertex
      rw [hv]
    rw [if_neg (ne_of_gt hl₁), if_neg (ne_of_lt hl₂), hvertex]
    simp only [bind, Except.bind]
    have hsingle : i.isWrite = false → blockVertex u.graph s l =
          { label := l, instruction := some (.instruction i) } ∧
        blockEdges u.graph s l = outgoingEdges u.graph l l ++ returnEdges u.graph l l := by
      intro hwrite
      have hlabels : blockLabels u.graph s l = [l] := h.blockLabels_of_not_write fun j hj => by
        rw [hi] at hj
        cases hj
        exact hwrite
      unfold blockVertex blockEdges blockLast
      rw [hlabels, hv]
      simp [hself, blockInstruction]
    cases i with
    | gotoInstruction _ => cases hgoto
    | assignmentInstruction type r e => exact h.writeBlock_ok hs hl hi rfl
    | havocInstruction r => exact h.writeBlock_ok hs hl hi rfl
    | ifInstruction c t x =>
      obtain ⟨hvertex, hedges⟩ := hsingle rfl
      simp only [hvertex, hedges, outgoingEdges_self, returnEdges, hself, List.append_nil]
    | whileInstruction c t x =>
      obtain ⟨hvertex, hedges⟩ := hsingle rfl
      simp only [hvertex, hedges, outgoingEdges_self, returnEdges, hself, List.append_nil]
    | callInstruction w intra inter =>
      obtain ⟨hvertex, hedges⟩ := hsingle rfl
      obtain ⟨hcall, hreturn⟩ := h.getEdgeOfType_call hi
      obtain ⟨e, -, he, -, -⟩ := h.getInterproceduralReturnEdge_ok hi
      simp only [hcall, hreturn, he, hvertex, hedges, outgoingEdges, returnEdges, hself,
        h.getOutgoingEdges_call hi, List.map_cons, List.map_nil, List.cons_append,
        List.nil_append, if_true]

theorem transform_ok : transform u.graph = .ok
    ⟨OrderedMap.empty.emplaceAll (s.keys.map fun l => (l, blockVertex u.graph s l)),
      s.keys.flatMap (blockEdges u.graph s), u.graph.entryLabel, u.graph.exitLabel⟩ := by
  have hblocks : s.keys.mapM (block u.graph s) =
      .ok (s.keys.map fun l => (blockVertex u.graph s l, blockEdges u.graph s l)) := by
    apply mapM_eq_ok
    intro l hl
    obtain ⟨e, he, rfl⟩ := List.mem_map.mp hl
    exact h.block_ok hs ((OrderedMap.find?_eq_some_iff _ _ _).mpr he)
  unfold transform
  rw [hs]
  simp only [bind, Except.bind, hblocks, List.map_map, List.flatMap_map]
  rfl

omit h hs in
theorem mem_keys {l : ℤ} : l ∈ s.keys ↔ s.find? l = some () := by
  rw [OrderedMap.mem_keys_iff]
  exact ⟨fun ⟨_, hl⟩ => hl, fun hl => ⟨(), hl⟩⟩

omit h hs in
theorem find?_blocks (cfg : Cfg) (l : ℤ) :
    (OrderedMap.empty.emplaceAll (s.keys.map fun l => (l, blockVertex cfg s l))).find? l =
      if s.find? l = some () then some (blockVertex cfg s l) else none := by
  have hlookup : ∀ (ls : List ℤ), OrderedMap.lookup l (ls.map fun l => (l, blockVertex cfg s l)) =
      if l ∈ ls then some (blockVertex cfg s l) else none := by
    intro ls
    induction ls with
    | nil => rfl
    | cons q ls ih =>
      rw [List.map_cons, OrderedMap.lookup, ih]
      by_cases hl : l = q
      · simp [hl]
      · simp [hl]
  rw [OrderedMap.find?_emplaceAll, OrderedMap.find?_empty, Option.none_or, hlookup]
  simp only [mem_keys]

end Blocks

end CallUnit.BuiltFrom

end Ahorn
