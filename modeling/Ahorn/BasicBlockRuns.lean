import Mathlib.Logic.Relation
import Mathlib.Data.List.Chain
import Ahorn.BlockGraphs
import Ahorn.CallRuns
import Ahorn.ProjectTrees

set_option autoImplicit false

/-!
# The runs of graphs of basic blocks

A block is a chain of labels in which control has no choice. So the blocks hold every reachable
vertex once, and the runs of a program stay what they are.
-/
namespace Ahorn

def HasEdge (edges : List Edge) (l t : ℤ) (type : EdgeType) : Prop :=
  ∃ e ∈ edges, e.sourceLabel = l ∧ e.targetLabel = t ∧ e.type = type

def EdgeType.ofOutcome : Option Bool → EdgeType
  | none => .intraprocedural
  | some true => .trueBranch
  | some false => .falseBranch

/-- The frame of a caller keeps the label behind the call, so that control comes back without a
return edge. -/
def flowOf (actions : ℤ → Option (List Instruction)) (edges : List Edge) (entry exit : ℤ) :
    FlowGraph ℤ Instruction where
  actions := actions
  next l d t := HasEdge edges l t (.ofOutcome d)
  call l callee t :=
    HasEdge edges l callee .interproceduralCall ∧ HasEdge edges l t .intraproceduralCallToReturn
  entry := entry
  exit := exit

def Cfg.flow (cfg : Cfg) : FlowGraph ℤ Instruction :=
  flowOf (fun l => (cfg.labelToVertex.find? l).map fun v => v.instruction.toList) cfg.edges
    cfg.entryLabel cfg.exitLabel

/-- The instructions of a block are executed one after the other. -/
def BlockCfg.flow (cfg : BlockCfg) : FlowGraph ℤ Instruction :=
  flowOf (fun l => (cfg.labelToVertex.find? l).map (·.instructions)) cfg.edges
    cfg.entryLabel cfg.exitLabel

/-- The label of a vertex to which edges lead from the entry. -/
def Cfg.Reachable (cfg : Cfg) (l : ℤ) : Prop :=
  (cfg.labelToVertex.find? l).isSome ∧ Relation.ReflTransGen
    (fun a b => ∃ e ∈ cfg.edges, e.sourceLabel = a ∧ e.targetLabel = b) cfg.entryLabel l

/-- The graph `cfg'` has a vertex for each block of `cfg`. -/
structure FormsBlocks (cfg : Cfg) (cfg' : BlockCfg) (block : ℤ → List ℤ) : Prop where
  entry : cfg'.entryLabel = cfg.entryLabel
  exit : cfg'.exitLabel = cfg.exitLabel
  /-- A block begins with its own label and holds the instructions of its labels in order. -/
  vertex : ∀ {l v}, cfg'.labelToVertex.find? l = some v → v.label = l ∧
    (∃ w, cfg.labelToVertex.find? l = some w ∧ v.type = w.type) ∧
    (∃ rest, block l = l :: rest) ∧ (block l).Nodup ∧
    v.instructions = (block l).filterMap cfg.instruction?
  unique : ∀ {l}, cfg.Reachable l → ∃! b, (cfg'.labelToVertex.find? b).isSome ∧ l ∈ block b
  /-- From a label inside a block control goes to the next one only, and from there only. -/
  order : ∀ {b pre l t suf}, (cfg'.labelToVertex.find? b).isSome →
    block b = pre ++ l :: t :: suf → HasEdge cfg.edges l t .intraprocedural ∧
      (∀ e ∈ cfg.edges, e.sourceLabel = l → e.targetLabel = t) ∧
      ∀ e ∈ cfg.edges, e.targetLabel = t → e.sourceLabel = l

namespace CallUnit.BuiltFrom

open BasicBlockPass

variable {u : CallUnit Cfg} {M : Module} {exitLabels : String → Option ℤ}

/-- A write is followed by a label that is no leader. -/
def Follows (M : Module) (s : OrderedMap ℤ Unit) (l t : ℤ) : Prop :=
  M.labelToInstruction.find? (l + 1) = some (.gotoInstruction t) ∧ s.find? t = none

/-- The labels of the block of a leader. -/
structure IsBlock (M : Module) (s : OrderedMap ℤ Unit) (l : ℤ) (ls : List ℤ) : Prop where
  begins : ∃ rest, ls = l :: rest
  chain : ls.IsChain (Follows M s)
  ends : ∀ {pre a b}, ls = pre ++ [a] → ¬ Follows M s a b
  nodup : ls.Nodup

theorem Extension.chain {s : OrderedMap ℤ Unit} {l : ℤ} {rest : List ℤ}
    (h : Extension M s l rest) : (l :: rest).IsChain (Follows M s) := by
  induction h with
  | stop _ _ => exact .singleton _
  | last hgoto hnone _ _ => exact .cons_cons ⟨hgoto, hnone⟩ (.singleton _)
  | more hgoto hnone _ _ _ ih => exact .cons_cons ⟨hgoto, hnone⟩ ih

theorem Extension.walk {s : OrderedMap ℤ Unit} {l : ℤ} {rest : List ℤ}
    (h : Extension M s l rest) :
    ∀ {ls : List ℤ}, Walk M s (l :: ls) → Walk M s (rest.reverse ++ l :: ls) := by
  induction h with
  | stop _ _ => exact id
  | last hgoto hnone _ _ => exact fun hw => hw.step hgoto hnone
  | more hgoto hnone _ _ _ ih =>
    intro ls hw
    have hmore := ih (hw.step hgoto hnone)
    simpa using hmore

theorem Extension.ends {s : OrderedMap ℤ Unit} {l : ℤ} {rest : List ℤ}
    (h : Extension M s l rest) (hclosed : M.Closed) :
    ∀ {pre : List ℤ} {a b : ℤ}, l :: rest = pre ++ [a] → ¬ Follows M s a b := by
  induction h with
  | @stop l t hgoto ht =>
    intro pre a b heq hfollows
    cases pre with
    | nil =>
      cases heq
      obtain ⟨hgoto', hnone⟩ := hfollows
      rw [hgoto] at hgoto'
      cases hgoto'
      rw [ht] at hnone
      cases hnone
    | cons p pre => simp at heq
  | @last l t i hgoto hnone hi hwrite =>
    intro pre a b heq hfollows
    have ha : a = t := by
      have hlast := congrArg List.getLast? heq
      simpa using hlast.symm
    subst ha
    obtain ⟨j, hj, hw⟩ := hclosed.preceded hfollows.1
    rw [add_sub_cancel_right, hi] at hj
    cases hj
    rw [hwrite] at hw
    cases hw
  | @more l t i rest hgoto hnone hi hwrite _ ih =>
    intro pre a b heq
    cases pre with
    | nil => simp at heq
    | cons p pre => exact ih (List.cons.inj heq).2

section Blocks

variable (h : u.BuiltFrom M exitLabels) {s : OrderedMap ℤ Unit} (hs : leaders u.graph = .ok s)
include h hs

theorem isBlock {l : ℤ} (hl : s.find? l = some ()) : IsBlock M s l (blockLabels u.graph s l) := by
  by_cases hwrite : ∃ i, M.labelToInstruction.find? l = some i ∧ i.isWrite = true
  · obtain ⟨i, hi, hwrite⟩ := hwrite
    obtain ⟨rest, -, hrest, hlabels⟩ := h.extension_ok hs hl hi hwrite
    rw [hlabels]
    refine ⟨⟨rest, rfl⟩, hrest.chain, hrest.ends h.closed, ?_⟩
    have hnodup := (h.walk_nodup hs (hrest.walk (.start hl))).1
    rw [← List.nodup_reverse]
    simpa using hnodup
  · have hlabels := h.blockLabels_of_not_write (s := s) (l := l) fun i hi => by
      cases hw : i.isWrite with
      | false => rfl
      | true => exact absurd ⟨i, hi, hw⟩ hwrite
    rw [hlabels]
    refine ⟨⟨[], rfl⟩, .singleton _, ?_, by simp⟩
    intro pre a b heq hfollows
    have ha : a = l := by
      have hlast := congrArg List.getLast? heq
      simpa using hlast.symm
    subst ha
    obtain ⟨j, hj, hw⟩ := h.closed.preceded hfollows.1
    rw [add_sub_cancel_right] at hj
    exact hwrite ⟨j, hj, hw⟩

omit hs in
theorem getOutgoingEdges_of_follows {a b : ℤ} (hf : Follows M s a b) :
    u.graph.getOutgoingEdges a = [{ sourceLabel := a, targetLabel := b }] := by
  obtain ⟨j, hj, hw⟩ := h.closed.preceded hf.1
  rw [add_sub_cancel_right] at hj
  exact h.getOutgoingEdges_write hj hw hf.1

omit hs in
theorem within_of_follows {a b : ℤ} (hf : Follows M s a b) :
    M.entryLabel < a ∧ a < M.exitLabel := by
  obtain ⟨j, hj, -⟩ := h.closed.preceded hf.1
  rw [add_sub_cancel_right] at hj
  exact h.within hj

theorem source_of_follows {a b : ℤ} (hf : Follows M s a b) {e : Edge} (he : e ∈ u.graph.edges)
    (htarget : e.targetLabel = b) : e.sourceLabel = a := by
  by_contra hne
  obtain ⟨v, hv⟩ := h.goto_vertex hf.1
  have hleader := h.leader_of_edges hs hv he (h.goto_edge hf.1) htarget rfl fun heq =>
    hne (congrArg Edge.sourceLabel heq)
  rw [hf.2] at hleader
  cases hleader

theorem follows_of_edge {e : Edge} (he : e ∈ u.graph.edges) {v : Vertex}
    (hv : u.graph.labelToVertex.find? e.targetLabel = some v)
    (hnone : s.find? e.targetLabel = none) : Follows M s e.sourceLabel e.targetLabel := by
  have hno : s.find? e.targetLabel ≠ some () := by
    rw [hnone]
    exact fun hno => by cases hno
  have hlt := h.closed.entry_lt_exit
  have hrange : M.entryLabel ≤ e.targetLabel ∧ e.targetLabel ≤ M.exitLabel := by
    rcases (h.graph.vertex_iff h.closed).mp hv with ⟨ht, -⟩ | ⟨ht, -⟩ | ⟨i, hi, -, -⟩
    · omega
    · omega
    · have := h.within hi
      omega
  rcases h.edge_cases he with rfl | ⟨l, i, t, hi, hwrite, hgoto, rfl⟩ | ⟨l, c, t, x, hi, he⟩ |
    ⟨l, v, intra, inter, callee, hcallee, hi, hentry, he⟩
  · exact absurd (h.leader_entry hs).2 hno
  · exact ⟨hgoto, hnone⟩
  · have hleads : e.targetLabel = t ∨ e.targetLabel = x := by
      rcases he with rfl | rfl
      · exact Or.inl rfl
      · exact Or.inr rfl
    rcases hi with hi | hi <;>
      exact absurd (h.leader_of_instruction hs hi rfl (by
        rcases hleads with ht | ht <;> simp [instructionLeads, ht])) hno
  · have hapart := h.apart callee hcallee
    have hintra := h.leader_of_instruction (m := intra) hs hi rfl (by simp [instructionLeads])
    simp only [callEdges, List.mem_cons, List.not_mem_nil, or_false] at he
    rcases he with rfl | rfl | rfl
    · simp only at hrange
      omega
    · exact absurd hintra hno
    · exact absurd hintra hno

omit h hs in
theorem IsBlock.follows {l : ℤ} {ls : List ℤ} (hb : IsBlock M s l ls) {q : ℤ} (hq : q ∈ ls)
    (hne : q ≠ l) : ∃ p ∈ ls, Follows M s p q := by
  obtain ⟨pre, suf, rfl⟩ := List.append_of_mem hq
  rcases List.eq_nil_or_concat pre with rfl | ⟨pre, p, rfl⟩
  · obtain ⟨rest, heq⟩ := hb.begins
    exact absurd (List.cons.inj heq).1 hne
  · have hchain := hb.chain
    simp only [List.concat_eq_append, List.append_assoc, List.cons_append, List.nil_append]
      at hchain
    exact ⟨p, by simp, (List.isChain_cons_cons.mp hchain.right_of_append).1⟩

omit h hs in
theorem IsBlock.next {l : ℤ} {ls : List ℤ} (hb : IsBlock M s l ls) {pre suf : List ℤ} {a b : ℤ}
    (heq : ls = pre ++ a :: b :: suf) : Follows M s a b := by
  have hchain := hb.chain
  rw [heq] at hchain
  exact (List.isChain_cons_cons.mp hchain.right_of_append).1

omit h hs in
theorem IsBlock.mem_of_follows {l : ℤ} {ls : List ℤ} (hb : IsBlock M s l ls) {a b : ℤ}
    (ha : a ∈ ls) (hf : Follows M s a b) : b ∈ ls := by
  obtain ⟨pre, suf, heq⟩ := List.append_of_mem ha
  cases suf with
  | nil => exact absurd hf (hb.ends heq)
  | cons c suf =>
    have hc := (hb.next heq).1
    rw [hf.1] at hc
    cases hc
    rw [heq]
    simp

omit h hs in
theorem IsBlock.first_mem {l : ℤ} {ls : List ℤ} (hb : IsBlock M s l ls) : l ∈ ls := by
  obtain ⟨rest, rfl⟩ := hb.begins
  exact List.mem_cons_self

theorem isBlock_unique {a b q : ℤ} {as bs : List ℤ} (ha : s.find? a = some ())
    (hb : s.find? b = some ()) (hba : IsBlock M s a as) (hbb : IsBlock M s b bs) (hqa : q ∈ as)
    (hqb : q ∈ bs) : a = b := by
  have hpath : ∀ {l ls}, IsBlock M s l ls → q ∈ ls →
      Relation.ReflTransGen (Function.swap (Follows M s)) q l := by
    rintro l ls hblock hq
    obtain ⟨rest, rfl⟩ := hblock.begins
    have hpairs := (hblock.chain.imp fun _ _ hr => Relation.ReflTransGen.single hr).pairwise
    rcases List.mem_cons.mp hq with rfl | hq
    · exact .refl
    · exact Relation.reflTransGen_swap.mpr (List.rel_of_pairwise_cons hpairs hq)
  have hunique : Relator.RightUnique (Function.swap (Follows M s)) := fun x y z hy hz =>
    h.goto_unique hs hy.1 hz.1 hy.2
  have hstart : ∀ {l m}, s.find? l = some () →
      Relation.ReflTransGen (Function.swap (Follows M s)) l m → l = m := by
    intro l m hl hlm
    cases hlm.cases_head with
    | inl heq => exact heq
    | inr hex =>
      obtain ⟨p, hf, -⟩ := hex
      rw [show s.find? l = none from hf.2] at hl
      cases hl
  rcases Relation.ReflTransGen.total_of_right_unique hunique (hpath hba hqa) (hpath hbb hqb) with
    hab | hab
  · exact hstart ha hab
  · exact (hstart hb hab).symm

theorem mem_isBlock {l : ℤ} (hl : u.graph.Reachable l) :
    ∃ b, s.find? b = some () ∧ l ∈ blockLabels u.graph s b := by
  obtain ⟨hsome, hreach⟩ := hl
  rw [h.graph.entry] at hreach
  induction hreach with
  | refl =>
    have hentry := (h.leader_entry hs).1
    exact ⟨_, hentry, (h.isBlock hs hentry).first_mem⟩
  | @tail a b _ hedge ih =>
    obtain ⟨e, he, rfl, rfl⟩ := hedge
    cases hleader : s.find? e.targetLabel with
    | some _ => exact ⟨_, hleader, (h.isBlock hs hleader).first_mem⟩
    | none =>
      obtain ⟨v, hv⟩ := Option.isSome_iff_exists.mp hsome
      have hf := h.follows_of_edge hs he hv hleader
      obtain ⟨i, hi, hwrite⟩ := h.closed.preceded hf.1
      rw [add_sub_cancel_right] at hi
      have hsource := h.vertex_of_instruction hi (isGoto_of_isWrite hwrite)
      obtain ⟨m, hm, hmem⟩ := ih (by rw [hsource]; rfl)
      exact ⟨m, hm, (h.isBlock hs hm).mem_of_follows hmem hf⟩

omit h hs in
theorem hasEdge_iff {cfg : Cfg} {l t : ℤ} {type : EdgeType} : HasEdge cfg.edges l t type ↔
    ∃ e ∈ cfg.getOutgoingEdges l, e.targetLabel = t ∧ e.type = type := by
  unfold HasEdge Cfg.getOutgoingEdges
  simp only [List.mem_filter, decide_eq_true_eq, and_assoc]

omit h hs in
theorem hasEdge_blocks {l t : ℤ} {type : EdgeType} (hl : s.find? l = some ())
    (htype : type ≠ .interproceduralReturn) :
    HasEdge (s.keys.flatMap (blockEdges u.graph s)) l t type ↔
      HasEdge u.graph.edges (blockLast u.graph s l) t type := by
  rw [hasEdge_iff]
  constructor
  · rintro ⟨e, he, hsource, htarget, rfl⟩
    obtain ⟨q, -, he⟩ := List.mem_flatMap.mp he
    rcases List.mem_append.mp he with he | he
    · obtain ⟨e₀, he₀, rfl⟩ := List.mem_map.mp he
      obtain rfl : q = l := hsource
      exact ⟨e₀, he₀, htarget, rfl⟩
    · refine absurd ?_ htype
      unfold returnEdges at he
      split at he
      · split at he
        · rw [List.mem_singleton.mp he]
        · cases he
      · cases he
  · rintro ⟨e, he, rfl, rfl⟩
    refine ⟨_, List.mem_flatMap.mpr ⟨l, mem_keys.mpr hl, List.mem_append_left _
      (List.mem_map_of_mem he)⟩, rfl, rfl, rfl⟩

omit h hs in
theorem blockLast_eq {l a : ℤ} {pre : List ℤ}
    (heq : blockLabels u.graph s l = pre ++ [a]) : blockLast u.graph s l = a := by
  unfold blockLast
  rw [heq]
  simp

theorem transform_eq : ∃ cfg', transform u.graph = .ok cfg' ∧
    cfg'.entryLabel = u.graph.entryLabel ∧ cfg'.exitLabel = u.graph.exitLabel ∧
    cfg'.edges = s.keys.flatMap (blockEdges u.graph s) ∧ ∀ l, cfg'.labelToVertex.find? l =
      if s.find? l = some () then some (blockVertex u.graph s l) else none :=
  ⟨_, h.transform_ok hs, rfl, rfl, rfl, find?_blocks u.graph⟩

theorem isBlock_vertex {l q : ℤ} (hl : s.find? l = some ()) (hq : q ∈ blockLabels u.graph s l) :
    ∃ v, u.graph.labelToVertex.find? q = some v := by
  by_cases hne : q = l
  · exact hne ▸ h.leader_vertex hs hl
  · obtain ⟨p, -, hf⟩ := (h.isBlock hs hl).follows hq hne
    exact h.goto_vertex hf.1

theorem formsBlocks {cfg' : BlockCfg} (hentry : cfg'.entryLabel = u.graph.entryLabel)
    (hexit : cfg'.exitLabel = u.graph.exitLabel)
    (hvertex : ∀ l, cfg'.labelToVertex.find? l =
      if s.find? l = some () then some (blockVertex u.graph s l) else none) :
    FormsBlocks u.graph cfg' (blockLabels u.graph s) := by
  have hleader : ∀ {l}, (cfg'.labelToVertex.find? l).isSome ↔ s.find? l = some () := by
    intro l
    rw [hvertex]
    split_ifs with hl <;> simp [hl]
  refine ⟨hentry, hexit, ?_, ?_, ?_⟩
  · intro l v hv
    have hl : s.find? l = some () := hleader.mp (by rw [hv]; rfl)
    obtain ⟨w, hw⟩ := h.leader_vertex hs hl
    have hblock := h.isBlock hs hl
    rw [hvertex, if_pos hl] at hv
    cases hv
    refine ⟨rfl, ⟨w, hw, ?_⟩, hblock.begins, hblock.nodup,
      BlockVertex.instructions_blockVertex _ _ _⟩
    simp [blockVertex, hw]
  · intro l hl
    obtain ⟨b, hb, hmem⟩ := h.mem_isBlock hs hl
    refine ⟨b, ⟨hleader.mpr hb, hmem⟩, ?_⟩
    rintro c ⟨hc, hmem'⟩
    exact h.isBlock_unique hs (hleader.mp hc) hb (h.isBlock hs (hleader.mp hc)) (h.isBlock hs hb)
      hmem' hmem
  · intro b pre l t suf hb heq
    have hf := (h.isBlock hs (hleader.mp hb)).next heq
    refine ⟨⟨_, h.goto_edge hf.1, rfl, rfl, rfl⟩, ?_, fun e he htarget =>
      h.source_of_follows hs hf he htarget⟩
    intro e he hsource
    have hmem : e ∈ u.graph.getOutgoingEdges l := List.mem_filter.mpr ⟨he, by simp [hsource]⟩
    rw [h.getOutgoingEdges_of_follows hf] at hmem
    rw [List.mem_singleton.mp hmem]

/-- The labels of a block do together what the vertex of the block does. -/
theorem contracts {cfg' : BlockCfg} (hentry : cfg'.entryLabel = u.graph.entryLabel)
    (hexit : cfg'.exitLabel = u.graph.exitLabel)
    (hedges : cfg'.edges = s.keys.flatMap (blockEdges u.graph s))
    (hvertex : ∀ l, cfg'.labelToVertex.find? l =
      if s.find? l = some () then some (blockVertex u.graph s l) else none) :
    u.graph.flow.Contracts cfg'.flow (blockLabels u.graph s) := by
  have hleader : ∀ {l}, (cfg'.flow.actions l).isSome ↔ s.find? l = some () := by
    intro l
    simp only [BlockCfg.flow, flowOf, hvertex]
    split_ifs with hl <;> simp [hl]
  have hactions : ∀ {l v}, u.graph.labelToVertex.find? l = some v →
      u.graph.flow.actions l = some v.instruction.toList := by
    intro l v hv
    simp [Cfg.flow, flowOf, hv]
  have hlast : ∀ {l t pre a type}, s.find? l = some () → type ≠ .interproceduralReturn →
      blockLabels u.graph s l = pre ++ [a] →
      (HasEdge cfg'.edges l t type ↔ HasEdge u.graph.edges a t type) := by
    intro l t pre a type hl htype heq
    rw [hedges, hasEdge_blocks hl htype, blockLast_eq heq]
  have houtcome : ∀ d, EdgeType.ofOutcome d ≠ .interproceduralReturn := by
    intro d
    rcases d with _ | _ | _ <;> simp [EdgeType.ofOutcome]
  refine ⟨hentry, hexit, ?_, ?_, ?_, ?_, ?_, ?_⟩
  · rw [hleader]
    change s.find? cfg'.entryLabel = _
    rw [hentry, h.graph.entry]
    exact (h.leader_entry hs).1
  · exact fun hl => (h.isBlock hs (hleader.mp hl)).begins
  · intro l as hl
    have hl' : s.find? l = some () := hleader.mp (by rw [hl]; rfl)
    constructor
    · simp only [BlockCfg.flow, flowOf, hvertex, if_pos hl', Option.map_some,
        Option.some.injEq] at hl
      rw [← hl, BlockVertex.instructions_blockVertex, List.filterMap_eq_flatMap_toList]
      unfold FlowGraph.actionsOf
      congr 1
      funext q
      simp only [Cfg.instruction?, Cfg.flow, flowOf]
      cases u.graph.labelToVertex.find? q <;> rfl
    · intro q hq
      obtain ⟨v, hv⟩ := h.isBlock_vertex hs hl' hq
      rw [hactions hv]
      rfl
  · intro l pre a b suf hl heq
    have hf := (h.isBlock hs (hleader.mp hl)).next heq
    have hout := h.getOutgoingEdges_of_follows hf
    have hrange := h.within_of_follows hf
    refine ⟨?_, ?_, ?_⟩
    · intro d t
      simp only [Cfg.flow, flowOf, hasEdge_iff, hout, List.mem_singleton, exists_eq_left]
      rcases d with _ | _ | _ <;> simp [EdgeType.ofOutcome, eq_comm]
    · rintro e r ⟨hcall, -⟩
      rw [hasEdge_iff, hout] at hcall
      simp at hcall
    · change a ≠ u.graph.exitLabel
      rw [h.graph.exit]
      omega
  · intro l pre a hl heq
    have hl' := hleader.mp hl
    have hblock := h.isBlock hs hl'
    refine ⟨fun d t => hlast hl' (houtcome d) heq, fun e r => and_congr
      (hlast hl' (by decide) heq) (hlast hl' (by decide) heq), ?_⟩
    change l = u.graph.exitLabel ↔ a = u.graph.exitLabel
    rw [h.graph.exit]
    by_cases hne : a = l
    · rw [hne]
    · obtain ⟨p, -, hf⟩ := hblock.follows (by rw [heq]; simp) hne
      constructor
      · intro hexit
        have hno : blockLabels u.graph s l = [l] := h.blockLabels_of_not_write fun i hi => by
          have := h.within hi
          omega
        rw [hno] at heq
        have hlast := congrArg List.getLast? heq
        exact absurd (by simpa using hlast.symm) hne
      · intro hexit
        have hnone := hf.2
        rw [hexit, h.leader_exit hs] at hnone
        cases hnone
  · intro l pre a hl heq
    have hl' := hleader.mp hl
    refine ⟨?_, ?_⟩
    · rintro d t ⟨e, he, rfl, rfl, -⟩ hsome
      rw [hleader]
      cases hnone : s.find? e.targetLabel with
      | some _ => rfl
      | none =>
        simp only [Cfg.flow, flowOf, Option.isSome_map] at hsome
        obtain ⟨v, hv⟩ := Option.isSome_iff_exists.mp hsome
        exact absurd (h.follows_of_edge hs he hv hnone) ((h.isBlock hs hl').ends heq)
    · rintro e r ⟨-, e', he', rfl, rfl, htype⟩
      rw [hleader]
      rcases h.edge_cases he' with rfl | ⟨q, i, t, -, -, -, rfl⟩ | ⟨q, c, t, x, -, he'⟩ |
        ⟨q, v, intra, inter, callee, -, hi, -, he'⟩
      · cases htype
      · cases htype
      · rcases he' with rfl | rfl <;> cases htype
      · have hintra := h.leader_of_instruction (m := intra) hs hi rfl (by simp [instructionLeads])
        simp only [callEdges, List.mem_cons, List.not_mem_nil, or_false] at he'
        rcases he' with rfl | rfl | rfl
        · cases htype
        · exact hintra
        · exact hintra

end Blocks

end CallUnit.BuiltFrom

namespace BasicBlockPass

theorem transform_built {u : CallUnit Cfg} (h : u.Built) : ∃ cfg', transform u.graph = .ok cfg' ∧
    (∃ block, FormsBlocks u.graph cfg' block) ∧ Contracted Cfg.flow BlockCfg.flow u.graph cfg' := by
  obtain ⟨M, exitLabels, h⟩ := h
  obtain ⟨s, hs, -⟩ := h.leaders_ok
  obtain ⟨cfg', hok, hentry, hexit, hedges, hvertex⟩ := h.transform_eq hs
  exact ⟨cfg', hok, ⟨_, h.formsBlocks hs hentry hexit hvertex⟩,
    ⟨_, h.contracts hs hentry hexit hedges hvertex⟩⟩

theorem apply_ok {t : CallTree Cfg} (h : t.Built) : ∃ t', apply t = .ok t' ∧
    ∀ {R : Cfg → BlockCfg → Prop},
      (∀ u ∈ t.units, ∀ cfg', transform u.graph = .ok cfg' → R u.graph cfg') → t.Rel R t' := by
  obtain ⟨⟨t', ⟨⟩⟩, hok⟩ := t.apply_ok
    (f := fun cfg (_ : Unit) => (transform cfg).map fun cfg' => (cfg', ())) () fun u hu s => by
      obtain ⟨cfg', hcfg, -⟩ := transform_built (h u hu)
      exact ⟨(cfg', ()), by rw [hcfg]; rfl⟩
  refine ⟨t', by unfold apply; rw [hok]; rfl, ?_⟩
  intro R hR
  refine t.apply_rel () t' () hok ?_
  rintro u hu cfg' ⟨s, s', hmakes⟩
  obtain ⟨cfg'', hcfg, -⟩ := transform_built (h u hu)
  dsimp only at hmakes
  rw [hcfg] at hmakes
  cases hmakes
  exact hR u hu _ hcfg

/-- The pass forms the blocks of every unit, and runs, also those through callees, stay the
same. -/
theorem apply_formsBlocks (t : CallTree Cfg) (h : t.Built) : ∃ t', apply t = .ok t' ∧
    t.Rel (fun cfg cfg' => ∃ block, FormsBlocks cfg cfg' block) t' ∧
    t'.traces BlockCfg.flow = t.traces Cfg.flow := by
  obtain ⟨t', hok, hrel⟩ := apply_ok h
  refine ⟨t', hok, hrel ?_, CallTree.traces_contract (hrel ?_)⟩
  · intro u hu cfg' hcfg
    obtain ⟨cfg'', hcfg', hforms, -⟩ := transform_built (h u hu)
    rw [hcfg] at hcfg'
    cases hcfg'
    exact hforms
  · intro u hu cfg' hcfg
    obtain ⟨cfg'', hcfg', -, hcontracts⟩ := transform_built (h u hu)
    rw [hcfg] at hcfg'
    cases hcfg'
    exact hcontracts

section Choosing

def condition : Variable := ⟨"x", .bool, .input, none⟩

def chosen : Variable := ⟨"y", .int, .local, none⟩

def firstInstance : Variable := ⟨"f", .derivedType "First", .local, none⟩

def secondInstance : Variable := ⟨"g", .derivedType "Second", .local, none⟩

/-- `IF x THEN y := 1; f(); ELSE g(); END_IF;` -/
def choosingBody : StatementList :=
  .cons (.ifStatement (.reference (.variableAccess condition))
    (.cons (.assignmentStatement (.variableAccess chosen) (.integerConstant 1))
      (.cons (.invocationStatement firstInstance [] []) .nil)) .nil
    (.cons (.invocationStatement secondInstance [] []) .nil)) .nil

def emptyInterface : Interface := .ofVariables [] (by decide)

def choosingInterface : Interface :=
  .ofVariables [condition, chosen, firstInstance, secondInstance] (by decide)

/-- A program calls one of two function blocks. Both return to the end of the program. -/
def choosing : SourceProject where
  toProject := .ranked
    (((OrderedMap.empty.emplace "First" emptyInterface).emplace "Second" emptyInterface).emplace
      "Main" choosingInterface)
    (fun name => if name = "Main" then 1 else 0) (by decide)
  bodyOf := fun name => if name = "Main" then choosingBody else .nil
  declared := by
    intro name i hi v hv
    by_cases h : name = "Main"
    · subst h
      obtain rfl : choosingInterface = i := Option.some.inj hi
      revert v
      decide
    · rw [if_neg h] at hv
      cases hv

def choosingTree : Except String (CallTree Cfg) :=
  choosing.compileModules 4 >>= fun c => choosing.callTree c 4 "Main"

theorem choosingTree_built {t : CallTree Cfg} (h : choosingTree = .ok t) : t.Built := by
  obtain ⟨c, hc, ht⟩ := bind_eq_ok h
  exact SourceProject.compileModules_built hc ht

theorem choosingTree_formsBlocks : ∃ t, choosingTree = .ok t ∧ ∃ t', apply t = .ok t' ∧
    t.Rel (fun cfg cfg' => ∃ block, FormsBlocks cfg cfg' block) t' ∧
    t'.traces BlockCfg.flow = t.traces Cfg.flow :=
  ⟨_, rfl, apply_formsBlocks _ (choosingTree_built rfl)⟩

end Choosing

end BasicBlockPass

end Ahorn
