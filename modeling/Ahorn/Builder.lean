import Ahorn.ControlFlowGraph
import Ahorn.LoweredCode

set_option autoImplicit false

/-!
# The builder of control-flow graphs

Each instruction of a module becomes a vertex with its edges; a goto becomes the edge out of the
preceding label.
-/
namespace Ahorn

structure Builder where
  labelToVertex : OrderedMap ℤ Vertex
  edges : List Edge

namespace Builder

/-- The vertex of a label, made on demand, with its instruction set. -/
def setInstruction (label : ℤ) (i : Instruction) (b : Builder) : Builder :=
  { b with
    labelToVertex :=
      b.labelToVertex.assign label
        { (b.labelToVertex.find? label).getD { label := label } with instruction := some i } }

def pushEdges (es : List Edge) (b : Builder) : Builder := { b with edges := b.edges ++ es }

def visit (exitLabels : String → Option ℤ) (name : String) (label : ℤ) (b : Builder) :
    Instruction → Except String Builder
  | .assignmentInstruction type r e =>
    .ok (b.setInstruction label (.assignmentInstruction type r e))
  | .callInstruction v intra inter =>
    match v.dataType with
    | .derivedType callee =>
      match exitLabels callee with
      | none => .error "_name_to_cfg.at"
      | some exitLabel =>
        .ok ((b.setInstruction label (.callInstruction v intra inter)).pushEdges
          [{ sourceLabel := label, targetLabel := inter, type := .interproceduralCall },
            { sourceLabel := label, targetLabel := intra, type := .intraproceduralCallToReturn },
            { sourceLabel := exitLabel, targetLabel := intra, callerName := some name,
              callLabel := some label, type := .interproceduralReturn }])
    | _ => .error "_name_to_cfg.at"
  | .ifInstruction e t x =>
    .ok ((b.setInstruction label (.ifInstruction e t x)).pushEdges
      [{ sourceLabel := label, targetLabel := t, type := .trueBranch },
        { sourceLabel := label, targetLabel := x, type := .falseBranch }])
  | .whileInstruction e t x =>
    .ok ((b.setInstruction label (.whileInstruction e t x)).pushEdges
      [{ sourceLabel := label, targetLabel := t, type := .trueBranch },
        { sourceLabel := label, targetLabel := x, type := .falseBranch }])
  | .gotoInstruction l => .ok (b.pushEdges [{ sourceLabel := label - 1, targetLabel := l }])
  | .havocInstruction r => .ok (b.setInstruction label (.havocInstruction r))

def visitAll (exitLabels : String → Option ℤ) (name : String) :
    List (ℤ × Instruction) → Builder → Except String Builder
  | [], b => .ok b
  | (l, i) :: rest, b => do
    let b ← b.visit exitLabels name l i
    visitAll exitLabels name rest b

/-- The graph before the instructions are visited. -/
def start (entryLabel exitLabel : ℤ) : Builder where
  labelToVertex :=
    (OrderedMap.empty.emplace entryLabel { label := entryLabel, type := .entry }).emplace exitLabel
      { label := exitLabel, type := .exit }
  edges := [{ sourceLabel := entryLabel, targetLabel := entryLabel + 1 }]

def build (exitLabels : String → Option ℤ) (name : String) (module : Module) :
    Except String Cfg := do
  let b ← visitAll exitLabels name module.labelToInstruction.entries
    (start module.entryLabel module.exitLabel)
  .ok ⟨b.labelToVertex, b.edges, module.entryLabel, module.exitLabel⟩

end Builder

namespace Instruction

def isCall : Instruction → Bool
  | callInstruction _ _ _ => true
  | _ => false

def isGoto : Instruction → Bool
  | gotoInstruction _ => true
  | _ => false

def intraproceduralEdges (label : ℤ) : Instruction → List Edge
  | ifInstruction _ t x | whileInstruction _ t x =>
    [{ sourceLabel := label, targetLabel := t, type := .trueBranch },
      { sourceLabel := label, targetLabel := x, type := .falseBranch }]
  | gotoInstruction l => [{ sourceLabel := label - 1, targetLabel := l }]
  | _ => []

end Instruction

namespace Builder

variable (exitLabels : String → Option ℤ) (name : String)

theorem visit_spec (label : ℤ) (b : Builder) {i : Instruction} (h : i.isCall = false) :
    ∃ b', b.visit exitLabels name label i = .ok b' ∧
      b'.edges = b.edges ++ i.intraproceduralEdges label ∧
      ∀ l, b'.labelToVertex.find? l =
        if l = label ∧ i.isGoto = false then
          some { (b.labelToVertex.find? label).getD { label := label } with instruction := some i }
        else b.labelToVertex.find? l := by
  cases i with
  | callInstruction _ _ _ => simp [Instruction.isCall] at h
  | gotoInstruction t =>
    exact ⟨_, rfl, rfl, fun l => by simp [Instruction.isGoto, pushEdges]⟩
  | assignmentInstruction _ _ _ =>
    exact ⟨_, rfl, by simp [setInstruction, Instruction.intraproceduralEdges],
      fun l => by simp [Instruction.isGoto, setInstruction, OrderedMap.find?_assign]⟩
  | havocInstruction _ =>
    exact ⟨_, rfl, by simp [setInstruction, Instruction.intraproceduralEdges],
      fun l => by simp [Instruction.isGoto, setInstruction, OrderedMap.find?_assign]⟩
  | ifInstruction _ _ _ =>
    exact ⟨_, rfl, rfl,
      fun l => by simp [Instruction.isGoto, setInstruction, pushEdges, OrderedMap.find?_assign]⟩
  | whileInstruction _ _ _ =>
    exact ⟨_, rfl, rfl,
      fun l => by simp [Instruction.isGoto, setInstruction, pushEdges, OrderedMap.find?_assign]⟩

/-- The vertex a label has once the instruction there is visited. -/
def vertexAt (label : ℤ) (v : Option Vertex) : Option Instruction → Option Vertex
  | some i => if i.isGoto then v else some { v.getD { label := label } with instruction := some i }
  | none => v

theorem visitAll_spec (is : List (ℤ × Instruction)) (b : Builder)
    (hs : is.Pairwise (fun x y => x.1 < y.1)) (hc : ∀ x ∈ is, x.2.isCall = false) :
    ∃ b', visitAll exitLabels name is b = .ok b' ∧
      (∀ e, e ∈ b'.edges ↔ e ∈ b.edges ∨ ∃ x ∈ is, e ∈ x.2.intraproceduralEdges x.1) ∧
      ∀ l, b'.labelToVertex.find? l =
        vertexAt l (b.labelToVertex.find? l) (OrderedMap.lookup l is) := by
  induction is generalizing b with
  | nil => exact ⟨b, rfl, by simp, fun l => rfl⟩
  | cons x rest ih =>
    obtain ⟨label, i⟩ := x
    obtain ⟨b₁, h₁, he₁, hv₁⟩ :=
      visit_spec exitLabels name label b (hc _ List.mem_cons_self)
    obtain ⟨b', h', he', hv'⟩ := ih b₁ hs.of_cons (fun x hx => hc x (List.mem_cons_of_mem _ hx))
    refine ⟨b', by simp [visitAll, h₁, h', bind, Except.bind], ?_, ?_⟩
    · intro e
      rw [he', he₁]
      simp [or_assoc]
    · intro l
      rw [hv', hv₁]
      have hrest : OrderedMap.lookup label rest = none :=
        OrderedMap.lookup_eq_none_of_lt fun x hx => List.rel_of_pairwise_cons hs hx
      by_cases hl : l = label
      · subst hl
        cases hg : i.isGoto <;> simp [OrderedMap.lookup, hrest, vertexAt, hg]
      · simp [OrderedMap.lookup, hl]

end Builder

/-- A module whose instructions lie between its entry and its exit, without calls. -/
structure Module.Plain (M : Module) : Prop where
  entry_lt_exit : M.entryLabel < M.exitLabel
  between : ∀ l i, M.labelToInstruction.find? l = some i → M.entryLabel < l ∧ l < M.exitLabel
  noCall : ∀ l i, M.labelToInstruction.find? l = some i → i.isCall = false

namespace Module

variable {M : Module} {exitLabels : String → Option ℤ} {name : String}

theorem Plain.find?_entry (h : M.Plain) : M.labelToInstruction.find? M.entryLabel = none := by
  by_contra hne
  obtain ⟨i, hi⟩ := Option.ne_none_iff_exists'.mp hne
  exact lt_irrefl _ (h.between _ _ hi).1

theorem Plain.find?_exit (h : M.Plain) : M.labelToInstruction.find? M.exitLabel = none := by
  by_contra hne
  obtain ⟨i, hi⟩ := Option.ne_none_iff_exists'.mp hne
  exact lt_irrefl _ (h.between _ _ hi).2

theorem Plain.find?_after_exit (h : M.Plain) :
    M.labelToInstruction.find? (M.exitLabel + 1) = none := by
  by_contra hne
  obtain ⟨i, hi⟩ := Option.ne_none_iff_exists'.mp hne
  have := (h.between _ _ hi).2
  omega

end Module

/-- The vertices and edges of a graph are those of the instructions of the module. -/
structure Cfg.Represents (cfg : Cfg) (M : Module) : Prop where
  entry : cfg.entryLabel = M.entryLabel
  exit : cfg.exitLabel = M.exitLabel
  edges : ∀ e, e ∈ cfg.edges ↔
    e = { sourceLabel := M.entryLabel, targetLabel := M.entryLabel + 1 } ∨
      ∃ l i, M.labelToInstruction.find? l = some i ∧ e ∈ i.intraproceduralEdges l
  vertices : ∀ l, cfg.labelToVertex.find? l =
    Builder.vertexAt l ((Builder.start M.entryLabel M.exitLabel).labelToVertex.find? l)
      (M.labelToInstruction.find? l)

theorem Module.Plain.build_represents {M : Module} (h : M.Plain)
    (exitLabels : String → Option ℤ) (name : String) :
    ∃ cfg, Builder.build exitLabels name M = .ok cfg ∧ cfg.Represents M := by
  obtain ⟨b, hb, he, hv⟩ := Builder.visitAll_spec exitLabels name
    M.labelToInstruction.entries (Builder.start M.entryLabel M.exitLabel)
    M.labelToInstruction.sorted
    (fun x hx => h.noCall x.1 x.2 ((OrderedMap.find?_eq_some_iff _ _ _).mpr hx))
  refine ⟨_, by simp only [Builder.build, hb, bind, Except.bind]; rfl, rfl, rfl, ?_, hv⟩
  intro e
  rw [he]
  simp only [Builder.start, List.mem_singleton, Prod.exists, OrderedMap.find?_eq_some_iff]

theorem StatementList.CodeAt.head {f : ℤ → Option Instruction} : (s : StatementList) →
    {l k : ℤ} → s.CodeAt f l k → l = k ∨ ∀ t, f l ≠ some (.gotoInstruction t)
  | .nil, _, _, h => Or.inl h
  | .cons s rest, l, k, ⟨c, hs, hrest⟩ => by
    have hbranch : ∀ {e : Expression} {b : Bool} {T E : ℤ → ℤ → Prop}, BranchAt f e b T E l c →
        l = k ∨ ∀ t, f l ≠ some (.gotoInstruction t) := by
      intro e b T E h
      rcases h with ⟨_, rfl⟩ | ⟨t, x, hf, _⟩
      · exact StatementList.CodeAt.head rest hrest
      · exact Or.inr (by simp [hf])
    match s, hs with
    | .assignmentStatement r e, ⟨hf, _⟩ =>
      refine Or.inr ?_
      cases e <;> simp [hf, PouCompiler.compileAssignment]
    | .ifStatement _ _ _ _, h => exact hbranch h
    | .caseStatement (.cons _ _ _) _, h => exact hbranch h
    | .whileStatement _ _, ⟨b, hf, _⟩ => exact Or.inr (by simp [hf])

namespace Cfg.Represents

variable {cfg : Cfg} {M : Module}

theorem find?_of_instruction (h : cfg.Represents M) {l : ℤ} {i : Instruction}
    (hi : M.labelToInstruction.find? l = some i) (hg : i.isGoto = false) :
    ∃ v, cfg.labelToVertex.find? l = some v ∧ v.instruction = some i := by
  rw [h.vertices, hi]
  simp [Builder.vertexAt, hg]

theorem find?_start (h : cfg.Represents M) {l : ℤ}
    (hi : ∀ i, M.labelToInstruction.find? l = some i → i.isGoto = true) :
    cfg.labelToVertex.find? l = (Builder.start M.entryLabel M.exitLabel).labelToVertex.find? l := by
  rw [h.vertices]
  cases hl : M.labelToInstruction.find? l with
  | none => rfl
  | some i => simp [Builder.vertexAt, hi i hl]

theorem mem_edges_intraprocedural (h : cfg.Represents M) {l t : ℤ} :
    { sourceLabel := l, targetLabel := t } ∈ cfg.edges ↔
      (l = M.entryLabel ∧ t = M.entryLabel + 1) ∨
        M.labelToInstruction.find? (l + 1) = some (.gotoInstruction t) := by
  rw [h.edges]
  simp only [Edge.mk.injEq, and_true]
  refine or_congr_right ⟨?_, ?_⟩
  · rintro ⟨l', i, hi, he⟩
    cases i <;> simp [Instruction.intraproceduralEdges] at he
    obtain ⟨rfl, rfl⟩ := he
    simpa using hi
  · intro hi
    exact ⟨l + 1, _, hi, by simp [Instruction.intraproceduralEdges]⟩

theorem mem_edges_branch (h : cfg.Represents M) {l t x : ℤ} {e : Expression} {b : Bool} {u : ℤ}
    (hi : M.labelToInstruction.find? l = some (.ifInstruction e t x) ∨
      M.labelToInstruction.find? l = some (.whileInstruction e t x)) :
    { sourceLabel := l, targetLabel := u, type := if b then .trueBranch else .falseBranch } ∈
      cfg.edges ↔ u = if b then t else x := by
  rw [h.edges]
  constructor
  · rintro (he | ⟨l', i, hl', he⟩)
    · cases b <;> simp at he
    · cases i <;> cases b <;> simp [Instruction.intraproceduralEdges] at he <;>
        obtain ⟨rfl, rfl⟩ := he <;> rcases hi with hi | hi <;> rw [hi] at hl' <;> cases hl' <;> rfl
  · rintro rfl
    refine Or.inr ?_
    rcases hi with hi | hi <;>
      exact ⟨l, _, hi, by cases b <;> simp [Instruction.intraproceduralEdges]⟩

theorem find?_instruction (h : cfg.Represents M) {l : ℤ} {v : Vertex}
    (hv : cfg.labelToVertex.find? l = some v) :
    v.instruction = M.labelToInstruction.find? l ∨
      ∃ t, M.labelToInstruction.find? l = some (.gotoInstruction t) := by
  rw [h.vertices] at hv
  cases hi : M.labelToInstruction.find? l with
  | some i =>
    cases hg : i.isGoto with
    | true =>
      cases i <;> simp [Instruction.isGoto] at hg
      exact Or.inr ⟨_, rfl⟩
    | false =>
      simp only [hi, Builder.vertexAt, hg] at hv
      cases hv
      exact Or.inl rfl
  | none =>
    simp only [hi, Builder.vertexAt, Builder.start, OrderedMap.find?_emplace,
      OrderedMap.find?_empty] at hv
    split_ifs at hv <;> simp at hv <;> rw [← hv] <;> exact Or.inl rfl

/-- Away from the entry, the graph steps as the label-to-instruction map does. -/
theorem step_iff_flow (h : cfg.Represents M) (hM : M.Plain) {l : ℤ} (hl : l ≠ M.entryLabel)
    (m : Memory) (c : ℤ × Memory) :
    cfg.Step (l, m) c ↔ flow M.labelToInstruction.find? (l, m) = some c := by
  have hedge : ∀ {t : ℤ}, { sourceLabel := l, targetLabel := t } ∈ cfg.edges ↔
      M.labelToInstruction.find? (l + 1) = some (.gotoInstruction t) := by
    intro t
    rw [h.mem_edges_intraprocedural]
    simp [hl]
  have hgoto : ∀ {v : Vertex} {t : ℤ}, cfg.labelToVertex.find? l = some v →
      M.labelToInstruction.find? l ≠ some (.gotoInstruction t) := by
    intro v t hv hi
    rw [h.find?_start (by intro i hi'; rw [hi] at hi'; cases hi'; rfl)] at hv
    have hlt := (hM.between _ _ hi).2
    simp only [Builder.start, OrderedMap.find?_emplace, OrderedMap.find?_empty] at hv
    split_ifs at hv <;> omega
  constructor
  · intro hstep
    cases hstep with
    | @pass _ t _ v hv hi he =>
      rcases h.find?_instruction hv with hv' | ⟨t', ht'⟩
      · -- a vertex without an instruction is the exit, which no goto leaves
        rw [hi] at hv'
        have hgo := hedge.mp he
        rw [h.find?_start (by simp [← hv'])] at hv
        simp only [Builder.start, OrderedMap.find?_emplace, OrderedMap.find?_empty, if_neg hl] at hv
        by_cases hexit : l = M.exitLabel
        · rw [hexit, hM.find?_after_exit] at hgo
          cases hgo
        · simp [hexit] at hv
      · exact absurd ht' (hgoto hv)
    | @assignment _ t _ v type r e hv hi he =>
      rcases h.find?_instruction hv with hv' | ⟨t', ht'⟩
      · simp [flow, ← hv', hi, hedge.mp he]
      · exact absurd ht' (hgoto hv)
    | @havoc _ t _ v r hv hi he =>
      rcases h.find?_instruction hv with hv' | ⟨t', ht'⟩
      · simp [flow, ← hv', hi, hedge.mp he]
      · exact absurd ht' (hgoto hv)
    | @branch _ t _ v e hv hi he =>
      obtain ⟨t₁, t₂, hi⟩ := hi
      rcases h.find?_instruction hv with hv' | ⟨t', ht'⟩
      · rw [hv'] at hi
        rw [h.mem_edges_branch hi] at he
        rcases hi with hi | hi <;> simp [flow, hi, he]
      · exact absurd ht' (hgoto hv)
  · intro hflow
    cases hi : M.labelToInstruction.find? l with
    | none => simp [flow, hi] at hflow
    | some i =>
      cases hg : i.isGoto with
      | true => cases i <;> simp [Instruction.isGoto, flow, hi] at hg hflow
      | false =>
        obtain ⟨v, hv, hvi⟩ := h.find?_of_instruction hi hg
        cases i with
        | gotoInstruction _ => simp [Instruction.isGoto] at hg
        | callInstruction _ _ _ => simp [flow, hi] at hflow
        | assignmentInstruction type r e =>
          simp only [flow, hi] at hflow
          split at hflow
          · rename_i t ht
            cases hflow
            exact .assignment hv hvi (hedge.mpr ht)
          · cases hflow
        | havocInstruction r =>
          simp only [flow, hi] at hflow
          split at hflow
          · rename_i t ht
            cases hflow
            exact .havoc hv hvi (hedge.mpr ht)
          · cases hflow
        | ifInstruction e t x =>
          simp only [flow, hi] at hflow
          cases hflow
          exact .branch hv ⟨t, x, Or.inl hvi⟩ ((h.mem_edges_branch (Or.inl hi)).mpr rfl)
        | whileInstruction e t x =>
          simp only [flow, hi] at hflow
          cases hflow
          exact .branch hv ⟨t, x, Or.inr hvi⟩ ((h.mem_edges_branch (Or.inr hi)).mpr rfl)

/-- Executions of the graph from entry to exit are the executions of the structured program whose
code the module holds. -/
theorem terminates_iff (h : cfg.Represents M) (hM : M.Plain) {s : StatementList}
    (hc : s.CodeAt M.labelToInstruction.find? (M.entryLabel + 1) M.exitLabel) (m m' : Memory) :
    cfg.Terminates m m' ↔ Exec s m m' := by
  set f := M.labelToInstruction.find? with hf
  have hentry : f M.entryLabel = none := hM.find?_entry
  have hexit : f M.exitLabel = none := hM.find?_exit
  -- the entry is never reached again: code that ends at the exit does not lead there
  have hnever : ∀ m₁, ¬ Reaches (flow f) (M.entryLabel + 1, m) (M.entryLabel, m₁) := by
    rintro m₁ ⟨n, hn⟩
    obtain ⟨m₂, j, _, _, hrun⟩ := explained hentry n s _ _ _ hc hn
    have hend := hrun.end_unique (.refl _) (flow_end hentry m₁) (flow_end hexit m₂)
    exact absurd (congrArg Prod.fst hend) (ne_of_lt hM.entry_lt_exit)
  have hnext : Relation.ReflTransGen cfg.Step (M.entryLabel + 1, m) (M.exitLabel, m') ↔
      Reaches (flow f) (M.entryLabel + 1, m) (M.exitLabel, m') := by
    refine Reaches.iff_reflTransGen (P := Reaches (flow f) (M.entryLabel + 1, m)) ?_ ?_ (.refl _)
    · rintro ⟨l, m₁⟩ d hr
      refine h.step_iff_flow hM ?_ m₁ d
      rintro rfl
      exact hnever m₁ hr
    · intro c d hr hs
      exact hr.trans (.single hs)
  rw [← hc.reaches_iff hexit, ← hnext, Cfg.Terminates, h.entry, h.exit]
  have hfirst : ∀ c, cfg.Step (M.entryLabel, m) c ↔ c = (M.entryLabel + 1, m) := by
    intro c
    have hv : cfg.labelToVertex.find? M.entryLabel =
        some { label := M.entryLabel, type := .entry } := by
      rw [h.find?_start (by simp [← hf, hentry])]
      have := hM.entry_lt_exit
      simp [Builder.start, OrderedMap.find?_emplace, ne_of_lt this]
    constructor
    · intro hs
      cases hs with
      | pass _ _ he =>
        rcases h.mem_edges_intraprocedural.mp he with ⟨_, rfl⟩ | hg
        · rfl
        · rcases StatementList.CodeAt.head s hc with heq | hno
          · rw [← hf, heq, hexit] at hg
            cases hg
          · exact absurd hg (hno _)
      | assignment hv' hi _ => simp_all
      | havoc hv' hi _ => simp_all
      | branch hv' hi _ => simp_all
    · rintro rfl
      exact .pass hv rfl (h.mem_edges_intraprocedural.mpr (Or.inl ⟨rfl, rfl⟩))
  constructor
  · intro hrun
    rcases Relation.ReflTransGen.cases_head hrun with heq | ⟨c, hs, hrest⟩
    · exact absurd (congrArg Prod.fst heq) (ne_of_lt hM.entry_lt_exit)
    · rw [(hfirst c).mp hs] at hrest
      exact hrest
  · intro hrun
    exact .head ((hfirst _).mpr rfl) hrun

end Cfg.Represents

end Ahorn
