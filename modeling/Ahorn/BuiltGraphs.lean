import Ahorn.LoweringClosed

set_option autoImplicit false

/-!
# The graphs of closed modules

The builder gives the graph of a module one edge out of each assignment and havoc, two out of each
branch, and to each call its edges into the callee, behind the call and back from the callee.
-/
namespace Ahorn

/-- The edges of a call. The edge back starts at the exit of the callee. -/
def callEdges (name : String) (label exitLabel intra inter : ℤ) : List Edge :=
  [{ sourceLabel := label, targetLabel := inter, type := .interproceduralCall },
    { sourceLabel := label, targetLabel := intra, type := .intraproceduralCallToReturn },
    { sourceLabel := exitLabel, targetLabel := intra, callerName := some name,
      callLabel := some label, type := .interproceduralReturn }]

namespace Builder

variable (exitLabels : String → Option ℤ) (name : String)

def exitLabelOf (v : Variable) : Option ℤ :=
  match v.dataType with
  | .derivedType callee => exitLabels callee
  | _ => none

def instructionEdges (label : ℤ) : Instruction → List Edge
  | .callInstruction v intra inter =>
    callEdges name label ((exitLabelOf exitLabels v).getD 0) intra inter
  | i => i.intraproceduralEdges label

/-- Only instances of units that have a graph are called. -/
def CallsKnown (i : Instruction) : Prop :=
  ∀ {v intra inter}, i = .callInstruction v intra inter →
    ∃ exitLabel, exitLabelOf exitLabels v = some exitLabel

variable {exitLabels} {name}

theorem visit_ok {label : ℤ} {b : Builder} {i : Instruction} (h : CallsKnown exitLabels i) :
    ∃ b', b.visit exitLabels name label i = .ok b' ∧
      b'.edges = b.edges ++ instructionEdges exitLabels name label i ∧
      ∀ l, b'.labelToVertex.find? l =
        if l = label ∧ i.isGoto = false then
          some { (b.labelToVertex.find? label).getD { label := label } with instruction := some i }
        else b.labelToVertex.find? l := by
  cases hcall : i.isCall with
  | false =>
    obtain ⟨b', hok, hedges, hvertices⟩ := visit_spec exitLabels name label b hcall
    refine ⟨b', hok, ?_, hvertices⟩
    cases i <;> first | exact hedges | cases hcall
  | true =>
    cases i <;> simp only [Instruction.isCall, Bool.false_eq_true] at hcall
    rename_i v intra inter
    obtain ⟨exitLabel, hexit⟩ := h rfl
    refine ⟨(b.setInstruction label (.callInstruction v intra inter)).pushEdges
      (callEdges name label exitLabel intra inter), ?_, ?_, ?_⟩
    · unfold exitLabelOf at hexit
      unfold visit
      split at hexit
      · rename_i callee hcallee
        simp only [hcallee, hexit]
        rfl
      · cases hexit
    · change _ = b.edges ++ callEdges name label ((exitLabelOf exitLabels v).getD 0) intra inter
      rw [hexit]
      rfl
    · intro l
      simp [Instruction.isGoto, setInstruction, pushEdges, OrderedMap.find?_assign]

theorem visitAll_ok {is : List (ℤ × Instruction)} (b : Builder)
    (hs : is.Pairwise (fun x y => x.1 < y.1)) (h : ∀ x ∈ is, CallsKnown exitLabels x.2) :
    ∃ b', visitAll exitLabels name is b = .ok b' ∧
      b'.edges = b.edges ++ is.flatMap (fun x => instructionEdges exitLabels name x.1 x.2) ∧
      ∀ l, b'.labelToVertex.find? l =
        vertexAt l (b.labelToVertex.find? l) (OrderedMap.lookup l is) := by
  induction is generalizing b with
  | nil => exact ⟨b, rfl, by simp, fun l => rfl⟩
  | cons x rest ih =>
    obtain ⟨label, i⟩ := x
    obtain ⟨b₁, h₁, hedges₁, hvertices₁⟩ := @Builder.visit_ok _ name label b _
      (h _ List.mem_cons_self)
    obtain ⟨b', h', hedges, hvertices⟩ :=
      ih b₁ hs.of_cons fun x hx => h x (List.mem_cons_of_mem _ hx)
    refine ⟨b', ?_, ?_, ?_⟩
    · simp [visitAll, h₁, h', bind, Except.bind]
    · rw [hedges, hedges₁, List.flatMap_cons, List.append_assoc]
    · intro l
      rw [hvertices, hvertices₁]
      have hrest : OrderedMap.lookup label rest = none :=
        OrderedMap.lookup_eq_none_of_lt fun x hx => List.rel_of_pairwise_cons hs hx
      by_cases hl : l = label
      · subst hl
        cases hg : i.isGoto <;> simp [OrderedMap.lookup, hrest, vertexAt, hg]
      · simp [OrderedMap.lookup, hl]

end Builder

/-- The graph that the builder makes of a module. -/
structure Cfg.BuiltFrom (cfg : Cfg) (M : Module) (exitLabels : String → Option ℤ) (name : String) :
    Prop where
  entry : cfg.entryLabel = M.entryLabel
  exit : cfg.exitLabel = M.exitLabel
  edges : cfg.edges = { sourceLabel := M.entryLabel, targetLabel := M.entryLabel + 1 } ::
    M.labelToInstruction.entries.flatMap
      (fun x => Builder.instructionEdges exitLabels name x.1 x.2)
  vertices : ∀ l, cfg.labelToVertex.find? l =
    Builder.vertexAt l ((Builder.start M.entryLabel M.exitLabel).labelToVertex.find? l)
      (M.labelToInstruction.find? l)

theorem Module.build_ok {M : Module} {exitLabels : String → Option ℤ} (name : String)
    (h : ∀ {l i}, M.labelToInstruction.find? l = some i → Builder.CallsKnown exitLabels i) :
    ∃ cfg, Builder.build exitLabels name M = .ok cfg ∧ cfg.BuiltFrom M exitLabels name := by
  obtain ⟨b, hb, hedges, hvertices⟩ := @Builder.visitAll_ok exitLabels name _
    (Builder.start M.entryLabel M.exitLabel) M.labelToInstruction.sorted
    (fun x hx => h ((OrderedMap.find?_eq_some_iff _ _ _).mpr hx))
  exact ⟨_, by simp only [Builder.build, hb, bind, Except.bind]; rfl, rfl, rfl, hedges, hvertices⟩

namespace Cfg.BuiltFrom

variable {cfg : Cfg} {M : Module} {exitLabels : String → Option ℤ} {name : String}

theorem mem_edges (h : cfg.BuiltFrom M exitLabels name) {e : Edge} : e ∈ cfg.edges ↔
    e = { sourceLabel := M.entryLabel, targetLabel := M.entryLabel + 1 } ∨
      ∃ l i, M.labelToInstruction.find? l = some i ∧
        e ∈ Builder.instructionEdges exitLabels name l i := by
  rw [h.edges, List.mem_cons, List.mem_flatMap]
  simp only [Prod.exists, OrderedMap.find?_eq_some_iff]

theorem vertex_iff (h : cfg.BuiltFrom M exitLabels name) (hM : M.Closed) {l : ℤ} {v : Vertex} :
    cfg.labelToVertex.find? l = some v ↔
      (l = M.entryLabel ∧ { label := l, type := .entry } = v) ∨
      (l = M.exitLabel ∧ { label := l, type := .exit } = v) ∨
      ∃ i, M.labelToInstruction.find? l = some i ∧ i.isGoto = false ∧
        { label := l, instruction := some i } = v := by
  have hlt := hM.entry_lt_exit
  rw [h.vertices]
  simp only [Builder.start, OrderedMap.find?_emplace, OrderedMap.find?_empty]
  cases hi : M.labelToInstruction.find? l with
  | none =>
    by_cases hexit : l = M.exitLabel
    · have hentry : l ≠ M.entryLabel := by omega
      have hentry' : M.exitLabel ≠ M.entryLabel := by omega
      simp [Builder.vertexAt, hexit, hentry']
    · by_cases hentry : l = M.entryLabel
      · have hexit' : M.entryLabel ≠ M.exitLabel := by omega
        simp [Builder.vertexAt, hentry, hexit']
      · simp [Builder.vertexAt, hexit, hentry]
  | some i =>
    obtain ⟨habove, hbelow⟩ := (hM.instructions l).mp ⟨i, hi⟩
    have hentry : l ≠ M.entryLabel := by omega
    have hexit : l ≠ M.exitLabel := by omega
    cases hg : i.isGoto <;> simp [Builder.vertexAt, hentry, hexit, hg]

theorem exists_edge_out (h : cfg.BuiltFrom M exitLabels name) (hM : M.Closed) {l : ℤ} {v : Vertex}
    (hv : cfg.labelToVertex.find? l = some v) (hl : l ≠ cfg.exitLabel) :
    ∃ e ∈ cfg.edges, e.sourceLabel = l := by
  rcases (h.vertex_iff hM).mp hv with ⟨rfl, -⟩ | ⟨rfl, -⟩ | ⟨i, hi, hgoto, -⟩
  · exact ⟨_, h.mem_edges.mpr (Or.inl rfl), rfl⟩
  · exact absurd h.exit.symm hl
  · have hwrite : i.isWrite = true → ∃ e ∈ cfg.edges, e.sourceLabel = l := by
      intro hw
      obtain ⟨t, ht⟩ := hM.follows hi hw
      refine ⟨{ sourceLabel := l + 1 - 1, targetLabel := t }, h.mem_edges.mpr (Or.inr
        ⟨l + 1, _, ht, List.mem_cons_self⟩), ?_⟩
      simp
    have hedge : ∀ e, e ∈ Builder.instructionEdges exitLabels name l i → e.sourceLabel = l →
        ∃ e ∈ cfg.edges, e.sourceLabel = l := fun e he hsource =>
      ⟨e, h.mem_edges.mpr (Or.inr ⟨l, i, hi, he⟩), hsource⟩
    cases i with
    | assignmentInstruction _ _ _ => exact hwrite rfl
    | havocInstruction _ => exact hwrite rfl
    | gotoInstruction _ => cases hgoto
    | callInstruction v intra inter => exact hedge _ List.mem_cons_self rfl
    | ifInstruction e t x => exact hedge _ List.mem_cons_self rfl
    | whileInstruction e t x => exact hedge _ List.mem_cons_self rfl

end Cfg.BuiltFrom

end Ahorn
