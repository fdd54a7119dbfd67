import Ahorn.EtfaTestSuite
import Ahorn.ShadowSimulation

set_option autoImplicit false

/-!
# The initial coverage of the bounded execution

The explorer starts with no vertex covered and marks what the history of a test case executes up to
the divergent context.
-/
namespace Ahorn

open Etfa (Coverage)

namespace Explorer

def coverVertex (v : Vertex) (coverage : Coverage) : Except String Coverage :=
  let statements := coverage.coveredStatements.emplace v.label false
  match v.type with
  | .entry | .exit => .ok ⟨statements, coverage.coveredBranches⟩
  | .regular =>
    match v.instruction with
    | none => .error "assertion failed: instruction != nullptr"
    | some (.assignmentInstruction _ _ _) | some (.havocInstruction _)
    | some (.callInstruction _ _ _) => .ok ⟨statements, coverage.coveredBranches⟩
    | some (.ifInstruction _ _ _) | some (.whileInstruction _ _ _) =>
      .ok ⟨statements, coverage.coveredBranches.emplace v.label (false, false)⟩
    | some (.gotoInstruction _) =>
      .error "Unexpected instruction encountered during coverage initialization."

def coverVertices : List (ℤ × Vertex) → Coverage → Except String Coverage
  | [], coverage => .ok coverage
  | (_, v) :: vertices, coverage => do
    let coverage ← coverVertex v coverage
    coverVertices vertices coverage

mutual

/-- The callees come before the vertices of the unit; the names of the units on the way are
remembered. -/
def initializeCoverage :
    CallTree UnitCfg → List String × Coverage → Except String (List String × Coverage)
  | .node name graph callees, (visited, coverage) =>
    if name ∈ visited then .error "assertion failed: visited_cfgs.find(name) == visited_cfgs.end()"
    else do
      let (visited, coverage) ← initializeCallees callees (name :: visited, coverage)
      let coverage ← coverVertices graph.labelToVertex.entries coverage
      .ok (visited, coverage)

def initializeCallees :
    CallForest UnitCfg → List String × Coverage → Except String (List String × Coverage)
  | .nil, s => .ok s
  | .cons callee rest, s =>
    if callee.name ∈ s.1 then initializeCallees rest s
    else do
      let s ← initializeCoverage callee s
      initializeCallees rest s

end

def coverSide (label : ℤ) (side : Bool) (coverage : Coverage) : Coverage :=
  match coverage.coveredBranches.find? label with
  | none => coverage
  | some sides =>
    ⟨coverage.coveredStatements, coverage.coveredBranches.assign label
      (if side then (true, sides.2) else (sides.1, true))⟩

/-- Mark the sides of a branch whose targets are among the labels of the stretch. -/
def coverEdges (s : Simulator.Stretch) (label : ℤ) : List Edge → Coverage → Except String Coverage
  | [], coverage => .ok coverage
  | edge :: edges, coverage =>
    if edge.targetLabel ∈ s.labels then
      if edge.type = .trueBranch then coverEdges s label edges (coverSide label true coverage)
      else if edge.type = .falseBranch then coverEdges s label edges (coverSide label false coverage)
      else .error "Unexpected edge type encountered."
    else coverEdges s label edges coverage

def coverStatement (label : ℤ) (coverage : Coverage) : Coverage :=
  match coverage.coveredStatements.find? label with
  | none => coverage
  | some _ => ⟨coverage.coveredStatements.assign label true, coverage.coveredBranches⟩

def coverLabel (s : Simulator.Stretch) (label : ℤ) (coverage : Coverage) : Except String Coverage :=
  match coverage.coveredBranches.find? label with
  | none => .ok (coverStatement label coverage)
  | some _ => coverEdges s label (s.cfg.getOutgoingEdges label) (coverStatement label coverage)

/-- The labels up to the divergent one, and whether it is among them. -/
def coverLabels (divergent : ℤ) (s : Simulator.Stretch) :
    List ℤ → Coverage → Except String (Coverage × Bool)
  | [], coverage => .ok (coverage, false)
  | label :: labels, coverage =>
    if label = divergent then .ok (coverage, true)
    else do
      let coverage ← coverLabel s label coverage
      coverLabels divergent s labels coverage

def coverStretches (divergent : ℤ) :
    List Simulator.Stretch → Coverage → Except String (Coverage × Bool)
  | [], coverage => .ok (coverage, false)
  | s :: stretches, coverage => do
    let (coverage, reached) ← coverLabels divergent s s.labels coverage
    if reached then .ok (coverage, true) else coverStretches divergent stretches coverage

def coverCycles (divergent : ℤ) (history : Simulator.History) :
    List ℕ → Coverage → Except String (Coverage × Bool)
  | [], coverage => .ok (coverage, false)
  | cycle :: cycles, coverage =>
    match history.find? cycle with
    | none => .error "map::at"
    | some stretches => do
      let (coverage, reached) ← coverStretches divergent stretches coverage
      if reached then .ok (coverage, true) else coverCycles divergent history cycles coverage

/-- The coverage up to a divergent context, of which the cycle and the label count. -/
def initializeWithHistory (main : CallTree UnitCfg) (cycle : ℕ) (label : ℤ) (history : Simulator.History) :
    Except String Coverage := do
  let (_, coverage) ← initializeCoverage main ([], ⟨.empty, .empty⟩)
  let (coverage, _) ← coverCycles label history (List.range (cycle + 1)) coverage
  .ok coverage

section Vertices

/-- A vertex is counted: it has an entry, as a branch too if it is one. -/
structure Counts (v : Vertex) (coverage : Coverage) : Prop where
  statement : ∃ value, coverage.coveredStatements.find? v.label = some value
  branch : v.IsBranch → ∃ sides, coverage.coveredBranches.find? v.label = some sides

/-- Nothing is covered, and only the labels of vertices of the program have entries. -/
structure Blank (main : CallTree UnitCfg) (coverage : Coverage) : Prop where
  statements : ∀ {l value}, coverage.coveredStatements.find? l = some value →
    value = false ∧ ∃ t v, main.Reaches t ∧ t.root.labelToVertex.find? l = some v
  branches : ∀ {l sides}, coverage.coveredBranches.find? l = some sides →
    sides = (false, false) ∧
      ∃ t v, main.Reaches t ∧ t.root.labelToVertex.find? l = some v ∧ v.IsBranch

/-- Entries are kept. -/
def Keeps (coverage coverage' : Coverage) : Prop :=
  ∀ v, Counts v coverage → Counts v coverage'

variable {main t : CallTree UnitCfg} {l : ℤ} {v : Vertex} {coverage : Coverage}

theorem exists_find?_emplace {ν : Type} (m : OrderedMap ℤ ν) (k : ℤ) (x : ν) :
    ∃ y, (m.emplace k x).find? k = some y := by
  rw [OrderedMap.find?_emplace, if_pos rfl]
  cases m.find? k with
  | none => exact ⟨x, rfl⟩
  | some y => exact ⟨y, rfl⟩

theorem find?_emplace_of_some {ν : Type} {m : OrderedMap ℤ ν} {q : ℤ} {y : ν} (k : ℤ) (x : ν)
    (h : m.find? q = some y) : (m.emplace k x).find? q = some y := by
  rw [OrderedMap.find?_emplace]
  split_ifs with hq
  · rw [← hq, h]
    rfl
  · exact h

theorem of_find?_emplace {ν : Type} {m : OrderedMap ℤ ν} {q k : ℤ} {x y : ν}
    (h : (m.emplace k x).find? q = some y) : m.find? q = some y ∨ q = k ∧ y = x := by
  rw [OrderedMap.find?_emplace] at h
  split_ifs at h with hq
  · subst hq
    cases hfind : m.find? q with
    | none =>
      rw [hfind] at h
      exact Or.inr ⟨rfl, (Option.some.inj h).symm⟩
    | some z =>
      rw [hfind] at h
      exact Or.inl h
  · exact Or.inl h

theorem coverVertex_eq (v : Vertex) (hv : v.Executable) (coverage : Coverage) :
    (v.IsBranch ∧ coverVertex v coverage = .ok ⟨coverage.coveredStatements.emplace v.label false,
      coverage.coveredBranches.emplace v.label (false, false)⟩) ∨
    (¬v.IsBranch ∧ coverVertex v coverage =
      .ok ⟨coverage.coveredStatements.emplace v.label false, coverage.coveredBranches⟩) := by
  unfold coverVertex Vertex.IsBranch
  cases htype : v.type with
  | entry => exact Or.inr ⟨fun h => absurd h.1 (by decide), rfl⟩
  | exit => exact Or.inr ⟨fun h => absurd h.1 (by decide), rfl⟩
  | regular =>
    obtain ⟨i, hi, hgoto⟩ := hv htype
    rw [hi]
    cases i with
    | ifInstruction e l₁ l₂ => exact Or.inl ⟨⟨rfl, e, l₁, l₂, Or.inl rfl⟩, rfl⟩
    | whileInstruction e l₁ l₂ => exact Or.inl ⟨⟨rfl, e, l₁, l₂, Or.inr rfl⟩, rfl⟩
    | gotoInstruction l => exact absurd rfl (hgoto l)
    | assignmentInstruction type r e => exact Or.inr ⟨by simp, rfl⟩
    | callInstruction called l₁ l₂ => exact Or.inr ⟨by simp, rfl⟩
    | havocInstruction r => exact Or.inr ⟨by simp, rfl⟩

theorem coverVertex_spec (hreached : main.Reaches t)
    (hv : t.root.labelToVertex.find? l = some v) (hlabel : v.label = l) (hexecutable : v.Executable)
    (hblank : Blank main coverage) :
    ∃ coverage', coverVertex v coverage = .ok coverage' ∧ Blank main coverage' ∧
      Keeps coverage coverage' ∧ Counts v coverage' := by
  subst hlabel
  have hstatements : ∀ {k value}, (coverage.coveredStatements.emplace v.label false).find? k =
      some value → value = false ∧ ∃ t v, main.Reaches t ∧ t.root.labelToVertex.find? k = some v := by
    intro k value hk
    rcases of_find?_emplace hk with hk | ⟨rfl, rfl⟩
    · exact hblank.statements hk
    · exact ⟨rfl, t, v, hreached, hv⟩
  rcases coverVertex_eq v hexecutable coverage with ⟨hbranch, heq⟩ | ⟨hbranch, heq⟩
  · refine ⟨_, heq, ⟨hstatements, fun hk => ?_⟩, fun w hw => ⟨?_, fun hwbranch => ?_⟩,
      exists_find?_emplace _ _ _, fun _ => exists_find?_emplace _ _ _⟩
    · rcases of_find?_emplace hk with hk | ⟨rfl, rfl⟩
      · exact hblank.branches hk
      · exact ⟨rfl, t, v, hreached, hv, hbranch⟩
    · obtain ⟨value, hvalue⟩ := hw.statement
      exact ⟨value, find?_emplace_of_some _ _ hvalue⟩
    · obtain ⟨sides, hsides⟩ := hw.branch hwbranch
      exact ⟨sides, find?_emplace_of_some _ _ hsides⟩
  · refine ⟨_, heq, ⟨hstatements, hblank.branches⟩, fun w hw => ⟨?_, hw.branch⟩,
      exists_find?_emplace _ _ _, fun hwbranch => absurd hwbranch hbranch⟩
    obtain ⟨value, hvalue⟩ := hw.statement
    exact ⟨value, find?_emplace_of_some _ _ hvalue⟩

theorem coverVertices_spec (hreached : main.Reaches t) (vertices : List (ℤ × Vertex))
    (hvertices : ∀ e ∈ vertices, t.root.labelToVertex.find? e.1 = some e.2 ∧ e.2.label = e.1 ∧
      e.2.Executable) (hblank : Blank main coverage) :
    ∃ coverage', coverVertices vertices coverage = .ok coverage' ∧ Blank main coverage' ∧
      Keeps coverage coverage' ∧ ∀ e ∈ vertices, Counts e.2 coverage' := by
  induction vertices generalizing coverage with
  | nil => exact ⟨coverage, rfl, hblank, fun _ h => h, by simp⟩
  | cons e vertices ih =>
    obtain ⟨⟨hfind, hlabel, hexecutable⟩, hrest⟩ := List.forall_mem_cons.mp hvertices
    obtain ⟨coverage₁, hcover, hblank₁, hkeeps₁, hcounts⟩ :=
      coverVertex_spec hreached hfind hlabel hexecutable hblank
    obtain ⟨coverage', hcover', hblank', hkeeps', hcounts'⟩ := ih hrest hblank₁
    refine ⟨coverage', ?_, hblank', fun v hv => hkeeps' v (hkeeps₁ v hv),
      List.forall_mem_cons.mpr ⟨hkeeps' _ hcounts, hcounts'⟩⟩
    unfold coverVertices
    rw [hcover]
    exact hcover'

end Vertices

section Units

/-- The units whose names are remembered, apart from those in progress, are counted, and the names of
their callees are remembered. -/
structure Initialized (main : CallTree UnitCfg) (visited progress : List String)
    (coverage : Coverage) : Prop extends Blank main coverage where
  complete : ∀ t, main.Reaches t → t.name ∈ visited → t.name ∉ progress →
    (∀ l v, t.root.labelToVertex.find? l = some v → Counts v coverage) ∧
      ∀ callee ∈ t.callees, callee.name ∈ visited

theorem Initialized.begin {main : CallTree UnitCfg} {visited progress : List String}
    {coverage : Coverage} (h : Initialized main visited progress coverage) (name : String) :
    Initialized main (name :: visited) (name :: progress) coverage := by
  refine ⟨h.toBlank, fun t hreached hvisited hprogress => ?_⟩
  have hne : t.name ≠ name := fun heq => hprogress (heq ▸ List.mem_cons_self)
  obtain ⟨hcounts, hcallees⟩ := h.complete t hreached ((List.mem_cons.mp hvisited).resolve_left hne)
    fun hmem => hprogress (List.mem_cons_of_mem _ hmem)
  exact ⟨hcounts, fun callee hcallee => List.mem_cons_of_mem _ (hcallees callee hcallee)⟩

mutual

theorem initializeCoverage_spec (p : ShadowProgram) : (t : CallTree UnitCfg) →
    (visited progress : List String) → (coverage : Coverage) → p.main.Reaches t →
    t.name ∉ visited → Initialized p.main visited progress coverage →
    ∃ visited' coverage', initializeCoverage t (visited, coverage) = .ok (visited', coverage') ∧
      Initialized p.main visited' progress coverage' ∧ visited ⊆ visited' ∧ t.name ∈ visited'
  | .node name graph callees, visited, progress, coverage, hreached, hnew, h => by
    obtain ⟨visited', coverage₁, hcallees, h₁, hsubset, hmem⟩ :=
      initializeCallees_spec p callees (name :: visited) (name :: progress) coverage
        (fun callee hcallee => hreached.tail hcallee) (h.begin name)
    obtain ⟨coverage', hvertices, hblank, hkeeps, hcounts⟩ :=
      coverVertices_spec hreached graph.labelToVertex.entries (fun e he => by
        have hfind := (OrderedMap.find?_eq_some_iff graph.labelToVertex e.1 e.2).mpr he
        exact ⟨hfind, p.executable hreached hfind⟩) h₁.toBlank
    refine ⟨visited', coverage', ?_, ⟨hblank, fun t ht hvisited hprogress => ?_⟩,
      fun x hx => hsubset (List.mem_cons_of_mem _ hx), hsubset List.mem_cons_self⟩
    · unfold initializeCoverage
      rw [if_neg (show name ∉ visited from hnew), hcallees]
      change (coverVertices graph.labelToVertex.entries coverage₁ >>= _) = _
      rw [hvertices]
      rfl
    · by_cases hname : t.name = name
      · have heq : t = .node name graph callees := p.named ht hreached hname
        subst heq
        refine ⟨fun l v hv => hcounts (l, v) ((OrderedMap.find?_eq_some_iff _ _ _).mp hv), hmem⟩
      · have hprogress' : t.name ∉ name :: progress := by
          rw [List.mem_cons]
          exact not_or.mpr ⟨hname, hprogress⟩
        obtain ⟨hcounts', hcallees'⟩ := h₁.complete t ht hvisited hprogress'
        exact ⟨fun l v hv => hkeeps v (hcounts' l v hv), hcallees'⟩

theorem initializeCallees_spec (p : ShadowProgram) : (ts : CallForest UnitCfg) →
    (visited progress : List String) → (coverage : Coverage) →
    (∀ t ∈ ts.toList, p.main.Reaches t) → Initialized p.main visited progress coverage →
    ∃ visited' coverage', initializeCallees ts (visited, coverage) = .ok (visited', coverage') ∧
      Initialized p.main visited' progress coverage' ∧ visited ⊆ visited' ∧
      ∀ t ∈ ts.toList, t.name ∈ visited'
  | .nil, visited, progress, coverage, _, h =>
    ⟨visited, coverage, rfl, h, List.Subset.refl _, fun _ ht => (List.not_mem_nil ht).elim⟩
  | .cons callee rest, visited, progress, coverage, hreached, h => by
    obtain ⟨hcallee, hrest⟩ := List.forall_mem_cons.mp hreached
    unfold initializeCallees
    by_cases hvisited : callee.name ∈ visited
    · obtain ⟨visited', coverage', hok, h', hsubset, hmem⟩ :=
        initializeCallees_spec p rest visited progress coverage hrest h
      rw [if_pos hvisited]
      exact ⟨visited', coverage', hok, h', hsubset,
        List.forall_mem_cons.mpr ⟨hsubset hvisited, hmem⟩⟩
    · obtain ⟨visited₁, coverage₁, hok, h₁, hsubset₁, hcallee'⟩ :=
        initializeCoverage_spec p callee visited progress coverage hcallee hvisited h
      obtain ⟨visited', coverage', hok', h', hsubset', hmem⟩ :=
        initializeCallees_spec p rest visited₁ progress coverage₁ hrest h₁
      rw [if_neg hvisited, hok]
      exact ⟨visited', coverage', hok', h', fun x hx => hsubset' (hsubset₁ hx),
        List.forall_mem_cons.mpr ⟨hsubset' hcallee', hmem⟩⟩

end

theorem exists_initialized (p : ShadowProgram) :
    ∃ visited coverage, initializeCoverage p.main ([], ⟨.empty, .empty⟩) = .ok (visited, coverage) ∧
      Blank p.main coverage ∧ ∀ t l v, p.main.Reaches t →
        t.root.labelToVertex.find? l = some v → Counts v coverage := by
  have hempty : Initialized p.main [] [] ⟨.empty, .empty⟩ :=
    { statements := fun h => nomatch h
      branches := fun h => nomatch h
      complete := fun t _ h => (List.not_mem_nil h).elim }
  obtain ⟨visited, coverage, hok, h, -, hmem⟩ :=
    initializeCoverage_spec p p.main [] [] _ .refl List.not_mem_nil hempty
  have hvisited : ∀ t, p.main.Reaches t → t.name ∈ visited := by
    intro t ht
    induction ht with
    | refl => exact hmem
    | @tail u callee hu hcallee ih =>
      exact (h.complete u hu ih List.not_mem_nil).2 callee hcallee
  exact ⟨visited, coverage, hok, h.toBlank, fun t l v ht hv =>
    (h.complete t ht (hvisited t ht) List.not_mem_nil).1 l v hv⟩

end Units

section Marks

open Simulator (Stretch items)

def sideType (side : Bool) : EdgeType := if side then .trueBranch else .falseBranch

/-- A branch in a stretch leads to a label of the stretch on one side. -/
def LeadsWithin (s : Stretch) (l : ℤ) (side : Bool) : Prop :=
  ∃ e ∈ s.cfg.getOutgoingEdges l, e.type = sideType side ∧ e.targetLabel ∈ s.labels

variable {s : Stretch} {label l : ℤ} {initial coverage : Coverage} {done : List (Stretch × ℤ)}

theorem coverSide_covers {sides : Bool × Bool} (h : coverage.coveredBranches.find? label = some sides)
    (side : Bool) (l : ℤ) (side' : Bool) :
    (coverSide label side coverage).Covers l side' ↔
      coverage.Covers l side' ∨ l = label ∧ side' = side := by
  unfold coverSide Coverage.Covers
  rw [h]
  dsimp only
  simp only [OrderedMap.find?_assign]
  by_cases hl : l = label
  · subst hl
    rw [if_pos rfl, h]
    cases side <;> cases side' <;> simp
  · rw [if_neg hl]
    simp [hl]

theorem coverSide_isSome (side : Bool) (l : ℤ) :
    ((coverSide label side coverage).coveredBranches.find? l).isSome =
      (coverage.coveredBranches.find? l).isSome := by
  unfold coverSide
  cases h : coverage.coveredBranches.find? label with
  | none => rfl
  | some sides =>
    dsimp only
    rw [OrderedMap.find?_assign]
    by_cases hl : l = label
    · rw [if_pos hl, hl, h]
      rfl
    · rw [if_neg hl]

theorem coverSide_statements (side : Bool) :
    (coverSide label side coverage).coveredStatements = coverage.coveredStatements := by
  unfold coverSide
  cases coverage.coveredBranches.find? label <;> rfl

theorem coverEdges_spec (edges : List Edge)
    (hkey : (coverage.coveredBranches.find? label).isSome = true)
    (hedges : ∀ e ∈ edges, e.type = .trueBranch ∨ e.type = .falseBranch) :
    ∃ coverage', coverEdges s label edges coverage = .ok coverage' ∧
      coverage'.coveredStatements = coverage.coveredStatements ∧
      (∀ l, (coverage'.coveredBranches.find? l).isSome =
        (coverage.coveredBranches.find? l).isSome) ∧
      ∀ l side, coverage'.Covers l side ↔ coverage.Covers l side ∨
        l = label ∧ ∃ e ∈ edges, e.type = sideType side ∧ e.targetLabel ∈ s.labels := by
  induction edges generalizing coverage with
  | nil => exact ⟨coverage, rfl, rfl, fun _ => rfl, by simp⟩
  | cons e edges ih =>
    obtain ⟨htype, hrest⟩ := List.forall_mem_cons.mp hedges
    unfold coverEdges
    by_cases htarget : e.targetLabel ∈ s.labels
    · obtain ⟨sides, hsides⟩ := Option.isSome_iff_exists.mp hkey
      have hside : ∃ side, e.type = sideType side := by
        rcases htype with htype | htype
        · exact ⟨true, htype⟩
        · exact ⟨false, htype⟩
      obtain ⟨side, hside⟩ := hside
      have hcover : (if e.type = .trueBranch then
          coverEdges s label edges (coverSide label true coverage)
        else if e.type = .falseBranch then
          coverEdges s label edges (coverSide label false coverage)
        else .error "Unexpected edge type encountered.") =
          coverEdges s label edges (coverSide label side coverage) := by
        rw [hside]
        cases side <;> rfl
      obtain ⟨coverage', hok, hstatements, hkeys, hcovers⟩ := @ih (coverSide label side coverage)
        (by rw [coverSide_isSome, hkey]) hrest
      refine ⟨coverage', ?_, hstatements.trans (coverSide_statements side),
        fun l => (hkeys l).trans (coverSide_isSome side l), fun l side' => ?_⟩
      · rw [if_pos htarget, hcover, hok]
      · rw [hcovers, coverSide_covers hsides, List.exists_mem_cons_iff, or_assoc, hside]
        have hsame : side' = side ↔ sideType side = sideType side' := by
          cases side <;> cases side' <;> decide
        rw [hsame]
        grind
    · obtain ⟨coverage', hok, hstatements, hkeys, hcovers⟩ := ih hkey hrest
      refine ⟨coverage', ?_, hstatements, hkeys, fun l side => ?_⟩
      · rw [if_neg htarget, hok]
      · rw [hcovers, List.exists_mem_cons_iff]
        grind

/-- What is marked after some labels, each with its stretch: the labels, and the sides of branches
that lead to labels of their stretch. -/
structure Marked (initial : Coverage) (done : List (Stretch × ℤ)) (coverage : Coverage) : Prop where
  statementKeys : ∀ l, (coverage.coveredStatements.find? l).isSome =
    (initial.coveredStatements.find? l).isSome
  branchKeys : ∀ l, (coverage.coveredBranches.find? l).isSome =
    (initial.coveredBranches.find? l).isSome
  statements : ∀ l, coverage.coveredStatements.find? l = some true ↔
    (initial.coveredStatements.find? l).isSome = true ∧ l ∈ done.map Prod.snd
  branches : ∀ l side, coverage.Covers l side ↔
    (initial.coveredBranches.find? l).isSome = true ∧ ∃ s, (s, l) ∈ done ∧ LeadsWithin s l side

theorem coverStatement_marked (h : Marked initial done coverage) (l : ℤ) :
    ((coverStatement label coverage).coveredStatements.find? l).isSome =
      (initial.coveredStatements.find? l).isSome ∧
    ((coverStatement label coverage).coveredStatements.find? l = some true ↔
      (initial.coveredStatements.find? l).isSome = true ∧
        (l ∈ done.map Prod.snd ∨ l = label)) := by
  have hkeys := h.statementKeys l
  have hstatements := h.statements l
  unfold coverStatement
  cases hfind : coverage.coveredStatements.find? label with
  | none =>
    refine ⟨hkeys, hstatements.trans ?_⟩
    constructor
    · rintro ⟨hsome, hmem⟩
      exact ⟨hsome, Or.inl hmem⟩
    · rintro ⟨hsome, hmem | rfl⟩
      · exact ⟨hsome, hmem⟩
      · rw [← hkeys, hfind] at hsome
        cases hsome
  | some value =>
    dsimp only
    rw [OrderedMap.find?_assign]
    split_ifs with hl
    · subst hl
      rw [← hkeys, hfind]
      simp
    · simp only [hl, or_false]
      exact ⟨hkeys, hstatements⟩

theorem coverLabel_spec (h : Marked initial done coverage)
    (htyped : (initial.coveredBranches.find? label).isSome = true →
      ∀ e ∈ s.cfg.getOutgoingEdges label, e.type = .trueBranch ∨ e.type = .falseBranch) :
    ∃ coverage', coverLabel s label coverage = .ok coverage' ∧
      Marked initial (done ++ [(s, label)]) coverage' := by
  have hbranches : (coverStatement label coverage).coveredBranches = coverage.coveredBranches := by
    unfold coverStatement
    cases coverage.coveredStatements.find? label <;> rfl
  have hcovers : ∀ l side, (coverStatement label coverage).Covers l side ↔
      coverage.Covers l side := by
    intro l side
    unfold Coverage.Covers
    rw [hbranches]
  have hdone : ∀ l, l ∈ (done ++ [(s, label)]).map Prod.snd ↔ l ∈ done.map Prod.snd ∨ l = label := by
    simp
  unfold coverLabel
  cases hfind : coverage.coveredBranches.find? label with
  | none =>
    refine ⟨_, rfl, fun l => (coverStatement_marked h l).1, fun l => ?_, fun l => ?_,
      fun l side => ?_⟩
    · rw [hbranches, h.branchKeys]
    · rw [(coverStatement_marked h l).2, hdone]
    · rw [hcovers, h.branches]
      have hnone : l = label → (initial.coveredBranches.find? l).isSome = false := by
        intro hl
        rw [hl, ← h.branchKeys, hfind]
        rfl
      grind
  | some sides =>
    have hkey : (initial.coveredBranches.find? label).isSome = true := by
      rw [← h.branchKeys, hfind]
      rfl
    obtain ⟨coverage', hok, hstatements, hkeys, hcovers'⟩ :=
      @coverEdges_spec s label (coverStatement label coverage) (s.cfg.getOutgoingEdges label)
        (by rw [hbranches, h.branchKeys, hkey]) (htyped hkey)
    refine ⟨coverage', hok, fun l => ?_, fun l => ?_, fun l => ?_, fun l side => ?_⟩
    · rw [hstatements]
      exact (coverStatement_marked h l).1
    · rw [hkeys, hbranches, h.branchKeys]
    · rw [hstatements, (coverStatement_marked h l).2, hdone]
    · rw [hcovers', hcovers, h.branches]
      unfold LeadsWithin
      grind

/-- The edges out of the label of an item are those of a branch, if it is one. -/
def Typed (initial : Coverage) (item : Stretch × ℤ) : Prop :=
  (initial.coveredBranches.find? item.2).isSome = true →
    ∀ e ∈ item.1.cfg.getOutgoingEdges item.2, e.type = .trueBranch ∨ e.type = .falseBranch

def before (divergent : ℤ) (items : List (Stretch × ℤ)) : List (Stretch × ℤ) :=
  items.takeWhile (·.2 ≠ divergent)

theorem before_append (divergent : ℤ) (items items' : List (Stretch × ℤ)) :
    before divergent (items ++ items') = before divergent items ++
      if divergent ∈ items.map Prod.snd then [] else before divergent items' := by
  induction items with
  | nil => rfl
  | cons item items ih =>
    unfold before at ih ⊢
    rw [List.cons_append, List.map_cons]
    by_cases heq : item.2 = divergent
    · rw [List.takeWhile_cons_of_neg (by simpa using heq),
        List.takeWhile_cons_of_neg (by simpa using heq),
        if_pos (List.mem_cons.mpr (Or.inl heq.symm))]
      rfl
    · have hne : ¬divergent = item.2 := fun h => heq h.symm
      rw [List.takeWhile_cons_of_pos (by simpa using heq),
        List.takeWhile_cons_of_pos (by simpa using heq), ih]
      simp only [List.mem_cons, hne, false_or]
      rfl

theorem coverLabels_spec (divergent : ℤ) (labels : List ℤ) (h : Marked initial done coverage)
    (htyped : ∀ l ∈ labels, Typed initial (s, l)) :
    ∃ coverage', coverLabels divergent s labels coverage =
        .ok (coverage', decide (divergent ∈ labels)) ∧
      Marked initial (done ++ before divergent (labels.map (s, ·))) coverage' := by
  induction labels generalizing done coverage with
  | nil =>
    refine ⟨coverage, rfl, ?_⟩
    rwa [List.map_nil, show before divergent [] = [] from rfl, List.append_nil]
  | cons label labels ih =>
    obtain ⟨hlabel, hlabels⟩ := List.forall_mem_cons.mp htyped
    unfold coverLabels
    by_cases heq : label = divergent
    · refine ⟨coverage, ?_, ?_⟩
      · rw [if_pos heq, heq]
        simp
      · unfold before
        rw [List.map_cons, List.takeWhile_cons_of_neg (by simpa using heq), List.append_nil]
        exact h
    · obtain ⟨coverage₁, hcover, h₁⟩ := coverLabel_spec h hlabel
      obtain ⟨coverage', hok, h'⟩ := ih h₁ hlabels
      refine ⟨coverage', ?_, ?_⟩
      · rw [if_neg heq, hcover]
        have hne : ¬divergent = label := fun h' => heq h'.symm
        simp only [List.mem_cons, hne, false_or]
        exact hok
      · unfold before at h' ⊢
        rw [List.map_cons, List.takeWhile_cons_of_pos (by simpa using heq), List.append_cons]
        exact h'

theorem coverStretches_spec (divergent : ℤ) (ss : List Stretch) (h : Marked initial done coverage)
    (htyped : ∀ item ∈ items ss, Typed initial item) :
    ∃ coverage', coverStretches divergent ss coverage =
        .ok (coverage', decide (divergent ∈ (items ss).map Prod.snd)) ∧
      Marked initial (done ++ before divergent (items ss)) coverage' := by
  induction ss generalizing done coverage with
  | nil =>
    refine ⟨coverage, rfl, ?_⟩
    rwa [show before divergent (items []) = [] from rfl, List.append_nil]
  | cons s ss ih =>
    rw [Simulator.items_cons] at htyped ⊢
    have hlabels : (s.labels.map (s, ·)).map Prod.snd = s.labels := by
      rw [List.map_map]
      exact List.map_id _
    obtain ⟨coverage₁, hcover, h₁⟩ := coverLabels_spec divergent s.labels h fun l hl =>
      htyped (s, l) (List.mem_append_left _ (List.mem_map_of_mem hl))
    unfold coverStretches
    rw [hcover, List.map_append, hlabels, before_append, hlabels]
    by_cases hmem : divergent ∈ s.labels
    · refine ⟨coverage₁, ?_, ?_⟩
      · change (if decide (divergent ∈ s.labels) = true then _ else _) = _
        rw [if_pos (decide_eq_true hmem), decide_eq_true (List.mem_append_left _ hmem)]
      · rwa [if_pos hmem, List.append_nil]
    · obtain ⟨coverage', hok, h'⟩ := ih h₁ fun item hitem =>
        htyped item (List.mem_append_right _ hitem)
      refine ⟨coverage', ?_, ?_⟩
      · change (if decide (divergent ∈ s.labels) = true then _ else _) = _
        rw [if_neg (by simpa using hmem), hok]
        simp [hmem]
      · rwa [if_neg hmem, ← List.append_assoc]

theorem coverCycles_spec (divergent : ℤ) (history : Simulator.History) (cycles : List ℕ)
    (stretchesAt : ℕ → List Stretch) (hhistory : ∀ k ∈ cycles, history.find? k = some (stretchesAt k))
    (h : Marked initial done coverage)
    (htyped : ∀ k ∈ cycles, ∀ item ∈ items (stretchesAt k), Typed initial item) :
    ∃ coverage' reached, coverCycles divergent history cycles coverage = .ok (coverage', reached) ∧
      Marked initial (done ++ before divergent (cycles.flatMap fun k => items (stretchesAt k)))
        coverage' := by
  induction cycles generalizing done coverage with
  | nil =>
    refine ⟨coverage, false, rfl, ?_⟩
    rwa [List.flatMap_nil, show before divergent [] = [] from rfl, List.append_nil]
  | cons k cycles ih =>
    obtain ⟨hfind, hfinds⟩ := List.forall_mem_cons.mp hhistory
    obtain ⟨htyped₁, htypeds⟩ := List.forall_mem_cons.mp htyped
    obtain ⟨coverage₁, hcover, h₁⟩ := coverStretches_spec divergent (stretchesAt k) h htyped₁
    unfold coverCycles
    rw [hfind, List.flatMap_cons, before_append]
    dsimp only
    rw [hcover]
    by_cases hmem : divergent ∈ (items (stretchesAt k)).map Prod.snd
    · refine ⟨coverage₁, true, ?_, ?_⟩
      · change (if decide (divergent ∈ (items (stretchesAt k)).map Prod.snd) = true then _ else _) = _
        rw [if_pos (decide_eq_true hmem)]
      · rwa [if_pos hmem, List.append_nil]
    · obtain ⟨coverage', reached, hok, h'⟩ := ih hfinds h₁ htypeds
      refine ⟨coverage', reached, ?_, ?_⟩
      · change (if decide (divergent ∈ (items (stretchesAt k)).map Prod.snd) = true then _ else _) = _
        rw [if_neg (by simpa using hmem), hok]
      · rwa [if_neg hmem, ← List.append_assoc]

end Marks

end Explorer

end Ahorn
