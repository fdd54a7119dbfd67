import Mathlib.Data.List.TakeWhile
import Ahorn.ShadowCoverage

set_option autoImplicit false

/-!
# What the initial coverage shows of a history

The explorer knows the history as stretches of labels. It takes a branch as left for a successor if
the successor is anywhere in its stretch, and the first context at the divergent label for the
divergent one.
-/
namespace Ahorn

open Etfa (Coverage)

namespace Explorer

section Positions

open Simulator (Stretch)

/-- The part of a cycle up to a label lies in front of the divergent context. -/
def InFront (cycle : ℕ) (label : ℤ) (k : ℕ) (labels : List ℤ) (l : ℤ) : Prop :=
  k ≤ cycle ∧ (k = cycle → label ∉ labels ∧ l ≠ label)

variable {divergent : ℤ} {item : Stretch × ℤ}

theorem mem_before_iff {items : List (Stretch × ℤ)} : item ∈ before divergent items ↔
    ∃ items₁ items₂, items = items₁ ++ item :: items₂ ∧ divergent ∉ items₁.map Prod.snd ∧
      item.2 ≠ divergent := by
  constructor
  · intro h
    obtain ⟨items₁, items₂, hbefore⟩ := List.append_of_mem h
    have hall : ∀ x ∈ before divergent items, x.2 ≠ divergent := fun x hx => by
      simpa using List.mem_takeWhile_imp hx
    refine ⟨items₁, items₂ ++ items.dropWhile (·.2 ≠ divergent), ?_, ?_, hall item h⟩
    · rw [← List.cons_append, ← List.append_assoc, ← hbefore]
      exact List.takeWhile_append_dropWhile.symm
    · intro hmem
      obtain ⟨x, hx, heq⟩ := List.mem_map.mp hmem
      exact hall x (hbefore ▸ List.mem_append_left _ hx) heq
  · rintro ⟨items₁, items₂, rfl, hnot, hne⟩
    have hkeep : before divergent (items₁ ++ item :: items₂) =
        items₁ ++ before divergent (item :: items₂) := by
      unfold before
      refine List.takeWhile_append_of_pos fun x hx => decide_eq_true fun heq => hnot ?_
      rw [← heq]
      exact List.mem_map_of_mem hx
    rw [hkeep]
    unfold before
    rw [List.takeWhile_cons_of_pos (by simpa using hne)]
    exact List.mem_append_right _ List.mem_cons_self

theorem mem_before_cycles_iff {f : ℕ → List (Stretch × ℤ)} {cycle : ℕ}
    (h : ∀ k < cycle, divergent ∉ (f k).map Prod.snd) :
    item ∈ before divergent ((List.range (cycle + 1)).flatMap f) ↔
      ∃ k items₁ items₂, f k = items₁ ++ item :: items₂ ∧
        InFront cycle divergent k (items₁.map Prod.snd) item.2 := by
  have hearlier : divergent ∉ ((List.range cycle).flatMap f).map Prod.snd := by
    intro hmem
    obtain ⟨x, hx, heq⟩ := List.mem_map.mp hmem
    obtain ⟨k, hk, hx⟩ := List.mem_flatMap.mp hx
    exact h k (List.mem_range.mp hk) (heq ▸ List.mem_map_of_mem hx)
  rw [List.range_succ, List.flatMap_append, List.flatMap_singleton, before_append,
    if_neg hearlier, List.mem_append, mem_before_iff, mem_before_iff]
  constructor
  · rintro (⟨items₁, items₂, hsplit, -, -⟩ | ⟨items₁, items₂, hsplit, hnot, hne⟩)
    · have hmem : item ∈ (List.range cycle).flatMap f := by
        rw [hsplit]
        exact List.mem_append_right _ List.mem_cons_self
      obtain ⟨k, hk, hitem⟩ := List.mem_flatMap.mp hmem
      obtain ⟨items₁', items₂', hsplit'⟩ := List.append_of_mem hitem
      have hlt := List.mem_range.mp hk
      exact ⟨k, items₁', items₂', hsplit', hlt.le, fun heq => absurd heq hlt.ne⟩
    · exact ⟨cycle, items₁, items₂, hsplit, le_rfl, fun _ => ⟨hnot, hne⟩⟩
  · rintro ⟨k, items₁, items₂, hsplit, hle, hfront⟩
    rcases hle.lt_or_eq with hlt | heq
    · left
      have hmem : item ∈ (List.range cycle).flatMap f := by
        refine List.mem_flatMap.mpr ⟨k, List.mem_range.mpr hlt, ?_⟩
        rw [hsplit]
        exact List.mem_append_right _ List.mem_cons_self
      obtain ⟨items₁', items₂', hsplit'⟩ := List.append_of_mem hmem
      rw [hsplit', List.map_append, List.mem_append, not_or, List.map_cons, List.mem_cons,
        not_or] at hearlier
      exact ⟨items₁', items₂', hsplit', hearlier.1, fun h => hearlier.2.1 h.symm⟩
    · right
      obtain ⟨hnot, hne⟩ := hfront heq
      rw [heq] at hsplit
      exact ⟨items₁, items₂, hsplit, hnot, hne⟩

end Positions

end Explorer

namespace ShadowProgram

open Simulator Explorer

/-- A test case that is simulated, by the contexts that are executed in each cycle. -/
structure Simulation (p : ShadowProgram) where
  visits : List (List Context)
  simulated : p.Simulated visits

namespace Simulation

variable {p : ShadowProgram} (run : p.Simulation)

/-- The label is executed before the vertex of the divergent context in its cycle. -/
def Executed (cycle : ℕ) (label l : ℤ) : Prop :=
  ∃ k pre v post, run.visits[k]? = some (pre ++ v :: post) ∧
    InFront cycle label k (pre.map (·.label)) v.label ∧ v.label = l

/-- Before that the execution goes from the branch at the label directly to its successor on the
side. -/
def Taken (cycle : ℕ) (label l : ℤ) (side : Bool) : Prop :=
  ∃ k pre v v' post, run.visits[k]? = some (pre ++ v :: v' :: post) ∧
    InFront cycle label k (pre.map (·.label)) v.label ∧ v.label = l ∧
    (∃ vertex, v.frame.cfg.labelToVertex.find? l = some vertex ∧ vertex.IsBranch) ∧
    ∃ e ∈ v.frame.cfg.getOutgoingEdges l, e.type = sideType side ∧ e.targetLabel = v'.label

/-- The explorer marks what is executed before the divergent context. -/
def ExactlyCovers (cycle : ℕ) (label : ℤ) : Prop :=
  ∃ coverage,
    initializeWithHistory p.main cycle label (executionHistory run.visits) = .ok coverage ∧
    (∀ l, coverage.coveredStatements.find? l = some true ↔ run.Executed cycle label l) ∧
    ∀ l side, coverage.Covers l side ↔ run.Taken cycle label l side

/-- No earlier cycle executes the vertex of the divergent context. -/
def FirstReached (cycle : ℕ) (label : ℤ) : Prop :=
  ∀ k < cycle, ∀ vs, run.visits[k]? = some vs → ∀ v ∈ vs, v.label ≠ label

/-- A branch in front of the divergent context whose stretch holds one of its successors anywhere,
before it or behind it, is left for this successor in front of the divergent context. -/
def LeavesForSuccessors (cycle : ℕ) (label : ℤ) : Prop :=
  ∀ k ss items₁ s l items₂, (executionHistory run.visits).find? k = some ss →
    items ss = items₁ ++ (s, l) :: items₂ →
    InFront cycle label k (items₁.map Prod.snd) l →
    (∃ vertex, s.cfg.labelToVertex.find? l = some vertex ∧ vertex.IsBranch) →
    ∀ side, LeadsWithin s l side → run.Taken cycle label l side

section Proof

variable {run} {cycle k : ℕ} {label l : ℤ} {vs : List Context}

theorem grouped (hk : run.visits[k]? = some vs) :
    ∃ groups, Grouped groups vs ∧ stretches vs = groups.map Stretch.ofGroup :=
  exists_grouped (run.simulated.visited hk).1

theorem map_items_eq (hk : run.visits[k]? = some vs) :
    (items (stretches vs)).map Prod.snd = vs.map (·.label) := by
  obtain ⟨groups, hgrouped, hstretches⟩ := grouped hk
  rw [hstretches, map_items, hgrouped.flat]

theorem exists_unit (hk : run.visits[k]? = some vs) {item : Stretch × ℤ}
    (hitem : item ∈ items (stretches vs)) :
    ∃ t vertex, p.main.Reaches t ∧ item.1.cfg = t.root.toCfg ∧
      t.root.labelToVertex.find? item.2 = some vertex := by
  obtain ⟨groups, hgrouped, hstretches⟩ := grouped hk
  rw [hstretches] at hitem
  obtain ⟨v, hv, hlabel, hcfg⟩ := hgrouped.exists_context hitem
  have hvisited := (run.simulated.visited hk).1
  obtain ⟨vertex, hvertex⟩ := hvisited.present v hv
  rw [hlabel] at hvertex
  exact ⟨v.frame.unit, vertex, (hvisited.placed v hv).reached _ List.mem_cons_self, hcfg.symm,
    hvertex⟩

theorem mem_keys_of_find? {t : CallTree UnitCfg} {vertex : Vertex}
    (h : t.root.labelToVertex.find? l = some vertex) : l ∈ t.root.labelToVertex.keys :=
  List.mem_map_of_mem ((OrderedMap.find?_eq_some_iff _ _ _).mp h)

theorem isBranch_of_isSome {coverage : Coverage} (hblank : Blank p.main coverage)
    (hk : run.visits[k]? = some vs) {item : Stretch × ℤ} (hitem : item ∈ items (stretches vs))
    (hsome : (coverage.coveredBranches.find? item.2).isSome = true) :
    ∃ t vertex, p.main.Reaches t ∧ item.1.cfg = t.root.toCfg ∧
      t.root.labelToVertex.find? item.2 = some vertex ∧ vertex.IsBranch := by
  obtain ⟨sides, hsides⟩ := Option.isSome_iff_exists.mp hsome
  obtain ⟨-, u, vertex', hu, hvertex', hbranch⟩ := hblank.branches hsides
  obtain ⟨t, vertex, ht, hcfg, hvertex⟩ := exists_unit hk hitem
  have heq := p.labelled ht hu (mem_keys_of_find? hvertex) (mem_keys_of_find? hvertex')
  subst heq
  exact ⟨t, vertex', ht, hcfg, hvertex', hbranch⟩

theorem typed {coverage : Coverage} (hblank : Blank p.main coverage)
    (hk : run.visits[k]? = some vs) {item : Stretch × ℤ} (hitem : item ∈ items (stretches vs)) :
    Typed coverage item := by
  intro hsome e he
  obtain ⟨t, vertex, ht, hcfg, hvertex, hbranch⟩ := isBranch_of_isSome hblank hk hitem hsome
  rw [hcfg] at he
  obtain ⟨hedge, hsource⟩ := List.mem_filter.mp he
  have hlabel : e.sourceLabel = item.2 := by simpa using hsource
  refine p.branching ht ?_ hbranch hedge
  rw [hlabel]
  exact hvertex

theorem executed_iff : run.Executed cycle label l ↔
    ∃ k vs items₁ s items₂, run.visits[k]? = some vs ∧
      items (stretches vs) = items₁ ++ (s, l) :: items₂ ∧
      InFront cycle label k (items₁.map Prod.snd) l := by
  constructor
  · rintro ⟨k, pre, v, post, hk, hfront, rfl⟩
    obtain ⟨groups, hgrouped, hstretches⟩ := grouped hk
    obtain ⟨items₁, s, items₂, hitems, hpre, -, -⟩ := hgrouped.item rfl
    rw [← hpre] at hfront
    exact ⟨k, _, items₁, s, items₂, hk, hstretches ▸ hitems, hfront⟩
  · rintro ⟨k, vs, items₁, s, items₂, hk, hitems, hfront⟩
    have hlabels := map_items_eq hk
    rw [hitems, List.map_append, List.map_cons] at hlabels
    obtain ⟨pre, rest, rfl, hpre, hrest⟩ := List.map_eq_append_iff.mp hlabels.symm
    obtain ⟨v, post, rfl, hv, -⟩ := List.map_eq_cons_iff.mp hrest
    refine ⟨k, pre, v, post, hk, ?_, hv⟩
    rw [hpre, hv]
    exact hfront

theorem Taken.item {side : Bool} (h : run.Taken cycle label l side) :
    ∃ k vs items₁ s items₂, run.visits[k]? = some vs ∧
      items (stretches vs) = items₁ ++ (s, l) :: items₂ ∧
      InFront cycle label k (items₁.map Prod.snd) l ∧ LeadsWithin s l side ∧
      ∃ t vertex, p.main.Reaches t ∧ t.root.labelToVertex.find? l = some vertex ∧
        vertex.IsBranch := by
  obtain ⟨k, pre, v, v', post, hk, hfront, rfl, ⟨vertex, hvertex, hbranch⟩, e, he, hside, htarget⟩ :=
    h
  have hvisited := (run.simulated.visited hk).1
  obtain ⟨groups, hgrouped, hstretches⟩ := grouped hk
  obtain ⟨items₁, s, items₂, hitems, hpre, hcfg, hnext⟩ := hgrouped.item rfl
  obtain ⟨condition, hstep⟩ := hvisited.steps.right_of_append.rel
  have hframe := execute_branch hvertex hbranch hstep
  rw [← hpre] at hfront
  refine ⟨k, _, items₁, s, items₂, hk, hstretches ▸ hitems, hfront, ⟨e, hcfg ▸ he, hside, ?_⟩,
    v.frame.unit, vertex, ?_, hvertex, hbranch⟩
  · rw [htarget]
    exact hnext v' rfl (by rw [hframe])
  · exact (hvisited.placed v (List.mem_append_right _ List.mem_cons_self)).reached _
      List.mem_cons_self

end Proof

def itemsAt (run : p.Simulation) (k : ℕ) : List (Stretch × ℤ) :=
  items (stretches (run.visits[k]?.getD []))

theorem itemsAt_eq {run : p.Simulation} {k : ℕ} {vs : List Context}
    (hk : run.visits[k]? = some vs) : run.itemsAt k = items (stretches vs) := by
  unfold itemsAt
  rw [hk]
  rfl

theorem getElem?_visits {run : p.Simulation} {cycle : Fin run.visits.length} {k : ℕ}
    (hk : k ≤ cycle) : run.visits[k]? = some (run.visits[k]?.getD []) := by
  rw [List.getElem?_eq_getElem (lt_of_le_of_lt hk cycle.isLt)]
  rfl

theorem exists_marked (run : p.Simulation) (cycle : Fin run.visits.length) (label : ℤ) :
    ∃ initial coverage,
      initializeWithHistory p.main cycle label (executionHistory run.visits) = .ok coverage ∧
      Blank p.main initial ∧ (∀ t l v, p.main.Reaches t →
        t.root.labelToVertex.find? l = some v → Counts v initial) ∧
      Marked initial (before label ((List.range (cycle + 1)).flatMap run.itemsAt)) coverage := by
  obtain ⟨visited, initial, hinitial, hblank, hcounts⟩ := exists_initialized p
  have hvisits : ∀ k ∈ List.range (cycle.val + 1),
      run.visits[k]? = some (run.visits[k]?.getD []) := fun k hk =>
    getElem?_visits (Nat.lt_succ_iff.mp (List.mem_range.mp hk))
  have hmarked : Marked initial [] initial := by
    refine ⟨fun _ => rfl, fun _ => rfl, fun l => ?_, fun l side => ?_⟩
    · constructor
      · intro h
        exact absurd (hblank.statements h).1 (by decide)
      · rintro ⟨-, hmem⟩
        cases hmem
    · constructor
      · rintro ⟨sides, hsides, hside⟩
        rw [(hblank.branches hsides).1] at hside
        cases side <;> cases hside
      · rintro ⟨-, s, hmem, -⟩
        cases hmem
  obtain ⟨coverage, reached, hcover, h⟩ := coverCycles_spec label (executionHistory run.visits)
    (List.range (cycle.val + 1)) (fun k => stretches (run.visits[k]?.getD []))
    (fun k hk => run.simulated.find?_executionHistory (hvisits k hk)) hmarked
    fun k hk item hitem => typed hblank (hvisits k hk) hitem
  refine ⟨initial, coverage, ?_, hblank, hcounts, h⟩
  unfold initializeWithHistory
  rw [hinitial]
  change (coverCycles label (executionHistory run.visits) (List.range (cycle.val + 1)) initial >>= _) = _
  rw [hcover]
  rfl

section Sides

variable {run : p.Simulation} {cycle : Fin run.visits.length} {label l : ℤ} {side : Bool}
  {initial coverage : Coverage}

theorem notMem_itemsAt (h : run.FirstReached cycle label) (k : ℕ) (hk : k < cycle) :
    label ∉ (run.itemsAt k).map Prod.snd := by
  have hvisits := getElem?_visits hk.le
  intro hmem
  rw [itemsAt_eq hvisits, map_items_eq hvisits] at hmem
  obtain ⟨v, hv, heq⟩ := List.mem_map.mp hmem
  exact h k hk _ hvisits v hv heq

theorem mem_before_iff_inFront (h : run.FirstReached cycle label) {s : Stretch} :
    (s, l) ∈ before label ((List.range (cycle + 1)).flatMap run.itemsAt) ↔
      ∃ k vs items₁ items₂, run.visits[k]? = some vs ∧
        items (stretches vs) = items₁ ++ (s, l) :: items₂ ∧
        InFront cycle label k (items₁.map Prod.snd) l := by
  rw [mem_before_cycles_iff (notMem_itemsAt h)]
  constructor
  · rintro ⟨k, items₁, items₂, hitems, hfront⟩
    have hvisits := getElem?_visits hfront.1
    exact ⟨k, _, items₁, items₂, hvisits, hitems, hfront⟩
  · rintro ⟨k, vs, items₁, items₂, hk, hitems, hfront⟩
    exact ⟨k, items₁, items₂, (itemsAt_eq hk).trans hitems, hfront⟩

theorem statement_iff (h : run.FirstReached cycle label)
    (hcounts : ∀ t l v, p.main.Reaches t → t.root.labelToVertex.find? l = some v →
      Counts v initial) :
    ((initial.coveredStatements.find? l).isSome = true ∧
      l ∈ (before label ((List.range (cycle + 1)).flatMap run.itemsAt)).map Prod.snd) ↔
    run.Executed cycle label l := by
  rw [executed_iff]
  constructor
  · rintro ⟨-, hmem⟩
    obtain ⟨⟨s, l'⟩, hitem, rfl⟩ := List.mem_map.mp hmem
    obtain ⟨k, vs, items₁, items₂, hk, hitems, hfront⟩ := (mem_before_iff_inFront h).mp hitem
    exact ⟨k, vs, items₁, s, items₂, hk, hitems, hfront⟩
  · rintro ⟨k, vs, items₁, s, items₂, hk, hitems, hfront⟩
    have hitem := (mem_before_iff_inFront h).mpr ⟨k, vs, items₁, items₂, hk, hitems, hfront⟩
    obtain ⟨t, vertex, ht, -, hvertex⟩ := exists_unit hk (hitems ▸
      List.mem_append_right _ List.mem_cons_self : (s, l) ∈ items (stretches vs))
    obtain ⟨value, hvalue⟩ := (hcounts t l vertex ht hvertex).statement
    rw [(p.executable ht hvertex).1] at hvalue
    exact ⟨by rw [hvalue]; rfl, List.mem_map_of_mem hitem⟩

theorem branch_of_taken (h : run.FirstReached cycle label)
    (hcounts : ∀ t l v, p.main.Reaches t → t.root.labelToVertex.find? l = some v →
      Counts v initial) (htaken : run.Taken cycle label l side) :
    (initial.coveredBranches.find? l).isSome = true ∧
      ∃ s, (s, l) ∈ before label ((List.range (cycle + 1)).flatMap run.itemsAt) ∧
        LeadsWithin s l side := by
  obtain ⟨k, vs, items₁, s, items₂, hk, hitems, hfront, hleads, t, vertex, ht, hvertex, hbranch⟩ :=
    htaken.item
  obtain ⟨sides, hsides⟩ := (hcounts t l vertex ht hvertex).branch hbranch
  rw [(p.executable ht hvertex).1] at hsides
  exact ⟨by rw [hsides]; rfl, s,
    (mem_before_iff_inFront h).mpr ⟨k, vs, items₁, items₂, hk, hitems, hfront⟩, hleads⟩

end Sides

end Simulation

open Simulation in
/-- The explorer marks exactly what is executed in front of the divergent context if no earlier cycle
comes to its vertex, and every branch whose stretch holds a successor is left for it. -/
theorem exactlyCovers_iff (p : ShadowProgram) (run : p.Simulation)
    (cycle : Fin run.visits.length) (label : ℤ) :
    run.ExactlyCovers cycle label ↔
      run.FirstReached cycle label ∧ run.LeavesForSuccessors cycle label := by
  obtain ⟨initial, coverage, hok, hblank, hcounts, hmarked⟩ := exists_marked run cycle label
  constructor
  · rintro ⟨coverage', hok', hstatements, hbranches⟩
    obtain rfl := Except.ok.inj (hok.symm.trans hok')
    have hfirst : run.FirstReached cycle label := by
      intro k hk vs hvs v hv heq
      obtain ⟨pre, post, rfl⟩ := List.append_of_mem hv
      have hexecuted : run.Executed cycle label label :=
        ⟨k, pre, v, post, hvs, ⟨hk.le, fun h => absurd h hk.ne⟩, heq⟩
      obtain ⟨-, hmem⟩ := (hmarked.statements label).mp ((hstatements label).mpr hexecuted)
      obtain ⟨item, hitem, hlabel⟩ := List.mem_map.mp hmem
      obtain ⟨-, -, -, -, hne⟩ := mem_before_iff.mp hitem
      exact hne hlabel
    refine ⟨hfirst, fun k ss items₁ s l items₂ hss hitems hfront hbranch side hleads => ?_⟩
    have hvisits := getElem?_visits hfront.1
    rw [run.simulated.find?_executionHistory hvisits] at hss
    rw [← Option.some.inj hss] at hitems
    have hitem := (mem_before_iff_inFront hfirst).mpr
      ⟨k, _, items₁, items₂, hvisits, hitems, hfront⟩
    obtain ⟨vertex, hvertex, hisBranch⟩ := hbranch
    obtain ⟨t, vertex', ht, hcfg, hvertex'⟩ := exists_unit hvisits (hitems ▸
      List.mem_append_right _ List.mem_cons_self : (s, l) ∈ items (stretches _))
    dsimp only at hcfg hvertex'
    rw [hcfg, hvertex'] at hvertex
    rw [← Option.some.inj hvertex] at hisBranch
    obtain ⟨sides, hsides⟩ := (hcounts t l vertex' ht hvertex').branch hisBranch
    rw [(p.executable ht hvertex').1] at hsides
    exact (hbranches l side).mp ((hmarked.branches l side).mpr
      ⟨by rw [hsides]; rfl, s, hitem, hleads⟩)
  · rintro ⟨hfirst, hleaves⟩
    refine ⟨coverage, hok, fun l => ?_, fun l side => ?_⟩
    · rw [hmarked.statements, statement_iff hfirst hcounts]
    · rw [hmarked.branches]
      constructor
      · rintro ⟨hsome, s, hitem, hleads⟩
        obtain ⟨k, vs, items₁, items₂, hk, hitems, hfront⟩ := (mem_before_iff_inFront hfirst).mp hitem
        obtain ⟨t, vertex, ht, hcfg, hvertex, hbranch⟩ := isBranch_of_isSome hblank hk (hitems ▸
          List.mem_append_right _ List.mem_cons_self : (s, l) ∈ items (stretches vs)) hsome
        dsimp only at hcfg hvertex
        exact hleaves k _ items₁ s l items₂ (run.simulated.find?_executionHistory hk) hitems hfront
          ⟨vertex, by rw [hcfg]; exact hvertex, hbranch⟩ side hleads
      · exact branch_of_taken hfirst hcounts

end ShadowProgram

namespace ChangedBranch

open Simulator ShadowProgram

def a : Variable := ⟨"a", .bool, .input, none⟩

def b : Variable := ⟨"b", .bool, .input, none⟩

def x : Variable := ⟨"x", .bool, .local, none⟩

def y : Variable := ⟨"y", .bool, .local, none⟩

def read (v : Variable) : Expression := .reference (.variableAccess v)

def set (v : Variable) : Instruction :=
  .assignmentInstruction .regular (.variableAccess v) (.booleanConstant true)

/-- IF a THEN x := TRUE; END_IF; IF change(b, NOT b) THEN y := TRUE; END_IF; -/
def main : UnitCfg where
  labelToVertex := ⟨[
    (0, ⟨0, .entry, none⟩),
    (1, ⟨1, .regular, some (.ifInstruction (read a) 2 3)⟩),
    (2, ⟨2, .regular, some (set x)⟩),
    (3, ⟨3, .regular, some (.ifInstruction (.change (read b) (.unary .complement (read b))) 4 5)⟩),
    (4, ⟨4, .regular, some (set y)⟩),
    (5, ⟨5, .exit, none⟩)], by decide⟩
  edges := [
    { sourceLabel := 0, targetLabel := 1 },
    { sourceLabel := 1, targetLabel := 2, type := .trueBranch },
    { sourceLabel := 1, targetLabel := 3, type := .falseBranch },
    { sourceLabel := 2, targetLabel := 3 },
    { sourceLabel := 3, targetLabel := 4, type := .trueBranch },
    { sourceLabel := 3, targetLabel := 5, type := .falseBranch },
    { sourceLabel := 4, targetLabel := 5 }]
  entryLabel := 0
  exitLabel := 5
  type := .program
  name := "P"
  interface := [a, b, x, y]
  flattenedInterface := ⟨[("P.a", a), ("P.b", b), ("P.x", x), ("P.y", y)], by decide⟩

def tree : CallTree UnitCfg := .node "P" main .nil

theorem eq_tree {t : CallTree UnitCfg} (h : tree.Reaches t) : t = tree := by
  induction h with
  | refl => rfl
  | tail _ hcallee ih =>
    rw [ih] at hcallee
    cases hcallee

theorem main_executable : ∀ e ∈ main.labelToVertex.entries, e.2.label = e.1 ∧ e.2.Executable := by
  have hset : ∀ v l, set v ≠ .gotoInstruction l := by
    intro v l h
    cases h
  have hif : ∀ e n n' l, Instruction.ifInstruction e n n' ≠ .gotoInstruction l := by
    intro e n n' l h
    cases h
  have hboundary : ∀ v : Vertex, v.type ≠ .regular → v.Executable := fun _ h h' => absurd h' h
  simp only [main, List.forall_mem_cons, List.not_mem_nil, false_implies, implies_true, and_true]
  exact ⟨⟨trivial, hboundary _ (by decide)⟩, ⟨trivial, fun _ => ⟨_, rfl, hif _ _ _⟩⟩,
    ⟨trivial, fun _ => ⟨_, rfl, hset x⟩⟩, ⟨trivial, fun _ => ⟨_, rfl, hif _ _ _⟩⟩,
    ⟨trivial, fun _ => ⟨_, rfl, hset y⟩⟩, ⟨trivial, hboundary _ (by decide)⟩⟩

theorem main_branching {e : Edge} (he : e ∈ main.edges) {v : Vertex}
    (hv : main.labelToVertex.find? e.sourceLabel = some v) (hbranch : v.IsBranch) :
    e.type = .trueBranch ∨ e.type = .falseBranch := by
  obtain ⟨htype, _, _, _, hinstruction⟩ := hbranch
  simp only [main, List.mem_cons, List.not_mem_nil, or_false] at he
  rcases he with rfl | rfl | rfl | rfl | rfl | rfl | rfl
  · rw [← Option.some.inj hv] at htype
    cases htype
  · exact Or.inl rfl
  · exact Or.inr rfl
  · rw [← Option.some.inj hv] at hinstruction
    rcases hinstruction with h | h <;> cases h
  · exact Or.inl rfl
  · exact Or.inr rfl
  · rw [← Option.some.inj hv] at hinstruction
    rcases hinstruction with h | h <;> cases h

def program : ShadowProgram where
  main := tree
  named ht hu _ := (eq_tree ht).trans (eq_tree hu).symm
  labelled ht hu _ _ := (eq_tree ht).trans (eq_tree hu).symm
  executable ht hv := by
    rw [eq_tree ht] at hv
    exact main_executable _ ((OrderedMap.find?_eq_some_iff _ _ _).mp hv)
  branching ht hv hbranch he := by
    rw [eq_tree ht] at hv he
    exact main_branching he hv hbranch

def atLabel (l : ℤ) : Context := ⟨0, l, ⟨tree, "P", 0⟩, []⟩

def run : program.Simulation where
  visits := [[atLabel 0, atLabel 1, atLabel 2, atLabel 3, atLabel 4, atLabel 5]]
  simulated := by
    have hsteps : Steps 0 (atLabel 0) [atLabel 0, atLabel 1, atLabel 2, atLabel 3, atLabel 4, atLabel 5]
        ⟨1, 0, ⟨tree, "P", 0⟩, []⟩ := by
      refine .next rfl (show execute true _ = .ok (atLabel 1) from rfl) ?_
      refine .next rfl (show execute true _ = .ok (atLabel 2) from rfl) ?_
      refine .next rfl (show execute true _ = .ok (atLabel 3) from rfl) ?_
      refine .next rfl (show execute true _ = .ok (atLabel 4) from rfl) ?_
      refine .next rfl (show execute true _ = .ok (atLabel 5) from rfl) ?_
      refine .next rfl (show execute true _ = .ok _ from rfl) ?_
      exact .done (by decide)
    exact .next hsteps .done

/-- The second condition has changed. The first branch is marked on both sides. -/
theorem run_not_exactlyCovers : ¬run.ExactlyCovers 0 3 := by
  rintro ⟨coverage, hok, -, hbranches⟩
  have hmarked : (Explorer.initializeWithHistory tree 0 3 (executionHistory run.visits)).map
      (·.coveredBranches.find? 1) = .ok (some (true, true)) := by rfl
  have hok' : Explorer.initializeWithHistory tree 0 3 (executionHistory run.visits) = .ok coverage := hok
  rw [hok'] at hmarked
  have hcovers : coverage.Covers 1 false := ⟨_, Except.ok.inj hmarked, rfl⟩
  obtain ⟨k, pre, v, v', post, hk, hfront, hlabel, -, e, he, hside, htarget⟩ :=
    (hbranches 1 false).mp hcovers
  obtain rfl : k = 0 := Nat.le_zero.mp hfront.1
  have hvisits : [atLabel 0, atLabel 1, atLabel 2, atLabel 3, atLabel 4, atLabel 5] = pre ++ v :: v' :: post :=
    Option.some.inj hk
  have hcfg : v.frame.cfg = main.toCfg := by
    have hall : ∀ u ∈ [atLabel 0, atLabel 1, atLabel 2, atLabel 3, atLabel 4, atLabel 5],
        u.frame.cfg = main.toCfg := by
      simp [atLabel, Frame.cfg, tree, CallTree.root]
    exact hall v (hvisits ▸ List.mem_append_right _ List.mem_cons_self)
  have hthree : v'.label = 3 := by
    rw [hcfg] at he
    have hedges : main.getOutgoingEdges 1 =
        [{ sourceLabel := 1, targetLabel := 2, type := .trueBranch },
          { sourceLabel := 1, targetLabel := 3, type := .falseBranch }] := by rfl
    rw [hedges] at he
    rw [← htarget]
    rcases List.mem_pair.mp he with rfl | rfl
    · cases hside
    · rfl
  have hdirect : [(1 : ℤ), 3] <:+: [0, 1, 2, 3, 4, 5] := by
    refine ⟨pre.map (·.label), post.map (·.label), ?_⟩
    have hlabels : [0, 1, 2, 3, 4, 5] = (pre ++ v :: v' :: post).map (·.label) :=
      congrArg (List.map Context.label) hvisits
    rw [hlabels, List.map_append, List.map_cons, List.map_cons, hlabel, hthree, List.append_assoc]
    rfl
  exact absurd hdirect (by decide)

end ChangedBranch

end Ahorn
