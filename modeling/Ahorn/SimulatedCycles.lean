import Ahorn.EtfaTestCases
import Ahorn.ProgramCycles
import Ahorn.SimulatedRuns
import Ahorn.SimulatorEngine

set_option autoImplicit false

/-!
# Simulated cycles

The simulation of a cycle moves in step with the execution of the version it follows. What it covers
is what the execution goes through.
-/
namespace Ahorn.Etfa

namespace Coverage

variable {label succeedingLabel l : ℤ} {edges : List Edge} {taken : Bool}
  {statements : OrderedMap ℤ Bool} {branches branches' : OrderedMap ℤ (Bool × Bool)}
  {coverage coverage' : Coverage}

theorem covers_assign {sides sides' : Bool × Bool} (hsides : branches.find? label = some sides)
    (hmore : ∀ side : Bool, (if side then sides.1 else sides.2) = true →
      (if side then sides'.1 else sides'.2) = true)
    (h : (⟨statements, branches⟩ : Coverage).Covers l taken) :
    (⟨statements, branches.assign label sides'⟩ : Coverage).Covers l taken := by
  obtain ⟨sides₀, hfind, hset⟩ := h
  by_cases hlabel : l = label
  · subst hlabel
    have heq : sides₀ = sides := Option.some.inj (hfind.symm.trans hsides)
    subst heq
    refine ⟨sides', ?_, hmore taken hset⟩
    dsimp only
    rw [OrderedMap.find?_assign, if_pos rfl]
  · refine ⟨sides₀, ?_, hset⟩
    dsimp only
    rw [OrderedMap.find?_assign, if_neg hlabel]
    exact hfind

theorem coverEdges_keeps (h : coverEdges label succeedingLabel edges branches = .ok branches')
    (hl : (⟨statements, branches⟩ : Coverage).Covers l taken) :
    (⟨statements, branches'⟩ : Coverage).Covers l taken := by
  induction edges generalizing branches with
  | nil =>
    cases h
    exact hl
  | cons edge edges ih =>
    unfold coverEdges at h
    by_cases hcover : edge.targetLabel = succeedingLabel ∧
        (edge.type = .trueBranch ∨ edge.type = .falseBranch)
    · rw [if_pos hcover] at h
      cases hsides : branches.find? label with
      | none =>
        rw [hsides] at h
        cases h
      | some sides =>
        rw [hsides] at h
        refine ih h (covers_assign hsides (fun side hset => ?_) hl)
        by_cases htype : edge.type = .trueBranch
        · rw [if_pos htype]
          cases side with
          | true => rfl
          | false => exact hset
        · rw [if_neg htype]
          cases side with
          | true => exact hset
          | false => rfl
    · rw [if_neg hcover] at h
      exact ih h hl

theorem covers_of_coverEdges (h : coverEdges label succeedingLabel edges branches = .ok branches')
    {edge : Edge} (hedge : edge ∈ edges) (htarget : edge.targetLabel = succeedingLabel)
    (hside : edge.IsSide taken) : (⟨statements, branches'⟩ : Coverage).Covers label taken := by
  have htype : edge.type = .trueBranch ∨ edge.type = .falseBranch := by
    cases taken with
    | true => exact Or.inl hside
    | false => exact Or.inr hside
  induction edges generalizing branches with
  | nil => cases hedge
  | cons edge' edges ih =>
    unfold coverEdges at h
    rcases List.mem_cons.mp hedge with rfl | hedge
    · rw [if_pos ⟨htarget, htype⟩] at h
      cases hsides : branches.find? label with
      | none =>
        rw [hsides] at h
        cases h
      | some sides =>
        rw [hsides] at h
        refine coverEdges_keeps h ⟨_, (OrderedMap.find?_assign _ _ _ _).trans (if_pos rfl), ?_⟩
        cases taken with
        | true =>
          have htrue : edge.type = .trueBranch := hside
          rw [if_pos htrue, if_pos rfl]
        | false =>
          have hfalse : ¬edge.type = .trueBranch := by
            rw [show edge.type = .falseBranch from hside]
            decide
          rw [if_neg hfalse, if_neg Bool.false_ne_true]
    · by_cases hcover : edge'.targetLabel = succeedingLabel ∧
          (edge'.type = .trueBranch ∨ edge'.type = .falseBranch)
      · rw [if_pos hcover] at h
        cases hsides : branches.find? label with
        | none =>
          rw [hsides] at h
          cases h
        | some sides =>
          rw [hsides] at h
          exact ih h hedge
      · rw [if_neg hcover] at h
        exact ih h hedge

/-- An update covers its label, and the sides that lead to the succeeding label. -/
theorem update_iff {cfg : Cfg} {increased : Bool × Bool}
    (h : update cfg label succeedingLabel coverage = .ok (coverage', increased)) :
    (∀ l, coverage'.coveredStatements.find? l = some true ↔
      coverage.coveredStatements.find? l = some true ∨ l = label) ∧
    ∀ l taken, coverage'.Covers l taken ↔ coverage.Covers l taken ∨ l = label ∧
      ∃ edge ∈ cfg.getOutgoingEdges label,
        edge.targetLabel = succeedingLabel ∧ edge.IsSide taken := by
  have hcopy := h
  unfold update at h
  cases hstatement : coverage.coveredStatements.find? label with
  | none =>
    rw [hstatement] at h
    cases h
  | some _ =>
    rw [hstatement] at h
    obtain ⟨branches, hbranches, h⟩ := bind_eq_ok h
    cases h
    constructor
    · intro l
      dsimp only
      rw [OrderedMap.find?_assign]
      by_cases hl : l = label
      · rw [if_pos hl]
        exact ⟨fun _ => Or.inr hl, fun _ => rfl⟩
      · rw [if_neg hl]
        exact ⟨Or.inl, fun h => h.resolve_right hl⟩
    · intro l taken
      constructor
      · intro hnew
        by_cases hold : coverage.Covers l taken
        · exact Or.inl hold
        · exact Or.inr (update_covers hcopy hnew hold)
      · obtain ⟨statements, branches₀⟩ := coverage
        rintro (hold | ⟨rfl, edge, hedge, htarget, hside⟩)
        · have hkeeps : (⟨statements, branches⟩ : Coverage).Covers l taken :=
            coverEdges_keeps hbranches hold
          exact hkeeps
        · have hcovers : (⟨statements, branches⟩ : Coverage).Covers l taken :=
            covers_of_coverEdges hbranches hedge htarget hside
          exact hcovers

end Coverage

end Ahorn.Etfa

namespace Ahorn.Simulator

open Etfa (Configuration Inputs Branch Coverage)

/-- Two sides of a branch lead to one place. -/
def LeadsAlike (main : CallTree UnitCfg) (label : ℤ) (taken side : Bool) : Prop :=
  ∃ t edge edge', main.Reaches t ∧
    t.root.getEdgeOfType (if taken then .trueBranch else .falseBranch) label = .ok edge ∧
    edge' ∈ t.root.getOutgoingEdges label ∧ edge'.IsSide side ∧
    edge'.targetLabel = edge.targetLabel

section Sides

variable {cfg : Cfg} {type : EdgeType} {label : ℤ} {edge : Edge}

theorem mem_of_getEdgeOfType (h : cfg.getEdgeOfType type label = .ok edge) :
    edge ∈ cfg.edges ∧ edge.sourceLabel = label ∧ edge.type = type := by
  unfold Cfg.getEdgeOfType at h
  cases hfind : (cfg.getOutgoingEdges label).find? (·.type = type) with
  | none =>
    rw [hfind] at h
    cases h
  | some e =>
    rw [hfind] at h
    cases h
    have hmem := List.mem_filter.mp (List.mem_of_find?_eq_some hfind)
    exact ⟨hmem.1, of_decide_eq_true hmem.2, by simpa using List.find?_some hfind⟩

variable {p : AnnotatedProgram} {c c' : Context} {taken : List Branch} {side : Bool}

theorem unit_eq_of_side {t t' : CallTree UnitCfg} {v : Vertex} (ht : p.main.Reaches t)
    (ht' : p.main.Reaches t') (hv : t.root.labelToVertex.find? label = some v)
    (hedge : edge ∈ t'.root.edges) (hsource : edge.sourceLabel = label)
    (hside : edge.IsSide side) :
    t' = t ∧ v.IsBranch := by
  have htype : edge.type = .trueBranch ∨ edge.type = .falseBranch := by
    cases side with
    | true => exact Or.inl hside
    | false => exact Or.inr hside
  obtain ⟨v', hv', hbranch⟩ := p.sides ht' hedge htype
  rw [hsource] at hv'
  have heq := p.labelled ht' ht (OrderedMap.mem_keys_iff.mpr ⟨v', hv'⟩)
    (OrderedMap.mem_keys_iff.mpr ⟨v, hv⟩)
  subst heq
  rw [hv] at hv'
  cases hv'
  exact ⟨rfl, hbranch⟩

theorem Takes.leadsAlike_iff (h : Takes c c' taken) (hc : p.main.Reaches c.frame.unit)
    (hc' : p.main.Reaches c'.frame.unit) :
    (∃ edge ∈ c'.frame.cfg.getOutgoingEdges c.label,
      edge.targetLabel = c'.label ∧ edge.IsSide side) ↔
    ∃ b ∈ taken, b.label = c.label ∧ LeadsAlike p.main c.label b.taken side := by
  constructor
  · rintro ⟨edge, hedge, htarget, hside⟩
    obtain ⟨hmem, hsource⟩ := List.mem_filter.mp hedge
    have hsource : edge.sourceLabel = c.label := of_decide_eq_true hsource
    cases h with
    | @side b e l₁ l₂ v edge' hvertex htype hinstruction hframe hcycle hedge' htarget' =>
      refine ⟨_, List.mem_cons_self, rfl, c.frame.unit, edge', edge, hc, hedge', ?_, hside, ?_⟩
      · rw [hframe] at hedge
        exact hedge
      · rw [htarget, htarget']
    | nothing hvertex hbranch =>
      exact absurd (unit_eq_of_side hc hc' hvertex hmem hsource hside).2 hbranch
  · rintro ⟨b, hb, -, t, edge, edge', ht, hedge, hedge', hside, htarget⟩
    cases h with
    | @side taken e l₁ l₂ v edge₀ hvertex htype hinstruction hframe hcycle hedge₀ htarget₀ =>
      obtain rfl := List.mem_singleton.mp hb
      obtain ⟨hmem, hsource⟩ := List.mem_filter.mp hedge'
      have hunit := (unit_eq_of_side hc ht hvertex hmem (of_decide_eq_true hsource) hside).1
      subst hunit
      have hsame : edge = edge₀ := Except.ok.inj (hedge.symm.trans hedge₀)
      subst hsame
      refine ⟨edge', ?_, htarget.trans htarget₀, hside⟩
      rw [hframe]
      exact hedge'
    | nothing _ _ => cases hb

theorem Takes.leadsAlike_self (h : Takes c c' taken) (hc : p.main.Reaches c.frame.unit) :
    ∀ b ∈ taken, LeadsAlike p.main b.label b.taken b.taken := by
  intro b hb
  cases h with
  | @side taken e l₁ l₂ v edge hvertex htype hinstruction hframe hcycle hedge htarget =>
    obtain rfl := List.mem_singleton.mp hb
    obtain ⟨hmem, hsource, hside⟩ := mem_of_getEdgeOfType hedge
    exact ⟨c.frame.unit, edge, edge, hc, hedge,
      List.mem_filter.mpr ⟨hmem, decide_eq_true hsource⟩, hside, rfl⟩
  | nothing _ _ => cases hb

end Sides

section Cycle

variable {p : AnnotatedProgram} {g : Engine} {inputs : Inputs} {conf₀ conf : Configuration} {k : ℕ}
  {s s' : Simulation}

/-- A simulation on the way through a cycle, up to the beginning of the next one: the execution is in
the same place. Where the cycle is over, the inputs have been read anew, and the values of the cycle
are those the execution has ended it with. -/
structure InCycle (p : AnnotatedProgram) (ex : Executor) (inputs : Inputs) (conf₀ : Configuration)
    (k : ℕ) (c : ValuedContext) (conf : Configuration) : Prop where
  runs : (p.version ex.mode).Runs inputs conf₀ conf
  placed : Placed p.main c.toContext
  tracks : Tracks ex.mode (fun x => c.cycle ≠ k ∧ x ∈ ex.wholeProgramInputs) c conf
  ended : c.cycle ≠ k → c.cycle = k + 1 ∧
    (∀ x ∈ ex.wholeProgramInputs, conf.store x = inputs (k + 1) x) ∧
    ∃ last, (p.version ex.mode).Ends inputs conf₀ k last ∧
      ∀ x v, c.concreteValuations.find? (contextualizedName x k) = some v → last.store x = v

theorem Engine.advance_cases (h : g.advance s = .ok s') :
    g.executor.execute s.context = .ok s'.context ∧ ∃ increased,
      s.coverage.update s'.context.frame.cfg s.context.label s'.context.label =
        .ok (s'.coverage, increased) := by
  obtain ⟨context, hcontext, h⟩ := bind_eq_ok h
  obtain ⟨⟨coverage, increased⟩, hcoverage, h⟩ := bind_eq_ok h
  cases h
  exact ⟨hcontext, increased, hcoverage⟩

theorem InCycle.advance (hp : p.HavocFree) (hmain : g.main = p.main)
    (h : InCycle p g.executor inputs conf₀ k s.context conf) (hk : s.context.cycle = k)
    (hs : g.advance s = .ok s') :
    ∃ conf', InStep p g.executor inputs s.context s'.context conf conf' ∧
      InCycle p g.executor inputs conf₀ k s'.context conf' := by
  obtain ⟨hexecute, -⟩ := Engine.advance_cases hs
  obtain ⟨htracks, hplaced⟩ := h.tracks, h.placed
  have htracks' : Tracks g.mode (fun _ => False) s.context conf :=
    ⟨htracks.located, fun x v _ hv => htracks.stores.same x v (fun hne => hne.1 hk) hv,
      htracks.stores.fresh⟩
  have hinputs : (p.version g.executor.mode).wholeProgramInputs = g.executor.wholeProgramInputs := by
    unfold Engine.executor
    rw [hmain]
    rfl
  obtain ⟨conf', hstep⟩ : ∃ conf', InStep p g.executor inputs s.context s'.context conf conf' :=
    Tracks.execute hp hinputs htracks' (hplaced.reached _ List.mem_cons_self) hexecute
  obtain ⟨condition, hcontrol⟩ := Executor.execute_control hexecute
  refine ⟨conf', hstep, h.runs.tail hstep.step, hplaced.execute hcontrol, ?_, fun hne => ?_⟩
  · exact hk ▸ hstep.tracks
  · obtain ⟨hcycle, hread, hlast⟩ := hstep.ended (hk ▸ hne)
    rw [hk] at hcycle hlast
    refine ⟨hcycle, hcycle ▸ hread, conf, ⟨conf', h.runs, ?_, hstep.step, ?_⟩, hlast⟩
    · rw [← hk]
      exact htracks.located.cycle
    · rw [← hcycle]
      exact hstep.tracks.located.cycle

theorem InCycle.label_eq {c : ValuedContext} {ex : Executor}
    (h : InCycle p ex inputs conf₀ k c conf) : conf.vertex.label = c.label := by
  obtain ⟨v, hv, hconf⟩ := h.tracks.located.vertex
  rw [hconf]
  exact (p.executable (h.placed.reached _ List.mem_cons_self) hv).1

theorem InStep.covers_iff {ex : Executor} {c c' : ValuedContext} {conf' : Configuration} {l : ℤ}
    {side : Bool} (h : InStep p ex inputs c c' conf conf') (hk : c.cycle = k)
    (hc : Placed p.main c.toContext) (hc' : Placed p.main c'.toContext) :
    (l = c.label ∧ ∃ edge ∈ c'.frame.cfg.getOutgoingEdges c.label,
      edge.targetLabel = c'.label ∧ edge.IsSide side) ↔
    ∃ conf₂ taken, (p.version ex.mode).step inputs conf = .ok conf₂ ∧ conf₂.cycle = k ∧
      conf₂.branches = conf.branches ++ taken ∧
      ∃ b ∈ taken, b.label = l ∧ LeadsAlike p.main l b.taken side := by
  obtain ⟨taken₀, htakes, hgrown⟩ := h.takes
  have hsides := @Takes.leadsAlike_iff p _ _ _ side htakes (hc.reached _ List.mem_cons_self)
    (hc'.reached _ List.mem_cons_self)
  constructor
  · rintro ⟨rfl, hedge⟩
    obtain ⟨b, hb, hbl, halike⟩ := hsides.mp hedge
    refine ⟨conf', taken₀, h.step, ?_, hgrown, b, hb, hbl, halike⟩
    cases htakes with
    | side _ _ _ _ hcycle _ _ => exact h.tracks.located.cycle.trans (hcycle.trans hk)
    | nothing _ _ => cases hb
  · rintro ⟨conf₂, taken, hstep, -, hgrown₂, b, hb, hbl, halike⟩
    rw [h.step] at hstep
    cases hstep
    rw [hgrown] at hgrown₂
    have hsame : taken₀ = taken := List.append_cancel_left hgrown₂
    subst hsame
    have hlabel : b.label = c.label := by
      cases htakes with
      | side _ _ _ _ _ _ _ => rw [List.mem_singleton.mp hb]
      | nothing _ _ => cases hb
    rw [← hbl, hlabel] at halike ⊢
    exact ⟨rfl, hsides.mpr ⟨b, hb, hlabel, halike⟩⟩

/-- The simulation of a cycle goes through the same places as the execution, and covers them. -/
theorem InCycle.visits {visits : List Simulation} {final : Simulation} (hp : p.HavocFree)
    (hmain : g.main = p.main)
    (hvisits : Loop.Visits (fun s => s.context.cycle = k) g.advance s visits final)
    (h : InCycle p g.executor inputs conf₀ k s.context conf) :
    ∃ visits' conf', Loop.Visits (fun conf => conf.cycle = k) ((p.version g.mode).step inputs) conf
        visits' conf' ∧
      InCycle p g.executor inputs conf₀ k final.context conf' ∧
      (∀ l, final.coverage.coveredStatements.find? l = some true ↔
        s.coverage.coveredStatements.find? l = some true ∨
          ∃ conf₁ ∈ visits', conf₁.vertex.label = l) ∧
      (∀ l side, final.coverage.Covers l side ↔ s.coverage.Covers l side ∨
        ∃ conf₁ ∈ visits', ∃ conf₂ taken, (p.version g.mode).step inputs conf₁ = .ok conf₂ ∧
          conf₂.cycle = k ∧ conf₂.branches = conf₁.branches ++ taken ∧
          ∃ b ∈ taken, b.label = l ∧ LeadsAlike p.main l b.taken side) ∧
      ∀ conf₁ ∈ visits', ∀ conf₂ taken, (p.version g.mode).step inputs conf₁ = .ok conf₂ →
        conf₂.branches = conf₁.branches ++ taken →
        ∀ b ∈ taken, LeadsAlike p.main b.label b.taken b.taken := by
  have hcycle : ∀ v ∈ visits, v.context.cycle = k := fun v hv => of_decide_eq_true (hvisits.of_mem v hv)
  obtain ⟨visits', conf', hvisits', hall, hfinal⟩ : ∃ visits' conf',
      Loop.Visits (fun conf => conf.cycle = k) ((p.version g.mode).step inputs) conf visits' conf' ∧
        List.Forall₂ (fun s conf => InCycle p g.executor inputs conf₀ k s.context conf) visits
          visits' ∧ InCycle p g.executor inputs conf₀ k final.context conf' := by
    refine hvisits.simulates (fun v w hvw => ?_) (fun v hv v' w hvw hv' => ?_) h
    · rw [hvw.tracks.located.cycle]
    · obtain ⟨w', hstep, hin⟩ := hvw.advance hp hmain (hcycle v hv) hv'
      exact ⟨w', hstep.step, hin⟩
  refine ⟨visits', conf', hvisits', hfinal, fun l => ?_, fun l side => ?_,
    fun w hw w' taken hw' hgrown b hb => ?_⟩
  · rw [hvisits.collects (G := fun v => v.context.label = l)
      (Q := fun v => v.coverage.coveredStatements.find? l = some true) fun v hv v' hv' => ?_]
    · have hlabels := @Loop.exists_mem_iff _ _ _ (fun v => v.context.label = l)
        (fun conf => conf.vertex.label = l) _ _ hall fun v _ w hvw => by rw [hvw.label_eq]
      rw [hlabels]
    · obtain ⟨-, increased, hupdate⟩ := Engine.advance_cases hv'
      rw [(Coverage.update_iff hupdate).1 l, eq_comm (a := l)]
  · rw [hvisits.collects (G := fun v => ∃ v', g.advance v = .ok v' ∧ l = v.context.label ∧
        ∃ edge ∈ v'.context.frame.cfg.getOutgoingEdges v.context.label,
          edge.targetLabel = v'.context.label ∧ edge.IsSide side)
      (Q := fun v => v.coverage.Covers l side) fun v hv v' hv' => ?_]
    · refine or_congr_right (Loop.exists_mem_iff hall fun v hv w hvw => ?_)
      obtain ⟨v', hv'⟩ := (hvisits.reaches_of_mem.2 v hv).2
      obtain ⟨w', hstep, hin⟩ := hvw.advance hp hmain (hcycle v hv) hv'
      refine Iff.trans ?_ (hstep.covers_iff (hcycle v hv) hvw.placed hin.placed)
      constructor
      · rintro ⟨v'', hv'', hcovers⟩
        rw [hv'] at hv''
        cases hv''
        exact hcovers
      · exact fun hcovers => ⟨v', hv', hcovers⟩
    · obtain ⟨-, increased, hupdate⟩ := Engine.advance_cases hv'
      rw [(Coverage.update_iff hupdate).2 l side]
      constructor
      · exact fun hcovers => hcovers.imp_right fun hcovers => ⟨v', hv', hcovers⟩
      · refine fun hcovers => hcovers.imp_right ?_
        rintro ⟨v'', hv'', hcovers⟩
        rw [hv'] at hv''
        cases hv''
        exact hcovers
  · obtain ⟨v, hv, hvw⟩ := exists_of_forall₂ hall.flip hw
    obtain ⟨v', hv'⟩ := (hvisits.reaches_of_mem.2 v hv).2
    obtain ⟨w'', hstep, -⟩ := hvw.advance hp hmain (hcycle v hv) hv'
    obtain ⟨taken', htakes, hgrown'⟩ := hstep.takes
    have hsame : w'' = w' := Except.ok.inj (hstep.step.symm.trans hw')
    subst hsame
    rw [hgrown] at hgrown'
    have htaken : taken = taken' := List.append_cancel_left hgrown'
    subst htaken
    exact htakes.leadsAlike_self (hvw.placed.reached _ List.mem_cons_self) b hb

end Cycle

end Ahorn.Simulator
