import Ahorn.EtfaReachable
import Ahorn.NoMergeExecutor

set_option autoImplicit false

/-!
# What holds of every context without merging

The symbolic half of every step is one of the merging engine, so contexts stay well defined and at
vertices of their units, whatever the versions of the executor are.
-/
namespace Ahorn.EtfaNoMerge

open Etfa
variable {p : Program} {ex : Executor} {random : String → ℤ} {versions versions' : Versions}
  {c c' : Context} {frame : Frame}

namespace Summarizer

theorem mem_checkSummaries {simplifier : Simplifier String} {finder : ModelFinder String}
    {summaries : List Summary} {model last : PartialModel String}
    {applicable : List (Summary × Option (PartialModel String))}
    (h : checkSummaries simplifier finder frame c summaries model = .ok (applicable, last)) :
    ∀ x ∈ applicable, x.1 ∈ summaries := by
  induction summaries generalizing model applicable with
  | nil =>
    cases h
    exact fun _ hx => absurd hx List.not_mem_nil
  | cons summary summaries ih =>
    obtain ⟨model₁, -, h⟩ := bind_eq_ok h
    have hcons : ∀ {rest : List (Summary × Option (PartialModel String))} {own},
        (∀ x ∈ rest, x.1 ∈ summaries) →
        ∀ x ∈ (summary, own) :: rest, x.1 ∈ summary :: summaries := by
      intro rest own hrest x hx
      rcases List.mem_cons.mp hx with rfl | hx
      · exact List.mem_cons_self
      · exact List.mem_cons_of_mem _ (hrest x hx)
    split_ifs at h
    · obtain ⟨⟨rest, last₁⟩, hrest, h⟩ := bind_eq_ok h
      cases h
      exact hcons (ih hrest)
    · obtain ⟨own, -, h⟩ := bind_eq_ok h
      obtain ⟨⟨rest, last₁⟩, hrest, h⟩ := bind_eq_ok h
      cases own with
      | some own =>
        cases h
        exact hcons (ih hrest)
      | none =>
        cases h
        exact fun x hx => List.mem_cons_of_mem _ (ih hrest x hx)

theorem mem_findConcretelyApplicableSummaries {simplifier : Simplifier String}
    {finder : ModelFinder String} {getSummaries : String → List Summary}
    {applicable : List (Summary × PartialModel String)}
    (h : findConcretelyApplicableSummaries simplifier finder getSummaries c = .ok applicable) :
    ∀ x ∈ applicable, ∃ typeName, x.1 ∈ getSummaries typeName := by
  obtain ⟨frame, -, h⟩ := bind_eq_ok h
  split at h
  · cases h
    exact fun _ hx => absurd hx List.not_mem_nil
  · rename_i summaries _
    obtain ⟨model, -, h⟩ := bind_eq_ok h
    obtain ⟨⟨found, last⟩, hfound, h⟩ := bind_eq_ok h
    cases h
    intro x hx
    obtain ⟨y, hy, rfl⟩ := List.mem_map.mp hx
    exact ⟨frame.cfg.name, mem_checkSummaries hfound y hy⟩

end Summarizer

namespace Executor

/-- The term that is added to the path constraint on a side of a branch. -/
def side (ex : Executor) (taken : Bool) (t : Term String .bool) : Term String .bool :=
  if taken then t else ex.simplifier.simplify (.not t)

theorem holds_side (ex : Executor) (M : Model String) (taken : Bool) (t : Term String .bool) :
    (ex.side taken t).Holds M ↔ t.eval M = taken := by
  cases taken with
  | true => rfl
  | false =>
    change (ex.simplifier.simplify (.not t)).eval M = true ↔ _
    rw [ex.simplifier.eval_simplify]
    exact Bool.not_eq_eq_eq_not

theorem side_occurrences (ex : Executor) (taken : Bool) (t : Term String .bool) :
    (ex.side taken t).occurrences ⊆ t.occurrences := by
  cases taken with
  | true => exact List.Subset.refl _
  | false => exact ex.simplifier.occurrences_simplify (.not t)

def query (c : Context) (expression : Term String .bool) : List (Term String .bool) :=
  c.state.pathConstraint ++ c.state.symbolicValuations.entries.map Etfa.Executor.equation ++
    [expression]

theorem tryFork_cases {taken : Bool} {vertex : Vertex} {expression : Term String .bool}
    (h : ex.tryFork frame taken vertex expression c = .ok (some c')) :
    ∃ model concreteValuations, ex.finder.find (query c expression) = some model ∧
      overwrite model c.concreteValuations = .ok concreteValuations ∧
      c' = { c.take frame taken vertex expression with concreteValuations := concreteValuations } := by
  obtain ⟨unconstrained, -, h⟩ := bind_eq_ok h
  split_ifs at h
  · dsimp only at h
    split at h
    · cases h
    · rename_i model hmodel
      obtain ⟨concreteValuations, hoverwrite, h⟩ := bind_eq_ok h
      cases h
      exact ⟨model, concreteValuations, hmodel, hoverwrite, rfl⟩
  · cases h

/-- A branch leads to the side of its concrete value, and over a fork to the other one. -/
theorem visitIf_cases {e : Expression} {successors : Successors}
    (h : ex.visitIf frame e c = .ok successors) : ∃ evaluated t,
      evaluate frame c e = .ok (.bool evaluated) ∧
      ex.symbolic.encode frame c.toContext e = .ok ⟨.bool, t⟩ ∧
      ∀ c' ∈ successors.contexts ++ successors.forked.toList, ∃ taken edge next,
        frame.cfg.getEdgeOfType (if taken then .trueBranch else .falseBranch) c.state.vertex.label =
          .ok edge ∧
        frame.cfg.getVertex edge.targetLabel = .ok next ∧
        ((taken = evaluated ∧ c' = c.take frame taken next (ex.side taken t)) ∨
          ∃ model concreteValuations, ex.finder.find (query c (ex.side taken t)) = some model ∧
            overwrite model c.concreteValuations = .ok concreteValuations ∧
            c' = { c.take frame taken next (ex.side taken t) with
              concreteValuations := concreteValuations }) := by
  obtain ⟨value, hvalue, h⟩ := bind_eq_ok h
  cases value with
  | int i => cases h
  | bool evaluated =>
    obtain ⟨⟨s, t⟩, ht, h⟩ := bind_eq_ok h
    cases s with
    | int => cases h
    | bool =>
      obtain ⟨trueEdge, htrue, h⟩ := bind_eq_ok h
      obtain ⟨positive, hpositive, h⟩ := bind_eq_ok h
      obtain ⟨falseEdge, hfalse, h⟩ := bind_eq_ok h
      obtain ⟨negative, hnegative, h⟩ := bind_eq_ok h
      refine ⟨evaluated, t, hvalue, ht, ?_⟩
      cases evaluated with
      | true =>
        obtain ⟨forked, hforked, h⟩ := bind_eq_ok h
        cases h
        intro c' hc'
        rcases List.mem_append.mp hc' with hc' | hc'
        · obtain rfl := List.mem_singleton.mp hc'
          exact ⟨true, trueEdge, positive, htrue, hpositive, Or.inl ⟨rfl, rfl⟩⟩
        · obtain rfl : forked = some c' := Option.mem_toList.mp hc'
          exact ⟨false, falseEdge, negative, hfalse, hnegative, Or.inr (tryFork_cases hforked)⟩
      | false =>
        obtain ⟨forked, hforked, h⟩ := bind_eq_ok h
        cases h
        intro c' hc'
        rcases List.mem_append.mp hc' with hc' | hc'
        · obtain rfl := List.mem_singleton.mp hc'
          exact ⟨false, falseEdge, negative, hfalse, hnegative, Or.inl ⟨rfl, rfl⟩⟩
        · obtain rfl : forked = some c' := Option.mem_toList.mp hc'
          exact ⟨true, trueEdge, positive, htrue, hpositive, Or.inr (tryFork_cases hforked)⟩

theorem visitAssignment_cases {r : VariableReference} {e : Expression}
    (h : ex.visitAssignment frame r e versions c = .ok (versions', c')) : ∃ value w,
      evaluate frame c e = .ok value ∧
      ex.symbolic.visitAssignment frame r e versions c.toContext = .ok (versions', c'.toContext) ∧
      c'.state.flattenedNameToVersion.find? (frame.scope ++ "." ++ r.getName) = some w ∧
      setConcreteValuation (contextualized (frame.scope ++ "." ++ r.getName) w c.cycle) value
        c.concreteValuations = .ok c'.concreteValuations ∧
      c'.branches = c.branches := by
  obtain ⟨value, hvalue, h⟩ := bind_eq_ok h
  obtain ⟨⟨versions₁, c₁⟩, hassign, h⟩ := bind_eq_ok h
  obtain ⟨w, hw, h⟩ := bind_eq_ok h
  obtain ⟨concreteValuations, hset, h⟩ := bind_eq_ok h
  cases h
  exact ⟨value, w, hvalue, hassign, State.getVersion_eq hw, hset, rfl⟩

theorem applySummaryConcretely_cases {summary : Summary} {model : PartialModel String}
    (h : ex.applySummaryConcretely summary model versions c = .ok (versions', c')) :
    ∃ frame r valuations, c.toContext.getFrame = .ok frame ∧
      Etfa.Executor.reversionWritten versions c.cycle summary.hardConstraints.keys {} = .ok r ∧
      evaluateHardConstraints r.used model summary.hardConstraints.entries = .ok valuations ∧
      setConcreteValuations valuations c.concreteValuations = .ok c'.concreteValuations ∧
      Etfa.Executor.applySummary summary versions c.toContext = .ok (versions', c'.toContext) ∧
      c'.branches = c.branches ++ ex.branchesOf frame.scope summary := by
  obtain ⟨frame, hframe, h⟩ := bind_eq_ok h
  obtain ⟨r, hr, h⟩ := bind_eq_ok h
  obtain ⟨valuations, hvaluations, h⟩ := bind_eq_ok h
  obtain ⟨concreteValuations, hset, h⟩ := bind_eq_ok h
  obtain ⟨⟨versions₁, c₁⟩, happly, h⟩ := bind_eq_ok h
  cases h
  exact ⟨frame, r, valuations, hframe, hr, hvaluations, hset, happly, rfl⟩

/-- The first versions have every variable of the second ones, at no higher version. -/
def Below (versions versions' : Versions) : Prop :=
  ∀ f v', versions'.find? f = some v' → ∃ v, versions.find? f = some v ∧ v ≤ v'

theorem mem_applySummaries {returnVertex : Vertex} {callStack : List Frame}
    {applicable : List (Summary × PartialModel String)} {cs : List Context}
    (hfits : ∀ x ∈ applicable, p.Fits x.1)
    (h : ex.applySummaries returnVertex callStack c applicable versions = .ok (versions', cs))
    (hc' : c' ∈ cs) : ∃ x ∈ applicable, ∃ versions₁ versions₂ c₁, Below versions versions₁ ∧
      ex.applySummaryConcretely x.1 x.2 versions₁ c = .ok (versions₂, c₁) ∧
      c' = { moveTo returnVertex c₁ with callStack := callStack } := by
  induction applicable generalizing versions cs with
  | nil =>
    cases h
    exact absurd hc' List.not_mem_nil
  | cons x applicable ih =>
    obtain ⟨⟨versions₁, c₁⟩, h₁, h⟩ := bind_eq_ok h
    obtain ⟨⟨versions₂, cs₂⟩, h₂, h⟩ := bind_eq_ok h
    cases h
    rcases List.mem_cons.mp hc' with rfl | hc'
    · exact ⟨x, List.mem_cons_self, versions, versions₁, c₁, fun _ v hv => ⟨v, hv, le_rfl⟩, h₁, rfl⟩
    · obtain ⟨y, hy, versions₃, versions₄, c₃, hbelow, h₃, rfl⟩ :=
        ih (fun z hz => hfits z (List.mem_cons_of_mem _ hz)) h₂ hc'
      obtain ⟨_, _, _, -, -, -, -, happly, -⟩ := applySummaryConcretely_cases h₁
      obtain ⟨r, hr⟩ := Etfa.Executor.applySummary_spec (hfits x List.mem_cons_self) happly
      refine ⟨y, List.mem_cons_of_mem _ hy, versions₃, versions₄, c₃, fun f v' hv' => ?_, h₃, rfl⟩
      obtain ⟨w, hw, hle⟩ := hbelow f v' hv'
      rw [hr.versions] at hw
      obtain ⟨v, hv, rfl⟩ := Option.map_eq_some_iff.mp hw
      exact ⟨v, hv, (Nat.le_max_left _ _).trans hle⟩

/-- A call applies the summaries that were found, or enters the callee where there is none. -/
theorem visitCall_cases {called : Variable} {successors : Successors}
    (h : ex.visitCall frame called versions c = .ok (versions', successors)) :
    ∃ typeName callee returnEdge callEdge applicable, called.dataType = .derivedType typeName ∧
      ex.getCfg typeName = some callee ∧
      frame.cfg.getIntraproceduralCallToReturnEdge c.state.vertex.label = .ok returnEdge ∧
      frame.cfg.getInterproceduralCallEdge c.state.vertex.label = .ok callEdge ∧
      ex.findApplicable (inside frame called callee returnEdge.targetLabel c) = .ok applicable ∧
      ((applicable = [] ∧ versions' = versions ∧ ∃ next,
          callee.getVertex callEdge.targetLabel = .ok next ∧
          successors = ⟨[moveTo next (inside frame called callee returnEdge.targetLabel c)], none⟩) ∨
        (applicable ≠ [] ∧ ∃ next cs, frame.cfg.getVertex returnEdge.targetLabel = .ok next ∧
          ex.applySummaries next c.callStack (inside frame called callee returnEdge.targetLabel c)
            applicable versions = .ok (versions', cs) ∧ successors = ⟨cs, none⟩)) := by
  obtain ⟨returnEdge, hreturn, h⟩ := bind_eq_ok h
  obtain ⟨callEdge, hcall, h⟩ := bind_eq_ok h
  split at h
  · rename_i typeName hdata
    split at h
    · cases h
    · rename_i callee hcallee
      obtain ⟨applicable, happlicable, h⟩ := bind_eq_ok h
      refine ⟨typeName, callee, returnEdge, callEdge, applicable, hdata, hcallee, hreturn, hcall,
        happlicable, ?_⟩
      split_ifs at h with hempty
      · obtain ⟨next, hnext, h⟩ := bind_eq_ok h
        cases h
        exact Or.inl ⟨List.isEmpty_iff.mp hempty, rfl, next, hnext, rfl⟩
      · obtain ⟨next, hnext, h⟩ := bind_eq_ok h
        obtain ⟨⟨versions₁, cs⟩, happly, h⟩ := bind_eq_ok h
        cases h
        exact Or.inr ⟨fun hnil => hempty (List.isEmpty_iff.mpr hnil), next, cs, hnext, happly, rfl⟩
  · cases h

theorem handleProgramExitVertex_cases
    (h : ex.handleProgramExitVertex random frame versions c = .ok (versions', c')) :
    ex.carryOver random c frame.cfg.flattenedInterface.entries c.concreteValuations =
        .ok c'.concreteValuations ∧
      ex.symbolic.handleProgramExitVertex frame versions c.toContext = .ok (versions', c'.toContext) ∧
      c'.branches = c.branches := by
  obtain ⟨concreteValuations, hcarry, h⟩ := bind_eq_ok h
  obtain ⟨⟨versions₁, c₁⟩, hexit, h⟩ := bind_eq_ok h
  cases h
  exact ⟨hcarry, hexit, rfl⟩

/-- What one execution of a context does, by the kind of its vertex. -/
inductive Executes (ex : Executor) (random : String → ℤ) (frame : Frame) (versions : Versions)
    (c : Context) : Versions → Successors → Prop where
  | move {next : Vertex} (hkind : c.state.vertex.type = .entry ∨
        (c.state.vertex.type = .regular ∧ c.state.vertex.instruction = none))
      (hnext : frame.cfg.getOnlySuccessor c.state.vertex.label = .ok next) :
      Executes ex random frame versions c versions ⟨[moveTo next c], none⟩
  | assignment {type : AssignmentType} {r : VariableReference} {e : Expression}
      {versions' : Versions} {c' : Context} (htype : c.state.vertex.type = .regular)
      (hinstruction : c.state.vertex.instruction = some (.assignmentInstruction type r e))
      (h : ex.visitAssignment frame r e versions c = .ok (versions', c')) :
      Executes ex random frame versions c versions' ⟨[c'], none⟩
  | call {called : Variable} {t₁ t₂ : ℤ} {versions' : Versions} {successors : Successors}
      (htype : c.state.vertex.type = .regular)
      (hinstruction : c.state.vertex.instruction = some (.callInstruction called t₁ t₂))
      (h : ex.visitCall frame called versions c = .ok (versions', successors)) :
      Executes ex random frame versions c versions' successors
  | branch {e : Expression} {t₁ t₂ : ℤ} {successors : Successors}
      (htype : c.state.vertex.type = .regular)
      (hinstruction : c.state.vertex.instruction = some (.ifInstruction e t₁ t₂))
      (h : ex.visitIf frame e c = .ok successors) :
      Executes ex random frame versions c versions successors
  | programExit {versions' : Versions} {c' : Context} (htype : c.state.vertex.type = .exit)
      (hprogram : frame.cfg.type = .program)
      (h : ex.handleProgramExitVertex random frame versions c = .ok (versions', c')) :
      Executes ex random frame versions c versions' ⟨[c'], none⟩
  | functionBlockExit {c' : Etfa.Context} (htype : c.state.vertex.type = .exit)
      (hfunctionBlock : frame.cfg.type = .functionBlock)
      (h : Etfa.Executor.handleFunctionBlockExitVertex frame c.toContext = .ok c') :
      Executes ex random frame versions c versions ⟨[{ c with toContext := c' }], none⟩

theorem execute_cases {successors : Successors}
    (h : ex.execute random versions c = .ok (versions', successors)) :
    ∃ frame frames, c.callStack = frame :: frames ∧
      Executes ex random frame versions c versions' successors := by
  obtain ⟨frame, hframe, h⟩ := bind_eq_ok h
  obtain ⟨frames, hstack⟩ : ∃ frames, c.callStack = frame :: frames := by
    unfold Etfa.Context.getFrame at hframe
    split at hframe
    · cases hframe
      exact ⟨_, by assumption⟩
    · cases hframe
  refine ⟨frame, frames, hstack, ?_⟩
  split at h
  · rename_i htype
    obtain ⟨c₁, hc₁, h⟩ := bind_eq_ok h
    cases h
    unfold Etfa.Executor.handleEntryVertex at hc₁
    split at hc₁
    · cases hc₁
    · obtain ⟨next, hnext, hc₁⟩ := bind_eq_ok hc₁
      cases hc₁
      exact .move (Or.inl htype) hnext
  · rename_i htype
    split at h
    · rename_i hinstruction
      obtain ⟨c₁, hc₁, h⟩ := bind_eq_ok h
      cases h
      obtain ⟨next, hnext, hc₁⟩ := bind_eq_ok hc₁
      cases hc₁
      exact .move (Or.inr ⟨htype, hinstruction⟩) hnext
    · rename_i hinstruction
      obtain ⟨⟨versions₁, c₁⟩, hc₁, h⟩ := bind_eq_ok h
      cases h
      exact .assignment htype hinstruction hc₁
    · rename_i hinstruction
      exact .call htype hinstruction h
    · rename_i hinstruction
      obtain ⟨successors₁, hsuccessors, h⟩ := bind_eq_ok h
      cases h
      exact .branch htype hinstruction hsuccessors
    · cases h
    · cases h
    · cases h
  · rename_i htype
    split at h
    · rename_i hprogram
      obtain ⟨⟨versions₁, c₁⟩, hc₁, h⟩ := bind_eq_ok h
      cases h
      exact .programExit htype hprogram hc₁
    · rename_i hfunctionBlock
      obtain ⟨c₁, hc₁, h⟩ := bind_eq_ok h
      cases h
      exact .functionBlockExit htype hfunctionBlock hc₁
    · cases h

theorem findApplicable_fits {applicable : List (Summary × PartialModel String)}
    (hfits : ∀ typeName, ∀ s ∈ ex.getSummaries typeName, p.Fits s)
    (h : ex.findApplicable c = .ok applicable) : ∀ x ∈ applicable, p.Fits x.1 := by
  intro x hx
  obtain ⟨typeName, hmem⟩ := Summarizer.mem_findConcretelyApplicableSummaries h x hx
  exact hfits typeName x.1 hmem

theorem mem_single {c₁ : Context}
    (h : c' ∈ (⟨[c₁], none⟩ : Successors).contexts ++ (⟨[c₁], none⟩ : Successors).forked.toList) :
    c' = c₁ := List.mem_singleton.mp (by simpa using h)

theorem exit_frame {frames : List Frame} (hplaced : c.toContext.Placed p)
    (hstack : c.callStack = frame :: frames) (hdepth : c.callStack.length = 1) :
    frame = ⟨p.main, p.main.name, p.main.entryLabel⟩ ∧ frames = [] := by
  have hmain := hplaced.stack.of_length_one hdepth
  rw [hstack] at hmain
  exact List.cons.inj hmain

/-- Every step leads to a vertex of the unit in front of the call stack. -/
theorem execute_placed {successors : Successors} (hcfg : ex.getCfg = p.getCfg)
    (hfits : ∀ typeName, ∀ s ∈ ex.getSummaries typeName, p.Fits s)
    (hplaced : c.toContext.Placed p)
    (h : ex.execute random versions c = .ok (versions', successors)) :
    ∀ c' ∈ successors.contexts ++ successors.forked.toList, c'.toContext.Placed p := by
  obtain ⟨frame, frames, hstack, hexecutes⟩ := execute_cases h
  have hframes := hstack ▸ hplaced.stack
  obtain ⟨l, hl⟩ := hplaced.atVertex frame frames hstack
  intro c' hc'
  cases hexecutes with
  | move _ hnext =>
    rw [mem_single hc']
    exact (Etfa.Executor.moveTo_leads hnext).placed hplaced hstack
  | assignment _ _ hstep =>
    rw [mem_single hc']
    obtain ⟨_, _, -, hassign, -⟩ := visitAssignment_cases hstep
    exact (Etfa.Executor.visitAssignment_leads hassign).placed hplaced hstack
  | call _ hinstruction hstep =>
    obtain ⟨typeName, callee, edge, _, applicable, htype, hcallee, -, -, happlicable, hor⟩ :=
      visitCall_cases hstep
    rcases hor with ⟨-, -, next, hnext, rfl⟩ | ⟨-, next, cs, hnext, happly, rfl⟩
    · rw [mem_single hc']
      exact Context.Placed.of_eq (.call (.called hframes.instance_of_head hl hinstruction htype
        (hcfg ▸ hcallee)) hplaced.stack) rfl (Etfa.Executor.getVertex_eq hnext) rfl
    · obtain ⟨_, _, _, _, c₁, -, -, rfl⟩ := mem_applySummaries
        (findApplicable_fits hfits happlicable) happly (by simpa using hc')
      exact Context.Placed.of_eq hframes hstack (Etfa.Executor.getVertex_eq hnext) rfl
  | branch _ _ hstep =>
    obtain ⟨_, _, -, -, hsides⟩ := visitIf_cases hstep
    obtain ⟨_, edge, next, hedge, hnext, hor⟩ := hsides c' hc'
    have hplace : c'.callStack = c.callStack ∧ c'.state.vertex = next := by
      rcases hor with ⟨-, rfl⟩ | ⟨_, _, -, -, rfl⟩ <;> exact ⟨rfl, rfl⟩
    exact Context.Placed.of_eq hframes (hplace.1.trans hstack) (Etfa.Executor.getVertex_eq hnext)
      hplace.2
  | programExit _ _ hstep =>
    rw [mem_single hc']
    obtain ⟨-, hexit, -⟩ := handleProgramExitVertex_cases hstep
    obtain ⟨-, hcall, hvertex⟩ := Etfa.Executor.handleProgramExitVertex_returns hexit
    exact Context.Placed.of_eq hframes (hcall.trans hstack) hvertex rfl
  | functionBlockExit _ _ hstep =>
    rw [mem_single hc']
    obtain ⟨callee, caller, callers, next, hcallers, hnext, rfl⟩ :=
      Etfa.Executor.handleFunctionBlockExitVertex_returns hstep
    have hcaller : p.Stack (caller :: callers) := by
      have h' := hplaced.stack
      rw [hcallers] at h'
      cases h' with
      | call _ h' => exact h'
    exact Context.Placed.of_eq hcaller rfl hnext rfl

theorem take_wellDefined {taken : Bool} {next : Vertex} {e : Expression} {t : Term String .bool}
    (hc : c.WellDefined p) (hrefs : ∀ q ∈ e.references, p.Resolves frame.scope q)
    (ht : ex.symbolic.encode frame c.toContext e = .ok ⟨.bool, t⟩) :
    (c.toContext.fork next (ex.side taken t)).WellDefined p :=
  Etfa.Executor.fork_wellDefined hc next fun n hn =>
    Etfa.Executor.encode_closed hc hrefs ht n (ex.side_occurrences taken t hn)

/-- Whatever the versions of the executor are, a step leaves the context well defined. -/
theorem execute_wellDefined {successors : Successors} (hp : p.WellSorted)
    (hfits : ∀ typeName, ∀ s ∈ ex.getSummaries typeName, p.Fits s)
    (hplaced : c.toContext.Placed p) (hc : c.WellDefined p)
    (h : ex.execute random versions c = .ok (versions', successors)) :
    ∀ c' ∈ successors.contexts ++ successors.forked.toList, c'.WellDefined p := by
  obtain ⟨frame, frames, hstack, hexecutes⟩ := execute_cases h
  have hframes := hstack ▸ hplaced.stack
  obtain ⟨l, hl⟩ := hplaced.atVertex frame frames hstack
  intro c' hc'
  cases hexecutes with
  | move _ _ =>
    rw [mem_single hc']
    exact hc.of_eq rfl rfl hc.closed rfl
  | assignment _ hinstruction hstep =>
    rw [mem_single hc']
    obtain ⟨_, _, -, hassign, -⟩ := visitAssignment_cases hstep
    exact Etfa.Executor.visitAssignment_wellDefined hc
      (hp.sorted hframes.instance_of_head hl hinstruction) hassign
  | @call called _ _ _ _ _ hinstruction hstep =>
    obtain ⟨typeName, callee, edge, _, applicable, -, -, -, -, happlicable, hor⟩ :=
      visitCall_cases hstep
    have hinside : (inside frame called callee edge.targetLabel c).WellDefined p :=
      hc.of_eq rfl rfl hc.closed rfl
    rcases hor with ⟨-, -, next, -, rfl⟩ | ⟨-, next, cs, -, happly, rfl⟩
    · rw [mem_single hc']
      exact hinside.of_eq rfl rfl hinside.closed rfl
    · have hfound := findApplicable_fits hfits happlicable
      obtain ⟨x, hx, _, _, c₁, -, h₁, rfl⟩ :=
        mem_applySummaries hfound happly (by simpa using hc')
      obtain ⟨_, _, _, -, -, -, -, happly₁, -⟩ := applySummaryConcretely_cases h₁
      obtain ⟨r, hr⟩ := Etfa.Executor.applySummary_spec (hfound x hx) happly₁
      have hc₁ := hr.wellDefined (hfound x hx) hinside
      exact hc₁.of_eq rfl rfl hc₁.closed rfl
  | branch _ hinstruction hstep =>
    obtain ⟨_, t, -, ht, hsides⟩ := visitIf_cases hstep
    have hrefs := hp.sorted hframes.instance_of_head hl hinstruction
    obtain ⟨taken, edge, next, -, -, hor⟩ := hsides c' hc'
    have htake : (c.toContext.fork next (ex.side taken t)).WellDefined p :=
      take_wellDefined hc hrefs ht
    rcases hor with ⟨-, rfl⟩ | ⟨_, _, -, -, rfl⟩ <;> exact htake
  | programExit _ _ hstep =>
    rw [mem_single hc']
    obtain ⟨-, hexit, -⟩ := handleProgramExitVertex_cases hstep
    obtain ⟨hdepth, -⟩ := Etfa.Executor.handleProgramExitVertex_cases hexit
    obtain ⟨rfl, -⟩ := exit_frame hplaced hstack hdepth
    exact Etfa.Executor.handleProgramExitVertex_wellDefined hp hc rfl hexit
  | functionBlockExit _ _ hstep =>
    rw [mem_single hc']
    obtain ⟨_, _, _, next, -, -, rfl⟩ := Etfa.Executor.handleFunctionBlockExitVertex_returns hstep
    exact hc.of_eq rfl rfl hc.closed rfl

end Executor

namespace Engine

theorem initial_cases {g : Engine} (h : initial p = .ok g) : ∃ g₀ c concreteValuations,
    Etfa.Engine.initial p = .ok g₀ ∧ g₀.explorer = [c] ∧
    initialConcreteValuations p.main.flattenedInterface.entries .empty = .ok concreteValuations ∧
    g.live = [⟨c, concreteValuations, []⟩] := by
  obtain ⟨concreteValuations, hconcrete, h⟩ := bind_eq_ok h
  obtain ⟨vertex, hvertex, h⟩ := bind_eq_ok h
  obtain ⟨⟨versions, st⟩, hst, h⟩ := bind_eq_ok h
  cases h
  refine ⟨{ versions := versions
            explorer := [⟨0, st, [⟨p.main, p.main.name, p.main.entryLabel⟩]⟩] },
    ⟨0, st, [⟨p.main, p.main.name, p.main.entryLabel⟩]⟩, concreteValuations, ?_, rfl, hconcrete, rfl⟩
  unfold Etfa.Engine.initial
  rw [hvertex]
  dsimp only [bind, Except.bind]
  rw [hst]

theorem live_foldl_push {g : Engine} {cs : List Context} :
    ∀ c ∈ (cs.foldl push g).live, c ∈ g.live ∨ c ∈ cs := by
  induction cs generalizing g with
  | nil => exact fun c hc => Or.inl hc
  | cons c₁ cs ih =>
    intro c hc
    rcases ih c hc with hc | hc
    · unfold push live at hc
      split_ifs at hc
      · simp only [List.mem_append, List.mem_singleton] at hc
        rcases hc with (hc | hc) | hc
        · exact Or.inl (List.mem_append_left _ hc)
        · exact Or.inr (hc ▸ List.mem_cons_self)
        · exact Or.inl (List.mem_append_right _ hc)
      · simp only [List.mem_append, List.mem_singleton] at hc
        rcases hc with hc | hc | hc
        · exact Or.inl (List.mem_append_left _ hc)
        · exact Or.inl (List.mem_append_right _ hc)
        · exact Or.inr (hc ▸ List.mem_cons_self)
    · exact Or.inr (List.mem_cons_of_mem _ hc)

/-- What holds of the first context, and is kept by every step that meets the condition, holds of
every live context. -/
theorem Reachable.induction {P : Versions → Context → Prop} {g : Engine} (Q : Context → Prop)
    (hinitial : ∀ g, Engine.initial p = .ok g → ∀ c ∈ g.live, Q c)
    (hstep : ∀ random versions c versions' successors, Q c → P versions c →
      ex.execute random versions c = .ok (versions', successors) →
      ∀ c' ∈ successors.contexts ++ successors.forked.toList, Q c')
    (hg : Reachable p ex P g) : ∀ c ∈ g.live, Q c := by
  induction hg with
  | initial h => exact hinitial _ h
  | @explore g c rest rest' random versions successors _ h hP hexecute ih =>
    intro c' hc'
    rcases live_foldl_push c' hc' with hc' | hc'
    · apply ih
      unfold live
      rw [h]
      rcases List.mem_append.mp hc' with hc' | hc'
      · refine List.mem_append_left _ ?_
        rcases List.mem_append.mp hc' with hc' | hc'
        · exact List.mem_append_left _ hc'
        · exact List.mem_append_right _ (List.mem_cons_of_mem _ hc')
      · exact List.mem_append_right _ hc'
    · refine hstep _ _ c _ _ (ih c ?_) hP hexecute c' hc'
      unfold live
      rw [h]
      exact List.mem_append_left _ (List.mem_append_right _ List.mem_cons_self)
  | nextCycle _ _ _ ih =>
    intro c hc
    rcases List.mem_append.mp hc with hc | hc
    · exact ih c (List.mem_append_right _ hc)
    · exact absurd hc List.not_mem_nil

theorem initial_wellDefined {g : Engine} (hp : p.WellSorted) (h : initial p = .ok g) :
    ∀ c ∈ g.live, c.toContext.Placed p ∧ c.WellDefined p := by
  obtain ⟨g₀, c, concreteValuations, hg₀, hc, -, hlive⟩ := initial_cases h
  obtain ⟨hinvariant, hplaced⟩ := Etfa.Engine.initial_explorer hp hg₀ c (by simp [hc])
  intro c' hc'
  rw [hlive] at hc'
  rw [List.mem_singleton.mp hc']
  exact ⟨hplaced, hinvariant.wellDefined⟩

end Engine

end Ahorn.EtfaNoMerge
