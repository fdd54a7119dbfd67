import Ahorn.EtfaMergeCorrect
import Ahorn.NoMergeAgreement

set_option autoImplicit false

/-!
# Contexts and paths

Without merging a context stands for one path through all cycles so far: the inputs that satisfy its
path constraint and its valuations drive the program along the branches it has taken.
-/
namespace Ahorn.EtfaNoMerge

open Etfa
open Encoder (valueOf)

variable {p : Program} {ex : Executor} {random : String → ℤ} {versions versions' : Versions}
  {c c' : Context} {frame : Frame} {inputs : Inputs} {M : Model String}

/-- The values of the inputs of all cycles so far satisfy the valuations and the path constraint. -/
structure Context.Admits (p : Program) (inputs : Inputs) (M : Model String) (c : Context) :
    Prop where
  respects : c.definitions.Respects M
  pathConstraint : ∀ t ∈ c.state.pathConstraint, t.Holds M
  inputs : ∀ k ≤ c.cycle, ∀ x ∈ p.wholeProgramInputs, ∀ s, p.sortOf x = some s →
    s.value (M s (contextualized x 0 k)) = inputs k x

/-- Whatever inputs the context admits drive the program from its initial state along the branches
the context has taken, to the store its valuations describe. -/
def Context.PathExact (p : Program) (c : Context) : Prop :=
  ∀ inputs M, c.Admits p inputs M → ∃ conf₀ conf, p.start inputs = .ok conf₀ ∧
    p.Runs inputs conf₀ conf ∧ conf.branches = c.branches ∧ Follows p M c.toContext conf

/-- The condition on a context that is executed: under the inputs it admits, a Boolean is added to a
Boolean of the same value only; at the exit of the program, the valuations imply the path constraint;
and the summaries found at a call describe it, and write no variable whose version in the context is
above that of the executor. -/
structure KeepsPaths (p : Program) (ex : Executor) (versions : Versions) (c : Context) : Prop where
  additions : ∀ {inputs M frame frames e}, c.Admits p inputs M → c.callStack = frame :: frames →
    c.expression? = some e →
    e.addsAlike .rejected (fun n => c.store p M (frame.scope ++ "." ++ n)) = true
  constraint : c.callStack.length = 1 → c.state.vertex.type = .exit →
    ∀ M, c.definitions.Respects M → ∀ t ∈ c.state.pathConstraint, t.Holds M
  summaries : ∀ {frame frames called t₁ t₂ callee returnLabel applicable},
    c.callStack = frame :: frames →
    c.state.vertex.instruction = some (.callInstruction called t₁ t₂) →
    ex.findApplicable (Executor.inside frame called callee returnLabel c) = .ok applicable →
    ∀ x ∈ applicable, p.Describes frame c.state.vertex x.1
        (ex.branchesOf (frame.scope ++ "." ++ called.name) x.1) ∧
      ∀ f v e, x.1.hardConstraints.find? (versioned f v) = some e → ∀ l g,
        c.state.flattenedNameToVersion.find? f = some l → versions.find? f = some g → l ≤ g

theorem Context.Admits.of_extends (hM : c'.Admits p inputs M) (hcycle : c.cycle ≤ c'.cycle)
    (hdefinitions : ∀ n e, c.definitions n = some e → c'.definitions n = some e)
    (hconstraint : ∀ t ∈ c.state.pathConstraint, t ∈ c'.state.pathConstraint) :
    c.Admits p inputs M where
  respects := fun n s t hn => hM.respects n s t (hdefinitions n _ hn)
  pathConstraint := fun t ht => hM.pathConstraint t (hconstraint t ht)
  inputs := fun k hk => hM.inputs k (hk.trans hcycle)

theorem Context.PathExact.step (hc : c.PathExact p)
    (hadmits : ∀ inputs M, c'.Admits p inputs M → c.Admits p inputs M)
    (hstep : ∀ inputs M conf, c'.Admits p inputs M → Follows p M c.toContext conf →
      conf.branches = c.branches → ∃ conf', p.Runs inputs conf conf' ∧
        conf'.branches = c'.branches ∧ Follows p M c'.toContext conf') : c'.PathExact p := by
  intro inputs M hM
  obtain ⟨conf₀, conf, hstart, hruns, hbranches, hfollows⟩ := hc inputs M (hadmits inputs M hM)
  obtain ⟨conf', hruns', hbranches', hfollows'⟩ := hstep inputs M conf hM hfollows hbranches
  exact ⟨conf₀, conf', hstart, hruns.trans hruns', hbranches', hfollows'⟩

theorem Context.Admits.of_eq (hM : c'.Admits p inputs M) (hcycle : c'.cycle = c.cycle)
    (hvaluations : c'.state.symbolicValuations = c.state.symbolicValuations)
    (hconstraint : c'.state.pathConstraint = c.state.pathConstraint) : c.Admits p inputs M := by
  apply hM.of_extends hcycle.ge
  · intro n e hn
    rw [Etfa.Context.definitions, hvaluations]
    exact hn
  · intro t ht
    rw [hconstraint]
    exact ht

namespace Executor

variable {frames : List Frame}

theorem moveTo_pathExact {next : Vertex} (hc : c.PathExact p) (hstack : c.callStack = frame :: frames)
    (hkind : c.state.vertex.type = .entry ∨
      (c.state.vertex.type = .regular ∧ c.state.vertex.instruction = none))
    (hnext : frame.cfg.getOnlySuccessor c.state.vertex.label = .ok next) :
    (moveTo next c).PathExact p := by
  refine hc.step (fun _ _ hM => hM.of_eq rfl rfl rfl) fun inputs M conf _ hf hbranches => ?_
  refine ⟨conf.moveTo next, hf.run hstack ?_, hbranches, hf.moveTo next⟩
  have hmove : (do
      let next ← frame.cfg.getOnlySuccessor conf.vertex.label
      .ok (conf.moveTo next)) = (.ok (conf.moveTo next) : Except String Configuration) := by
    rw [hf.vertex, hnext]
    rfl
  unfold Program.stepIn
  rcases hkind with htype | ⟨htype, hinstruction⟩
  · rw [hf.vertex, htype, ← hf.vertex]
    exact hmove
  · rw [hf.vertex, htype, hinstruction, ← hf.vertex]
    exact hmove

theorem visitAssignment_pathExact {type : AssignmentType} {r : VariableReference} {e : Expression}
    (hc : c.PathExact p) (hstack : c.callStack = frame :: frames)
    (htype : c.state.vertex.type = .regular)
    (hinstruction : c.state.vertex.instruction = some (.assignmentInstruction type r e))
    (hsorted : p.Sorted frame.scope (.assignmentInstruction type r e))
    (hkeeps : KeepsPaths p ex versions c)
    (h : ex.visitAssignment frame r e versions c = .ok (versions', c')) : c'.PathExact p := by
  obtain ⟨_, _, -, hassign, -, -, hbranch⟩ := visitAssignment_cases h
  obtain ⟨u, w, edge, next, -, -, hfresh, -, -, -, hc'⟩ :=
    Etfa.Executor.visitAssignment_cases hassign
  have hadmits : ∀ inputs M, c'.Admits p inputs M → c.Admits p inputs M := by
    intro inputs M hM
    apply hM.of_extends
    · rw [hc']
    · intro n e' hn
      rw [hc']
      refine (OrderedMap.find?_emplace_ne _ _ ?_).trans hn
      rintro rfl
      rw [hfresh] at hn
      cases hn
    · rw [hc']
      exact fun _ ht => ht
  refine hc.step hadmits fun inputs M conf hM hf hbranches => ?_
  have hadd := hkeeps.additions (hadmits inputs M hM) hstack
    (by rw [Context.expression?, hinstruction])
  obtain ⟨conf', hstep, hf', hbranches'⟩ := hf.assign hsorted hadd hassign hM.respects
  refine ⟨conf', hf.run hstack ?_, by rw [hbranches', hbranches, hbranch], hf'⟩
  unfold Program.stepIn
  rw [hf.vertex, htype, hinstruction]
  exact hstep

theorem visitIf_pathExact {e : Expression} {t₁ t₂ : ℤ} {successors : Successors}
    (hc : c.PathExact p) (hstack : c.callStack = frame :: frames)
    (htype : c.state.vertex.type = .regular)
    (hinstruction : c.state.vertex.instruction = some (.ifInstruction e t₁ t₂))
    (hsorted : p.Sorted frame.scope (.ifInstruction e t₁ t₂)) (hkeeps : KeepsPaths p ex versions c)
    (h : ex.visitIf frame e c = .ok successors) :
    ∀ c' ∈ successors.contexts ++ successors.forked.toList, c'.PathExact p := by
  obtain ⟨_, t, -, ht, hsides⟩ := visitIf_cases h
  have htake : ∀ taken edge next,
      frame.cfg.getEdgeOfType (if taken then .trueBranch else .falseBranch) c.state.vertex.label =
        .ok edge → frame.cfg.getVertex edge.targetLabel = .ok next →
      (c.take frame taken next (ex.side taken t)).PathExact p := by
    intro taken edge next hedge hnext
    have hadmits : ∀ inputs M, (c.take frame taken next (ex.side taken t)).Admits p inputs M →
        c.Admits p inputs M := fun inputs M hM =>
      hM.of_extends le_rfl (fun _ _ hn => hn) fun _ hu => List.mem_append_left _ hu
    refine hc.step hadmits fun inputs M conf hM hf hbranches => ?_
    have hadd := hkeeps.additions (hadmits inputs M hM) hstack
      (by rw [Context.expression?, hinstruction])
    have htaken : t.eval M = taken := (ex.holds_side M taken t).mp
      (hM.pathConstraint _ (List.mem_append_right _ (List.mem_singleton.mpr rfl)))
    obtain ⟨conf', hstep, hf', hbranches'⟩ :=
      hf.branch taken (ex.side taken t) hsorted hadd ht htaken hedge hnext
    refine ⟨conf', hf.run hstack ?_, by rw [hbranches', hbranches]; rfl, hf'⟩
    unfold Program.stepIn
    rw [hf.vertex, htype, hinstruction]
    exact hstep
  intro c' hc'
  obtain ⟨taken, edge, next, hedge, hnext, hor⟩ := hsides c' hc'
  rcases hor with ⟨-, rfl⟩ | ⟨_, _, -, -, rfl⟩
  · exact htake taken edge next hedge hnext
  · -- the concrete valuations of the fork do not matter
    intro inputs M hM
    exact htake taken edge next hedge hnext inputs M ⟨hM.respects, hM.pathConstraint, hM.inputs⟩

theorem visitCall_pathExact {called : Variable} {t₁ t₂ : ℤ} {successors : Successors}
    (hcfg : ex.getCfg = p.getCfg)
    (hfits : ∀ typeName, ∀ s ∈ ex.getSummaries typeName, p.Fits s) (hw : c.WellDefined p)
    (hc : c.PathExact p) (hstack : c.callStack = frame :: frames)
    (htype : c.state.vertex.type = .regular)
    (hinstruction : c.state.vertex.instruction = some (.callInstruction called t₁ t₂))
    (hkeeps : KeepsPaths p ex versions c)
    (h : ex.visitCall frame called versions c = .ok (versions', successors)) :
    ∀ c' ∈ successors.contexts ++ successors.forked.toList, c'.PathExact p := by
  obtain ⟨typeName, callee, returnEdge, callEdge, applicable, hdata, hcallee, hreturn, hcall, hfind,
    hor⟩ := visitCall_cases h
  intro c' hc'
  rcases hor with ⟨-, -, next, hnext, rfl⟩ | ⟨-, next, cs, hnext, happly, rfl⟩
  · rw [mem_single hc']
    refine hc.step (fun _ _ hM => hM.of_eq rfl rfl rfl) fun inputs M conf _ hf hbranches => ?_
    obtain ⟨conf', hstep, hf', hbranches'⟩ :=
      hf.enter hdata (hcfg ▸ hcallee) hreturn hcall hnext
    refine ⟨conf', hf.run hstack ?_, hbranches'.trans hbranches, hf'⟩
    unfold Program.stepIn
    rw [hf.vertex, htype, hinstruction]
    exact hstep
  · have hfound := findApplicable_fits hfits hfind
    obtain ⟨x, hx, versions₁, versions₂, c₁, hle, h₁, rfl⟩ :=
      mem_applySummaries hfound happly (by simpa using hc')
    obtain ⟨hdescribes, hbelow⟩ := hkeeps.summaries hstack hinstruction hfind x hx
    obtain ⟨frame₁, _, _, hframe₁, -, -, -, happly₁, hbranch₁⟩ := applySummaryConcretely_cases h₁
    obtain rfl : frame₁ = ⟨callee, frame.scope ++ "." ++ called.name, returnEdge.targetLabel⟩ := by
      cases hframe₁
      rfl
    obtain ⟨r, hr⟩ := Etfa.Executor.applySummary_spec (hfound x hx) happly₁
    have hadmits : ∀ inputs M, Context.Admits p inputs M
        { moveTo next c₁ with callStack := c.callStack } → c.Admits p inputs M := by
      intro inputs M hM
      refine hM.of_extends hr.cycle.ge hr.keep fun t ht => ?_
      exact hr.pathConstraint ▸ List.mem_append_left _ ht
    refine hc.step hadmits fun inputs M conf hM hf hbranches => ?_
    have hbelow₁ : ∀ f v e, x.1.hardConstraints.find? (versioned f v) = some e → ∀ l g,
        c.state.flattenedNameToVersion.find? f = some l → versions₁.find? f = some g → l ≤ g := by
      intro f v e he l g₁ hl hg₁
      obtain ⟨g, hg, hgg⟩ := hle f g₁ hg₁
      exact (hbelow f v e he l g hl hg).trans hgg
    obtain ⟨conf', hruns, hf', hbranches'⟩ := hf.apply hw hstack hreturn hnext (hfound x hx) hr
      hdescribes hbelow₁ hM.respects hM.pathConstraint
    exact ⟨conf', hruns, by rw [hbranches', hbranches]; exact hbranch₁.symm, hf'⟩

theorem handleFunctionBlockExitVertex_pathExact {c₁ : Etfa.Context} (hc : c.PathExact p)
    (hstack : c.callStack = frame :: frames) (htype : c.state.vertex.type = .exit)
    (hfunctionBlock : frame.cfg.type = .functionBlock)
    (h : Etfa.Executor.handleFunctionBlockExitVertex frame c.toContext = .ok c₁) :
    Context.PathExact p { c with toContext := c₁ } := by
  have hsame : c₁.cycle = c.cycle ∧ c₁.state.symbolicValuations = c.state.symbolicValuations ∧
      c₁.state.pathConstraint = c.state.pathConstraint := by
    obtain ⟨_, _, _, next, -, -, rfl⟩ := Etfa.Executor.handleFunctionBlockExitVertex_returns h
    exact ⟨rfl, rfl, rfl⟩
  refine hc.step (fun _ _ hM => hM.of_eq hsame.1 hsame.2.1 hsame.2.2)
    fun inputs M conf _ hf hbranches => ?_
  obtain ⟨conf', hstep, hf', hbranches'⟩ := hf.leave hstack h
  refine ⟨conf', hf.run hstack ?_, hbranches'.trans hbranches, hf'⟩
  unfold Program.stepIn
  rw [hf.vertex, htype]
  dsimp only
  rw [hfunctionBlock]
  exact hstep

theorem handleProgramExitVertex_pathExact (hinputs : ex.wholeProgramInputs = p.wholeProgramInputs)
    (hplaced : c.toContext.Placed p) (hw : c.WellDefined p) (hc : c.PathExact p)
    (hstack : c.callStack = frame :: frames) (htype : c.state.vertex.type = .exit)
    (hprogram : frame.cfg.type = .program) (hkeeps : KeepsPaths p ex versions c)
    (h : ex.handleProgramExitVertex random frame versions c = .ok (versions', c')) :
    c'.PathExact p := by
  obtain ⟨-, hexit, hbranch⟩ := handleProgramExitVertex_cases h
  obtain ⟨hdepth, st₁, st₂, next, hcarry, hreset, -, hc'⟩ :=
    Etfa.Executor.handleProgramExitVertex_cases hexit
  obtain ⟨rfl, -⟩ := exit_frame hplaced hstack hdepth
  obtain ⟨hval, -, -⟩ := Etfa.Executor.resetVersions_spec hreset
  have hcycle : c'.cycle = c.cycle + 1 := by rw [hc']
  have hadmits : ∀ inputs M, c'.Admits p inputs M → c.Admits p inputs M := by
    intro inputs M hM
    have hrespects : c.definitions.Respects M := by
      intro n s t hn
      apply hM.respects n s t
      have hkeep := (Etfa.Executor.carryOver_names hcarry).2.1 n _ hn
      rw [← hval] at hkeep
      rw [hc']
      exact hkeep
    exact ⟨hrespects, hkeeps.constraint hdepth htype M hrespects,
      fun k hk => hM.inputs k (by omega)⟩
  refine hc.step hadmits fun inputs M conf hM hf hbranches => ?_
  have hinputs' : ex.symbolic.wholeProgramInputs = p.wholeProgramInputs := hinputs
  obtain ⟨conf', hstep, hf', hbranches'⟩ := hf.nextCycle hw hinputs' rfl hexit hM.respects
    fun x hx s hs => hM.inputs c'.cycle le_rfl x hx s hs
  refine ⟨conf', hf.run hstack ?_, by rw [hbranches', hbranches, hbranch], hf'⟩
  unfold Program.stepIn
  rw [hf.vertex, htype]
  dsimp only
  rw [hprogram]
  exact hstep

theorem execute_pathExact {successors : Successors} (hp : p.WellSorted)
    (hcfg : ex.getCfg = p.getCfg) (hinputs : ex.wholeProgramInputs = p.wholeProgramInputs)
    (hfits : ∀ typeName, ∀ s ∈ ex.getSummaries typeName, p.Fits s)
    (hplaced : c.toContext.Placed p) (hw : c.WellDefined p) (hc : c.PathExact p)
    (hkeeps : KeepsPaths p ex versions c)
    (h : ex.execute random versions c = .ok (versions', successors)) :
    ∀ c' ∈ successors.contexts ++ successors.forked.toList, c'.PathExact p := by
  obtain ⟨frame, frames, hstack, hexecutes⟩ := execute_cases h
  have hframes := hstack ▸ hplaced.stack
  obtain ⟨l, hl⟩ := hplaced.atVertex frame frames hstack
  intro c' hc'
  cases hexecutes with
  | move hkind hnext =>
    rw [mem_single hc']
    exact moveTo_pathExact hc hstack hkind hnext
  | assignment htype hinstruction hstep =>
    rw [mem_single hc']
    exact visitAssignment_pathExact hc hstack htype hinstruction
      (hp.sorted hframes.instance_of_head hl hinstruction) hkeeps hstep
  | call htype hinstruction hstep =>
    exact visitCall_pathExact hcfg hfits hw hc hstack htype hinstruction hkeeps hstep c' hc'
  | branch htype hinstruction hstep =>
    exact visitIf_pathExact hc hstack htype hinstruction
      (hp.sorted hframes.instance_of_head hl hinstruction) hkeeps hstep c' hc'
  | programExit htype hprogram hstep =>
    rw [mem_single hc']
    exact handleProgramExitVertex_pathExact hinputs hplaced hw hc hstack htype hprogram hkeeps hstep
  | functionBlockExit htype hfunctionBlock hstep =>
    rw [mem_single hc']
    exact handleFunctionBlockExitVertex_pathExact hc hstack htype hfunctionBlock hstep

end Executor

namespace Engine

theorem initial_pathExact {g : Engine} (hp : p.WellSorted) (h : initial p = .ok g) :
    ∀ c ∈ g.live, c.PathExact p := by
  obtain ⟨g₀, c, concreteValuations, hg₀, hc, -, hlive⟩ := initial_cases h
  intro c' hc'
  rw [hlive] at hc'
  obtain rfl := List.mem_singleton.mp hc'
  intro inputs M hM
  obtain ⟨conf, hstart, hf, hbranches⟩ := Etfa.Engine.initial_follows hp hg₀
    (hc ▸ List.mem_cons_self) hM.respects fun x hx s hs => hM.inputs 0 (Nat.zero_le _) x hx s hs
  exact ⟨conf, conf, hstart, .refl, hbranches, hf⟩

/-- In every run in which all executed contexts meet the condition, every context of every cycle stands
for exactly the path it has taken. -/
theorem Reachable.path_exact {g : Engine} (hp : p.WellSorted) (hcfg : ex.getCfg = p.getCfg)
    (hinputs : ex.wholeProgramInputs = p.wholeProgramInputs)
    (hfits : ∀ typeName, ∀ s ∈ ex.getSummaries typeName, p.Fits s)
    (hg : Reachable p ex (KeepsPaths p ex) g) : ∀ c ∈ g.live, c.PathExact p := by
  have hall : ∀ c ∈ g.live, c.toContext.Placed p ∧ c.WellDefined p ∧ c.PathExact p := by
    refine hg.induction (fun c => c.toContext.Placed p ∧ c.WellDefined p ∧ c.PathExact p) ?_ ?_
    · intro g hg c hc
      obtain ⟨hplaced, hw⟩ := initial_wellDefined hp hg c hc
      exact ⟨hplaced, hw, initial_pathExact hp hg c hc⟩
    · rintro random versions c versions' successors ⟨hplaced, hw, hc⟩ hkeeps hexecute c' hc'
      exact ⟨Executor.execute_placed hcfg hfits hplaced hexecute c' hc',
        Executor.execute_wellDefined hp hfits hplaced hw hexecute c' hc',
        Executor.execute_pathExact hp hcfg hinputs hfits hplaced hw hc hkeeps hexecute c' hc'⟩
  exact fun c hc => (hall c hc).2.2

end Engine

theorem overwrite_ok {model : PartialModel String} {m : OrderedMap String Value}
    (h : ∀ i ∈ model, ∃ v, m.find? i.name = some v) : ∃ m', overwrite model m = .ok m' := by
  induction model generalizing m with
  | nil => exact ⟨m, rfl⟩
  | cons i model ih =>
    obtain ⟨v, hv⟩ := h i List.mem_cons_self
    unfold overwrite
    rw [hv]
    apply ih
    intro j hj
    rw [OrderedMap.find?_assign]
    split_ifs
    · exact ⟨_, rfl⟩
    · exact h j (List.mem_cons_of_mem _ hj)

/-- Where every constant of the query has a concrete valuation, the attempt to fork does not fail. -/
theorem Executor.tryFork_ok {taken unconstrained : Bool} {vertex : Vertex}
    {expression : Term String .bool}
    (hsearch : containsUnconstrainedUninterpretedConstant ex.simplifier c.state
      (2 * c.state.symbolicValuations.entries.length + 2) expression = .ok unconstrained)
    (hnames : ∀ t ∈ query c expression, ∀ k ∈ t.occurrences,
      ∃ v, c.concreteValuations.find? k.2 = some v) :
    ∃ forked, ex.tryFork frame taken vertex expression c = .ok forked := by
  unfold tryFork
  dsimp only
  rw [hsearch]
  dsimp only [bind, Except.bind]
  split_ifs
  · cases hfind : ex.finder.find (query c expression) with
    | none =>
      refine ⟨none, ?_⟩
      unfold query at hfind
      rw [hfind]
    | some model =>
      have hmodel : ∀ i ∈ model, ∃ v, c.concreteValuations.find? i.name = some v := by
        intro i hi
        obtain ⟨t, ht, hocc⟩ := ex.finder.occurs hfind i hi
        exact hnames t ht _ hocc
      obtain ⟨m, hm⟩ := overwrite_ok hmodel
      unfold query at hfind
      rw [hfind]
      dsimp only
      rw [hm]
      exact ⟨_, rfl⟩
  · exact ⟨none, rfl⟩

namespace Engine

theorem mem_explorer_foldl_push {g : Engine} {c : Context} {cs : List Context}
    (hc : c ∈ g.explorer ∨ c ∈ cs ∧ g.cycle = c.cycle) : c ∈ (cs.foldl push g).explorer := by
  induction cs generalizing g with
  | nil => exact hc.resolve_right fun h => List.not_mem_nil h.1
  | cons c₁ cs ih =>
    rw [List.foldl_cons]
    apply ih
    unfold push
    rcases hc with hc | ⟨hc, hcycle⟩
    · refine Or.inl ?_
      split_ifs
      · exact List.mem_append_left _ hc
      · exact hc
    · rcases List.mem_cons.mp hc with rfl | hc
      · rw [if_pos hcycle]
        exact Or.inl (List.mem_append_right _ List.mem_cons_self)
      · refine Or.inr ⟨hc, ?_⟩
        split_ifs <;> exact hcycle

theorem foldl_push_same (cs : List Context) (g : Engine) :
    (cs.foldl push g).cycle = g.cycle ∧ (cs.foldl push g).versions = g.versions := by
  induction cs generalizing g with
  | nil => exact ⟨rfl, rfl⟩
  | cons c cs ih =>
    obtain ⟨hcycle, hversions⟩ := ih (push g c)
    have hpush : (push g c).cycle = g.cycle ∧ (push g c).versions = g.versions := by
      unfold push
      split_ifs <;> exact ⟨rfl, rfl⟩
    exact ⟨hcycle.trans hpush.1, hversions.trans hpush.2⟩

end Engine

namespace DroppedConstraint

open NestedBranch

noncomputable def executor : Executor :=
  Engine.executor program (.identity _) (.classical _) (fun _ => []) fun _ _ => []

def concretely (c : Etfa.Context) (names : List String) (branches : List Branch)
    (hsorted : (names.map fun n => (n, Value.bool false)).Pairwise fun x y => x.1 < y.1) : Context where
  toContext := c
  concreteValuations := ⟨names.map fun n => (n, .bool false), hsorted⟩
  branches := branches

def first (l : ℤ) : Context :=
  concretely (entered l) ["P.a_0__0", "P.b_0__0", "P.x_0__0", "P.y_0__0"] [] (by decide)

def assigned : Context :=
  concretely (exploring 2 []) ["P.a_0__0", "P.b_0__0", "P.x_0__0", "P.x_1__0", "P.y_0__0"] []
    (by decide)

/-- The context that skips the outer branch, as its concrete valuations do. -/
def skipped : Context :=
  concretely skipping ["P.a_0__0", "P.b_0__0", "P.x_0__0", "P.x_1__0", "P.y_0__0"]
    [⟨"P", 2, false⟩] (by decide)

def next : Context where
  cycle := 1
  state := ⟨vertexAt 0, ⟨[("P.a_0__0", ⟨.bool, constant "P.a_0__0"⟩),
      ("P.a_0__1", ⟨.bool, constant "P.a_0__1"⟩), ("P.b_0__0", ⟨.bool, constant "P.b_0__0"⟩),
      ("P.b_0__1", ⟨.bool, constant "P.b_0__1"⟩), ("P.x_0__0", ⟨.bool, .booleanValue false⟩),
      ("P.x_0__1", ⟨.bool, constant "P.a_0__0"⟩), ("P.x_1__0", ⟨.bool, constant "P.a_0__0"⟩),
      ("P.y_0__0", ⟨.bool, .booleanValue false⟩), ("P.y_0__1", ⟨.bool, .booleanValue false⟩)],
      by decide⟩, [], versionsOf 0 0⟩
  callStack := [⟨main, "P", 0⟩]
  concreteValuations := ⟨["P.a_0__0", "P.a_0__1", "P.b_0__0", "P.b_0__1", "P.x_0__0", "P.x_0__1",
    "P.x_1__0", "P.y_0__0", "P.y_0__1"].map fun n => (n, .bool false), by decide⟩
  branches := [⟨"P", 2, false⟩]

theorem initial_eq :
    Engine.initial program = .ok { versions := versionsOf 0 0, explorer := [first 0] } := rfl

theorem execute_entry : executor.execute (fun _ => 0) (versionsOf 0 0) (first 0) =
    .ok (versionsOf 0 0, ⟨[first 1], none⟩) := rfl

theorem execute_assignment : executor.execute (fun _ => 0) (versionsOf 0 0) (first 1) =
    .ok (versionsOf 1 0, ⟨[assigned], none⟩) := rfl

theorem execute_exit : executor.execute (fun _ => 0) (versionsOf 1 0) skipped =
    .ok (versionsOf 0 0, ⟨[next], none⟩) := rfl

theorem execute_branch : ∃ forked, executor.execute (fun _ => 0) (versionsOf 1 0) assigned =
    .ok (versionsOf 1 0, ⟨[skipped], forked⟩) := by
  have hnames : ∀ t ∈ Executor.query assigned taking, ∀ k ∈ t.occurrences,
      (assigned.concreteValuations.find? k.2).isSome := by decide +kernel
  have hfork : ∃ forked, executor.tryFork ⟨main, "P", 0⟩ true (vertexAt 3) taking assigned =
      .ok forked := by
    apply Executor.tryFork_ok (by rfl)
    exact fun t ht k hk => Option.isSome_iff_exists.mp (hnames t ht k hk)
  obtain ⟨forked, hforked⟩ := hfork
  have hbranch : executor.execute (fun _ => 0) (versionsOf 1 0) assigned = ((executor.tryFork
      ⟨main, "P", 0⟩ true (vertexAt 3) taking assigned >>= fun forked =>
        .ok ⟨[skipped], forked⟩) >>= fun successors => .ok (versionsOf 1 0, successors)) := rfl
  rw [hforked] at hbranch
  exact ⟨forked, hbranch⟩

theorem reachable_skipped {P : Versions → Context → Prop} (hentry : P (versionsOf 0 0) (first 0))
    (hassignment : P (versionsOf 0 0) (first 1)) (hbranch : P (versionsOf 1 0) assigned) :
    ∃ g, Engine.Reachable program executor P g ∧ skipped ∈ g.explorer ∧ g.cycle = 0 ∧
      g.versions = versionsOf 1 0 := by
  obtain ⟨forked, hforked⟩ := execute_branch
  have h₀ : Engine.Reachable program executor P _ := .initial initial_eq
  have h₁ := h₀.explore_first rfl hentry execute_entry
  have h₂ := h₁.explore_first rfl hassignment execute_assignment
  refine ⟨_, h₂.explore_first rfl hbranch hforked, ?_, Engine.foldl_push_same _ _⟩
  exact Engine.mem_explorer_foldl_push (Or.inr ⟨List.mem_cons_self, rfl⟩)

def driving : Inputs := fun _ x => .bool (x = "P.a")

def values : Model String := model ["P.a_0__0", "P.a_0__1", "P.x_0__1", "P.x_1__0"]

theorem next_admits : next.Admits program driving values := by
  have hrespects : ∀ e ∈ next.state.symbolicValuations.entries,
      (Etfa.Executor.equation e).Holds values := by decide +kernel
  refine ⟨fun n s t hn => ?_, fun t ht => absurd ht List.not_mem_nil, ?_⟩
  · exact of_decide_eq_true (hrespects _ ((OrderedMap.find?_eq_some_iff _ _ _).mp hn))
  · intro k hk x hx s hs
    have hread : ∀ k ∈ [0, 1], ∀ x ∈ program.wholeProgramInputs, program.sortOf x = some .bool ∧
        SmtSort.value (values .bool (contextualized x 0 k)) = driving k x := by decide +kernel
    obtain ⟨hsort, hvalue⟩ := hread k (by simpa using Nat.le_one_iff_eq_zero_or_eq_one.mp hk) x hx
    rw [hsort] at hs
    cases hs
    exact hvalue

theorem start_taken {conf₀ conf : Configuration} (hstart : program.start driving = .ok conf₀)
    (hruns : program.Runs driving conf₀ conf) :
    conf.branches ≠ [⟨"P", 2, false⟩] := by
  have hstart' : program.start driving = .ok
    ⟨0, vertexAt 0, [⟨main, "P", 0⟩], program.initialStore driving, []⟩ := rfl
  rw [hstart'] at hstart
  cases hstart
  intro hbranches
  rcases Program.runs_cases hruns rfl with rfl | hruns
  · cases hbranches
  · rcases Program.runs_cases hruns rfl with rfl | hruns
    · cases hbranches
    · rcases Program.runs_cases hruns rfl with rfl | hruns
      · cases hbranches
      · have hprefix := Program.runs_branches hruns
        rw [hbranches] at hprefix
        have hfirst : ([⟨"P", 2, true⟩] : List Branch) <+: [⟨"P", 2, false⟩] := hprefix
        revert hfirst
        decide

end DroppedConstraint

open DroppedConstraint in
/-- The context that skipped the branch in the first cycle admits, in the second one, inputs that take
it. -/
theorem exit_drops_constraint : Etfa.NestedBranch.program.WellSorted ∧
    ∃ g, Engine.Reachable Etfa.NestedBranch.program executor (fun _ _ => True) g ∧
      ∃ c ∈ g.live, ¬ c.PathExact Etfa.NestedBranch.program := by
  obtain ⟨g, hg, hmem, hcycle, hversions⟩ := reachable_skipped (P := fun _ _ => True) trivial trivial
    trivial
  obtain ⟨rest, rest', hexplorer⟩ := List.append_of_mem hmem
  have hexecute : executor.execute (fun _ => 0) g.versions skipped =
      .ok (Etfa.NestedBranch.versionsOf 0 0, ⟨[next], none⟩) := by
    rw [hversions]
    exact execute_exit
  refine ⟨Etfa.NestedBranch.wellFormed.toWellSorted, _, .explore hg hexplorer trivial hexecute, next,
    ?_, fun h => ?_⟩
  · have hcycle' : g.cycle ≠ next.cycle := by
      rw [hcycle]
      decide
    change next ∈ (Engine.push _ next).live
    unfold Engine.push
    rw [if_neg hcycle']
    exact List.mem_append_right _ (List.mem_append_right _ List.mem_cons_self)
  · obtain ⟨conf₀, conf, hstart, hruns, hbranches, -⟩ := h driving values next_admits
    exact start_taken hstart hruns hbranches

namespace LatchedInput

open Etfa.LatchedInput (program versionsAt)

noncomputable def executor : Executor :=
  Engine.executor program (.identity _) (.classical _) (fun _ => []) fun _ _ => []

def concretely (c : Etfa.Context) (names : List String) (branches : List Branch)
    (hsorted : (names.map fun n => (n, Value.bool false)).Pairwise fun x y => x.1 < y.1) : Context where
  toContext := c
  concreteValuations := ⟨names.map fun n => (n, .bool false), hsorted⟩
  branches := branches

def first (l : ℤ) : Context :=
  concretely (Etfa.LatchedInput.first l) ["P.a_0__0", "P.x_0__0"] [] (by decide)

def taking : Context :=
  concretely Etfa.LatchedInput.taking ["P.a_0__0", "P.x_0__0"] [⟨"P", 1, true⟩] (by decide)

def leaving : Context :=
  concretely Etfa.LatchedInput.leaving ["P.a_0__0", "P.x_0__0", "P.x_1__0"] [⟨"P", 1, true⟩]
    (by decide)

def second (l : ℤ) : Context :=
  concretely (Etfa.LatchedInput.second l)
    ["P.a_0__0", "P.a_0__1", "P.x_0__0", "P.x_0__1", "P.x_1__0"] [⟨"P", 1, true⟩] (by decide)

/-- The context that takes the branch in both cycles. -/
def retaking : Context :=
  concretely Etfa.LatchedInput.retaking
    ["P.a_0__0", "P.a_0__1", "P.x_0__0", "P.x_0__1", "P.x_1__0"]
    [⟨"P", 1, true⟩, ⟨"P", 1, true⟩] (by decide)

theorem keepsPaths {versions : Versions} {c : Context} {l : ℤ}
    (hc : Etfa.LatchedInput.main.labelToVertex.find? l = some c.state.vertex)
    (hconstraint : c.state.vertex.type = .exit → ∀ M, c.definitions.Respects M →
      ∀ t ∈ c.state.pathConstraint, t.Holds M) : KeepsPaths program executor versions c where
  additions := by
    intro inputs M frame frames e _ _ he
    unfold Context.expression? at he
    rcases Etfa.LatchedInput.mem_main hc with ⟨-, hv⟩ | ⟨-, hv⟩ | ⟨-, hv⟩ | ⟨-, hv⟩ <;>
      rw [hv] at he <;> cases he <;> rfl
  constraint := fun _ htype => hconstraint htype
  summaries := by
    intro frame frames called t₁ t₂ callee returnLabel applicable _ hcall
    rcases Etfa.LatchedInput.mem_main hc with ⟨-, hv⟩ | ⟨-, hv⟩ | ⟨-, hv⟩ | ⟨-, hv⟩ <;>
      rw [hv] at hcall <;> cases hcall

theorem explores {g g' : Engine} {c c' : Context} {versions : Versions}
    (hg : Engine.Reachable program executor (KeepsPaths program executor) g)
    (h : g.explorer = [c]) (hkeeps : KeepsPaths program executor g.versions c)
    (hexecute : executor.execute (fun _ => 0) g.versions c = .ok (versions, ⟨[c'], none⟩))
    (hg' : Engine.push { g with versions := versions, explorer := [] } c' = g') :
    Engine.Reachable program executor (KeepsPaths program executor) g' := by
  subst hg'
  exact hg.explore_first h hkeeps hexecute

theorem execute_second : ∃ forked, executor.execute (fun _ => 0) (versionsAt 0) (second 1) =
    .ok (versionsAt 0, ⟨[retaking], forked⟩) := by
  let negated : Term String .bool := .not (.not (Etfa.LatchedInput.constant "P.x_0__1"))
  have hnames : ∀ t ∈ Executor.query (second 1) negated, ∀ k ∈ t.occurrences,
      ((second 1).concreteValuations.find? k.2).isSome := by decide +kernel
  have hfork : ∃ forked, executor.tryFork ⟨Etfa.LatchedInput.main, "P", 0⟩ false
      (Etfa.LatchedInput.vertexAt 3) negated (second 1) = .ok forked := by
    apply Executor.tryFork_ok (by rfl)
    exact fun t ht k hk => Option.isSome_iff_exists.mp (hnames t ht k hk)
  obtain ⟨forked, hforked⟩ := hfork
  have hbranch : executor.execute (fun _ => 0) (versionsAt 0) (second 1) = ((executor.tryFork
      ⟨Etfa.LatchedInput.main, "P", 0⟩ false (Etfa.LatchedInput.vertexAt 3) negated (second 1) >>=
        fun forked => .ok ⟨[retaking], forked⟩) >>= fun successors =>
          .ok (versionsAt 0, successors)) := rfl
  rw [hforked] at hbranch
  exact ⟨forked, hbranch⟩

theorem reachable_retaking : ∃ g, Engine.Reachable program executor (KeepsPaths program executor) g ∧
    retaking ∈ g.explorer := by
  have hkeeps : ∀ {c : Context} {l : ℤ} {versions : Versions},
      Etfa.LatchedInput.main.labelToVertex.find? l = some c.state.vertex →
      c.state.vertex.type ≠ .exit → KeepsPaths program executor versions c :=
    fun hc hexit => keepsPaths hc fun h => absurd h hexit
  -- the path constraint follows from the initial value
  have hleaving : KeepsPaths program executor (versionsAt 1) leaving := by
    refine @keepsPaths _ _ 3 rfl fun _ M hM t ht => ?_
    have hunset : M .bool "P.x_0__0" = false := hM "P.x_0__0" .bool _ rfl
    have ht : t = .booleanValue true ∨ t = .not (Etfa.LatchedInput.constant "P.x_0__0") := by
      simpa [leaving, concretely, Etfa.LatchedInput.leaving, Etfa.LatchedInput.contextAt] using ht
    rcases ht with rfl | rfl
    · rfl
    · exact congrArg Bool.not hunset
  have h₀ : Engine.Reachable program executor (KeepsPaths program executor)
      { versions := versionsAt 0, explorer := [first 0] } := .initial rfl
  have h₁ : Engine.Reachable program executor (KeepsPaths program executor)
      { versions := versionsAt 0, explorer := [first 1] } :=
    explores h₀ rfl (@hkeeps _ 0 _ rfl (by decide)) rfl rfl
  have h₂ : Engine.Reachable program executor (KeepsPaths program executor)
      { versions := versionsAt 0, explorer := [taking] } :=
    explores h₁ rfl (@hkeeps _ 1 _ rfl (by decide)) rfl rfl
  have h₃ : Engine.Reachable program executor (KeepsPaths program executor)
      { versions := versionsAt 1, explorer := [leaving] } :=
    explores h₂ rfl (@hkeeps _ 2 _ rfl (by decide)) rfl rfl
  have h₄ : Engine.Reachable program executor (KeepsPaths program executor)
      { versions := versionsAt 0, succeedingCycle := [second 0] } :=
    explores h₃ rfl hleaving rfl rfl
  have h₅ : Engine.Reachable program executor (KeepsPaths program executor)
      { cycle := 1, versions := versionsAt 0, explorer := [second 0] } :=
    h₄.nextCycle rfl (List.cons_ne_nil _ _)
  have h₆ : Engine.Reachable program executor (KeepsPaths program executor)
      { cycle := 1, versions := versionsAt 0, explorer := [second 1] } :=
    explores h₅ rfl (@hkeeps _ 0 _ rfl (by decide)) rfl rfl
  obtain ⟨forked, hexecute⟩ := execute_second
  refine ⟨_, h₆.explore_first rfl (@hkeeps _ 1 _ rfl (by decide)) hexecute, ?_⟩
  exact Engine.mem_explorer_foldl_push (Or.inr ⟨List.mem_cons_self, rfl⟩)

/-- The input of the first cycle decides the branch of the second one. -/
theorem path_exact_retaking : retaking.cycle = 1 ∧
    retaking.branches = [⟨"P", 1, true⟩, ⟨"P", 1, true⟩] ∧
    retaking.PathExact Etfa.LatchedInput.program := by
  obtain ⟨g, hg, hmem⟩ := reachable_retaking
  exact ⟨rfl, rfl, Engine.Reachable.path_exact Etfa.LatchedInput.wellFormed.toWellSorted rfl rfl
    (fun _ _ h => absurd h List.not_mem_nil) hg retaking (List.mem_append_left _ hmem)⟩

end LatchedInput

end Ahorn.EtfaNoMerge
