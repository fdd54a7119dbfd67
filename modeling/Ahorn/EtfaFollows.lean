import Ahorn.EtfaReachable
import Ahorn.ProgramRuns

set_option autoImplicit false

/-!
# Contexts and configurations

A configuration follows a context under a model of its valuations when both stand at the same place
and every flattened variable has the value of its current version. Whatever the executor does to the
context, the program does to the configuration.
-/
namespace Ahorn.Etfa

open Encoder (valueOf)

variable {p : Program} {inputs : Inputs} {M : Model String} {versions versions' : Versions}
  {c c' : Context} {conf : Configuration} {frame : Frame} {frames : List Frame}

/-- The values of the flattened variables in the context. -/
def Context.store (p : Program) (M : Model String) (c : Context) : Valuation := fun x =>
  match p.sortOf x, c.state.flattenedNameToVersion.find? x with
  | some s, some v => s.value (M s (contextualized x v c.cycle))
  | _, _ => .int 0

theorem Context.store_eq {x : String} {s : SmtSort} {v : ℕ} (hx : p.sortOf x = some s)
    (hv : c.state.flattenedNameToVersion.find? x = some v) :
    c.store p M x = s.value (M s (contextualized x v c.cycle)) := by
  rw [store, hx, hv]

theorem Context.store_congr {x : String} (hcycle : c'.cycle = c.cycle)
    (hversion : c'.state.flattenedNameToVersion.find? x = c.state.flattenedNameToVersion.find? x) :
    c'.store p M x = c.store p M x := by
  rw [store, store, hcycle, hversion]

/-- Executing the call at a vertex does what the summary says: under the assumptions it takes the
given branches, and leaves every variable with the last valuation the summary writes. -/
def Program.Describes (p : Program) (frame : Frame) (call : Vertex) (summary : Summary)
    (branches : List Branch) : Prop :=
  ∀ inputs conf N frames, conf.vertex = call → conf.callStack = frame :: frames →
    (∀ q ∈ summary.occurrences, summary.hardConstraints.find? q.2 = none →
      q.1.value (N q.1 q.2) = conf.store (decontextualize q.2)) →
    Definitions.Respects summary.hardConstraints.find? N →
    (∀ t ∈ summary.assumptions, t.Holds N) →
    ∃ conf' returnEdge, p.Runs inputs conf conf' ∧ conf'.cycle = conf.cycle ∧
      conf'.callStack = conf.callStack ∧ conf'.branches = conf.branches ++ branches ∧
      frame.cfg.getIntraproceduralCallToReturnEdge call.label = .ok returnEdge ∧
      frame.cfg.getVertex returnEdge.targetLabel = .ok conf'.vertex ∧
      (∀ f v e, summary.hardConstraints.find? (versioned f v) = some e →
        (∀ w e', summary.hardConstraints.find? (versioned f w) = some e' → w ≤ v) →
        conf'.store f = e.1.value (N e.1 (versioned f v))) ∧
      ∀ f, (∀ v, summary.hardConstraints.find? (versioned f v) = none) →
        conf'.store f = conf.store f

structure Follows (p : Program) (M : Model String) (c : Context) (conf : Configuration) : Prop where
  cycle : conf.cycle = c.cycle
  vertex : conf.vertex = c.state.vertex
  callStack : conf.callStack = c.callStack
  store : ∀ {x s}, p.sortOf x = some s → conf.store x = c.store p M x

namespace Follows

theorem access {r : VariableReference} {u : SortedTerm String} (hf : Follows p M c conf)
    (hr : p.Resolves frame.scope r) (h : Executor.access frame c r = .ok u) :
    valueOf M u = conf.valuation frame.scope r.getName := by
  obtain ⟨v, s, hv, hs, rfl⟩ := Executor.access_eq h
  obtain ⟨s', hx, hs'⟩ := hr
  rw [hs] at hs'
  cases hs'
  rw [Configuration.valuation, hf.store hx, Context.store_eq hx hv]
  rfl

theorem encode {ex : Executor} {e : Expression} {u : SortedTerm String}
    (hf : Follows p M c conf) (hrefs : ∀ q ∈ e.references, p.Resolves frame.scope q)
    (h : ex.encode frame c e = .ok u) :
    valueOf M u = e.encoded .rejected (conf.valuation frame.scope) :=
  Encoder.encode_value e (fun _ hq _ hu => hf.access (hrefs _ hq) hu) h

theorem encode_eval {ex : Executor} {e : Expression} {u : SortedTerm String}
    (hf : Follows p M c conf) (hrefs : ∀ q ∈ e.references, p.Resolves frame.scope q)
    (hadd : e.addsAlike .rejected (fun n => c.store p M (frame.scope ++ "." ++ n)) = true)
    (h : ex.encode frame c e = .ok u) :
    valueOf M u = e.eval (conf.valuation frame.scope) := by
  rw [hf.encode hrefs h]
  apply Expression.encoded_eq_eval (by decide)
  rw [← hadd]
  apply Expression.addsAlike_congr
  intro q hq
  obtain ⟨s, hs, -⟩ := hrefs q hq
  exact hf.store hs

theorem moveTo (hf : Follows p M c conf) (next : Vertex) :
    Follows p M (Executor.moveTo next c) (conf.moveTo next) :=
  ⟨hf.cycle, rfl, hf.callStack, hf.store⟩

theorem assign {ex : Executor} {type : AssignmentType} {r : VariableReference} {e : Expression}
    (hf : Follows p M c conf) (hsorted : p.Sorted frame.scope (.assignmentInstruction type r e))
    (hadd : e.addsAlike .rejected (fun n => c.store p M (frame.scope ++ "." ++ n)) = true)
    (h : ex.visitAssignment frame r e versions c = .ok (versions', c'))
    (hM : c'.definitions.Respects M) :
    ∃ conf', Program.assign frame r e conf = .ok conf' ∧ Follows p M c' conf' ∧
      conf'.branches = conf.branches := by
  obtain ⟨⟨s, t⟩, w, edge, next, ht, -, hfresh, hedge, hnext, -, rfl⟩ :=
    Executor.visitAssignment_cases h
  have hsort := Executor.encode_sort ht
  dsimp only at hsort
  subst hsort
  have hvalue := hf.encode_eval hsorted.1 hadd ht
  have hnew : M _ (contextualized (frame.scope ++ "." ++ r.getName) (w + 1) c.cycle) = t.eval M :=
    hM _ _ t (OrderedMap.find?_emplace_self (⟨_, t⟩ : SortedTerm String) hfresh)
  refine ⟨{ conf.moveTo next with
      store := Function.update conf.store (frame.scope ++ "." ++ r.getName)
        (e.eval (conf.valuation frame.scope)) }, ?_, ⟨hf.cycle, rfl, hf.callStack, ?_⟩, rfl⟩
  · unfold Program.assign
    rw [hf.vertex, hedge]
    dsimp only [bind, Except.bind]
    rw [hnext]
  · intro y s hy
    dsimp only [Configuration.moveTo]
    by_cases hyx : y = frame.scope ++ "." ++ r.getName
    · subst hyx
      rw [hsorted.2] at hy
      cases hy
      rw [Function.update_self, ← hvalue, Context.store_eq hsorted.2
        (by rw [OrderedMap.find?_assign, if_pos rfl])]
      exact congrArg (SmtSort.value) hnew.symm
    · rw [Function.update_of_ne hyx, hf.store hy, Context.store, Context.store, hy,
        OrderedMap.find?_assign, if_neg hyx]

theorem branch {ex : Executor} {e : Expression} {t : Term String .bool} {edge : Edge}
    {next : Vertex} (taken : Bool) (u : Term String .bool) (hf : Follows p M c conf)
    (hrefs : ∀ q ∈ e.references, p.Resolves frame.scope q)
    (hadd : e.addsAlike .rejected (fun n => c.store p M (frame.scope ++ "." ++ n)) = true)
    (ht : ex.encode frame c e = .ok ⟨.bool, t⟩) (htaken : t.eval M = taken)
    (hedge : frame.cfg.getEdgeOfType (if taken then .trueBranch else .falseBranch)
      c.state.vertex.label = .ok edge)
    (hnext : frame.cfg.getVertex edge.targetLabel = .ok next) :
    ∃ conf', Program.branch frame e conf = .ok conf' ∧ Follows p M (c.fork next u) conf' ∧
      conf'.branches = conf.branches ++ [⟨frame.scope, c.state.vertex.label, taken⟩] := by
  have hvalue : e.eval (conf.valuation frame.scope) = .bool taken :=
    (hf.encode_eval hrefs hadd ht).symm.trans (congrArg Value.bool htaken)
  refine ⟨{ conf.moveTo next with
      branches := conf.branches ++ [⟨frame.scope, c.state.vertex.label, taken⟩] }, ?_,
    ⟨hf.cycle, rfl, hf.callStack, hf.store⟩, rfl⟩
  unfold Program.branch
  rw [hvalue, hf.vertex]
  dsimp only [Value.toBool]
  rw [hedge]
  dsimp only [bind, Except.bind]
  rw [hnext]

theorem enter {called : Variable} {typeName : String} {callee : UnitCfg} {returnEdge callEdge : Edge}
    {next : Vertex} (hf : Follows p M c conf) (htype : called.dataType = .derivedType typeName)
    (hcallee : p.getCfg typeName = some callee)
    (hreturn : frame.cfg.getIntraproceduralCallToReturnEdge c.state.vertex.label = .ok returnEdge)
    (hcall : frame.cfg.getInterproceduralCallEdge c.state.vertex.label = .ok callEdge)
    (hnext : callee.getVertex callEdge.targetLabel = .ok next) :
    ∃ conf', p.enter frame called conf = .ok conf' ∧
      Follows p M (Executor.moveTo next (Executor.inside frame called callee returnEdge.targetLabel c))
        conf' ∧ conf'.branches = conf.branches := by
  refine ⟨{ conf.moveTo next with
      callStack := ⟨callee, frame.scope ++ "." ++ called.name, returnEdge.targetLabel⟩ ::
        conf.callStack }, ?_, ⟨hf.cycle, rfl, ?_, hf.store⟩, rfl⟩
  · unfold Program.enter
    rw [hf.vertex, hreturn]
    dsimp only [bind, Except.bind]
    rw [hcall]
    dsimp only
    rw [htype]
    dsimp only
    rw [hcallee]
    dsimp only
    rw [hnext]
  · exact congrArg _ hf.callStack

theorem leave (hf : Follows p M c conf) (hstack : c.callStack = frame :: frames)
    (h : Executor.handleFunctionBlockExitVertex frame c = .ok c') :
    ∃ conf', Program.leave frame frames conf = .ok conf' ∧ Follows p M c' conf' ∧
      conf'.branches = conf.branches := by
  unfold Executor.handleFunctionBlockExitVertex at h
  rw [hstack] at h
  cases frames with
  | nil => cases h
  | cons caller callers =>
    obtain ⟨next, hnext, h⟩ := bind_eq_ok h
    cases h
    refine ⟨{ conf.moveTo next with callStack := caller :: callers }, ?_,
      ⟨hf.cycle, rfl, rfl, hf.store⟩, rfl⟩
    unfold Program.leave
    dsimp only [bind, Except.bind]
    rw [hnext]

/-- The next cycle reads the inputs and keeps all other variables. -/
theorem nextCycle {ex : Executor} (hc : c.WellDefined p)
    (hinputs : ex.wholeProgramInputs = p.wholeProgramInputs) (hframe : frame.cfg = p.main)
    (hf : Follows p M c conf) (h : ex.handleProgramExitVertex frame versions c = .ok (versions', c'))
    (hM : c'.definitions.Respects M)
    (hread : ∀ x ∈ p.wholeProgramInputs, ∀ s, p.sortOf x = some s →
      s.value (M s (contextualized x 0 c'.cycle)) = inputs c'.cycle x) :
    ∃ conf', p.nextCycle inputs frame conf = .ok conf' ∧ Follows p M c' conf' ∧
      conf'.branches = conf.branches := by
  obtain ⟨-, st₁, st₂, next, hcarry, hreset, hnext, rfl⟩ :=
    Executor.handleProgramExitVertex_cases h
  rw [hframe] at hcarry hreset
  obtain ⟨hval, -, hlocal⟩ := Executor.resetVersions_spec hreset
  have hdef : ∀ n s t, st₁.symbolicValuations.find? n = some ⟨s, t⟩ → M s n = t.eval M := by
    intro n s t hn
    apply hM n s t
    change st₂.symbolicValuations.find? n = _
    rw [hval]
    exact hn
  refine ⟨{ conf.moveTo next with
      cycle := conf.cycle + 1
      store := fun x =>
        if x ∈ p.wholeProgramInputs then inputs (conf.cycle + 1) x else conf.store x }, ?_,
    ⟨congrArg (· + 1) hf.cycle, rfl, hf.callStack, ?_⟩, rfl⟩
  · unfold Program.nextCycle
    rw [hnext]
    rfl
  · intro x s hx
    obtain ⟨v, hv⟩ := Program.entry_of_sortOf hx
    dsimp only
    rw [Context.store_eq hx ((hlocal x).trans (if_pos (List.mem_map_of_mem hv)))]
    split_ifs with hinput
    · rw [hf.cycle]
      exact (hread x hinput s hx).symm
    · obtain ⟨w, e, hw, hold, hnew⟩ := Executor.carryOver_values hcarry x v hv (hinputs ▸ hinput)
      obtain ⟨t, ht⟩ := hc.currentVersion hx hw
      have he : e = ⟨s, t⟩ := Option.some.inj (hold.symm.trans ht)
      subst he
      rw [hf.store hx, Context.store_eq hx hw, hdef _ _ _ hnew,
        hdef _ _ _ ((Executor.carryOver_names hcarry).2.1 _ _ ht)]

/-- The last version of a variable behind a summary is the last one the summary writes, or the
version in front where it writes none. -/
theorem applied_version {summary : Summary} {r : Executor.Reversioning} {f : String} {s : SmtSort}
    (h : Executor.Applied summary r versions versions' c c') (hfits : p.Fits summary)
    (hc : c.WellDefined p) (hf : p.sortOf f = some s)
    (hbelow : ∀ v e, summary.hardConstraints.find? (versioned f v) = some e → ∀ l g,
      c.state.flattenedNameToVersion.find? f = some l → versions.find? f = some g → l ≤ g) :
    (∃ v g t, summary.hardConstraints.find? (versioned f v) = some ⟨s, t⟩ ∧
      versions.find? f = some g ∧
      (∀ w e, summary.hardConstraints.find? (versioned f w) = some e → w ≤ v) ∧
      c'.state.flattenedNameToVersion.find? f = some (v + g + 1)) ∨
    ((∀ v, summary.hardConstraints.find? (versioned f v) = none) ∧
      c'.state.flattenedNameToVersion.find? f = c.state.flattenedNameToVersion.find? f) := by
  obtain ⟨names, hnames, hcovers⟩ := h.covers
  have hwritten : ∀ v e, summary.hardConstraints.find? (versioned f v) = some e →
      Plain f ∧ e.1 = s ∧ ∃ g, versions.find? f = some g ∧
        Executor.versionIn summary versions c.state (versioned f v) = v + g + 1 := by
    intro v e he
    obtain ⟨f', v', hname, hplain, hsort⟩ := hfits.written he
    obtain ⟨rfl, rfl⟩ := versioned_injective hname
    rw [hf] at hsort
    obtain ⟨g, hg⟩ := h.global he
    rw [decontextualize_versioned hplain] at hg
    exact ⟨hplain, (Option.some.inj hsort).symm, g, hg, Executor.versionIn_written hplain he hg⟩
  have hhighest : ∀ v e, summary.hardConstraints.find? (versioned f v) = some e →
      ∃ g u, versions.find? f = some g ∧ r.highest.find? f = some u ∧ v + g + 1 ≤ u := by
    intro v e he
    obtain ⟨hplain, -, g, hg, hversion⟩ := hwritten v e he
    obtain ⟨u, hu, hle⟩ := hcovers.highest _ ((hnames _).mpr (Or.inl ⟨e, he⟩))
    rw [decontextualize_versioned hplain] at hu
    rw [hversion] at hle
    exact ⟨g, u, hg, hu, hle⟩
  obtain ⟨l, hl, -⟩ := hc.current hf
  cases hu : r.highest.find? f with
  | none =>
    refine Or.inr ⟨fun v => ?_, by rw [h.version, hu, Option.none_or]⟩
    cases he : summary.hardConstraints.find? (versioned f v) with
    | none => rfl
    | some e =>
      obtain ⟨g, u, -, hu', -⟩ := hhighest v e he
      rw [hu] at hu'
      cases hu'
  | some u =>
    obtain ⟨n, hn, hnf, hnu⟩ := hcovers.attained f u hu
    cases he : summary.hardConstraints.find? n with
    | some e =>
      obtain ⟨f', v, rfl, hplain, hsort⟩ := hfits.written he
      rw [decontextualize_versioned hplain] at hnf
      subst hnf
      obtain ⟨-, hes, g, hg, hversion⟩ := hwritten v e he
      obtain ⟨s', t⟩ := e
      dsimp only at hes
      subst hes
      refine Or.inl ⟨v, g, t, he, hg, fun w e' he' => ?_, by
        rw [h.version, hu, Option.some_or, ← hnu, hversion]⟩
      obtain ⟨g', u', hg', hu', hle⟩ := hhighest w e' he'
      rw [hg] at hg'
      rw [hu] at hu'
      cases hg'
      cases hu'
      omega
    | none =>
      -- the highest version is that of a name that is only read, so nothing is written
      obtain ⟨s', hread⟩ : ∃ s', (s', n) ∈ summary.occurrences := by
        rcases (hnames n).mp hn with ⟨e, he'⟩ | hread
        · rw [he] at he'
          cases he'
        · exact hread
      have hlocal := h.localRead _ hread he
      dsimp only at hlocal
      rw [hnf, hl, hnu] at hlocal
      cases hlocal
      refine Or.inr ⟨fun v => ?_, by rw [h.version, hu, hl, Option.some_or]⟩
      cases he' : summary.hardConstraints.find? (versioned f v) with
      | none => rfl
      | some e =>
        obtain ⟨g, u', hg, hu', hle⟩ := hhighest v e he'
        rw [hu] at hu'
        cases hu'
        have hbound := hbelow v e he' _ g hl hg
        omega

/-- A summary that describes the call is followed by the execution of the callee. -/
theorem apply {summary : Summary} {r : Executor.Reversioning} {branches : List Branch}
    {returnEdge : Edge} {next : Vertex} {called : Variable} {callee : UnitCfg}
    (hf : Follows p M c conf) (hc : c.WellDefined p) (hstack : c.callStack = frame :: frames)
    (hreturn : frame.cfg.getIntraproceduralCallToReturnEdge c.state.vertex.label = .ok returnEdge)
    (hnext : frame.cfg.getVertex returnEdge.targetLabel = .ok next)
    (hfits : p.Fits summary)
    (h : Executor.Applied summary r versions versions'
      (Executor.inside frame called callee returnEdge.targetLabel c) c')
    (hdescribes : p.Describes frame c.state.vertex summary branches)
    (hbelow : ∀ f v e, summary.hardConstraints.find? (versioned f v) = some e → ∀ l g,
      c.state.flattenedNameToVersion.find? f = some l → versions.find? f = some g → l ≤ g)
    (hM : c'.definitions.Respects M) (hholds : ∀ t ∈ c'.state.pathConstraint, t.Holds M) :
    ∃ conf', p.Runs inputs conf conf' ∧
      Follows p M { Executor.moveTo next c' with callStack := c.callStack } conf' ∧
      conf'.branches = conf.branches ++ branches := by
  have hinside : (Executor.inside frame called callee returnEdge.targetLabel c).WellDefined p :=
    hc.of_eq rfl rfl hc.closed rfl
  let name := Executor.nameIn summary versions
    (Executor.inside frame called callee returnEdge.targetLabel c)
  obtain ⟨conf', edge, hruns, hcycle, hframes, hbranches, hedge, hvertex, hwritten, hkept⟩ :=
    hdescribes inputs conf (fun s n => M s (name n)) frames hf.vertex (hf.callStack.trans hstack)
      (by
        intro q hq hread
        obtain ⟨f, v, hqf, hplain, hsort⟩ := hfits.read q hq
        have hlocal := h.localRead q hq hread
        have hd : decontextualize q.2 = f := by rw [hqf, decontextualize_versioned hplain]
        rw [hd] at hlocal ⊢
        rw [hf.store hsort, Context.store_eq (c := c) hsort hlocal]
        dsimp only [name, Executor.nameIn]
        rw [hd]
        rfl)
      (by
        intro n s t hn
        dsimp only
        rw [hM _ _ _ (h.written hn), Term.eval_rename])
      (by
        intro t ht
        have hmem : t.rename name ∈ c'.state.pathConstraint := by
          rw [h.pathConstraint]
          exact List.mem_append_right _ (List.mem_map_of_mem ht)
        rw [Term.Holds, ← Term.eval_rename]
        exact hholds _ hmem)
  rw [hreturn] at hedge
  cases hedge
  rw [hnext] at hvertex
  cases hvertex
  refine ⟨conf', hruns, ⟨?_, rfl, hframes.trans hf.callStack, ?_⟩, hbranches⟩
  · rw [hcycle, hf.cycle]
    exact h.cycle.symm
  · intro f s hs
    have hcyc : c'.cycle = c.cycle := h.cycle
    change conf'.store f = c'.store p M f
    rcases applied_version h hfits hinside hs (hbelow f) with
      ⟨v, g, t, ht, hg, hlast, hversion⟩ | ⟨hnone, hversion⟩
    · obtain ⟨f', v', hname, hplain, -⟩ := hfits.written ht
      obtain ⟨rfl, rfl⟩ := versioned_injective hname
      rw [hwritten f v _ ht hlast, Context.store_eq hs hversion]
      dsimp only [name, Executor.nameIn]
      rw [decontextualize_versioned hplain, Executor.versionIn_written hplain ht hg, hcyc]
      rfl
    · rw [hkept f hnone, hf.store hs]
      exact (Context.store_congr hcyc hversion).symm

theorem run {conf' : Configuration} (hf : Follows p M c conf) (hstack : c.callStack = frame :: frames)
    (h : p.stepIn inputs frame frames conf = .ok conf') : p.Runs inputs conf conf' := by
  apply Relation.ReflTransGen.single
  unfold Program.step
  rw [hf.callStack, hstack]
  exact h

end Follows

namespace Engine

theorem valueOf_initialValuation {inputs : List String} {x : String} {v : Variable}
    {e : SortedTerm String} (M : Model String) (hinput : x ∉ inputs)
    (h : initialValuation inputs x v = .ok e) :
    valueOf M e = v.initialization.getD (Program.defaultValue v.dataType) := by
  unfold initialValuation at h
  rw [if_neg hinput] at h
  cases hinitial : v.initialization with
  | some value =>
    rw [hinitial] at h
    cases h
    cases value <;> rfl
  | none =>
    rw [hinitial] at h
    obtain ⟨s, hs, h⟩ := bind_eq_ok h
    rw [Option.getD_none, Program.defaultValue, hs]
    cases s <;> cases h <;> rfl

/-- The program starts where the first context is, with the store it describes. -/
theorem initial_follows {g : Engine} (hp : p.WellSorted) (h : Engine.initial p = .ok g)
    (hc : c ∈ g.explorer) (hM : c.definitions.Respects M)
    (hread : ∀ x ∈ p.wholeProgramInputs, ∀ s, p.sortOf x = some s →
      s.value (M s (contextualized x 0 0)) = inputs 0 x) :
    ∃ conf, p.start inputs = .ok conf ∧ Follows p M c conf ∧ conf.branches = [] := by
  have hwell := ((initial_explorer hp h) c hc).1.wellDefined
  obtain ⟨vertex, hvertex, h⟩ := bind_eq_ok h
  obtain ⟨⟨versions, st⟩, hst, h⟩ := bind_eq_ok h
  cases h
  obtain rfl := List.mem_singleton.mp hc
  refine ⟨{
      cycle := 0
      vertex := vertex
      callStack := [⟨p.main, p.main.name, p.main.entryLabel⟩]
      store := p.initialStore inputs
      branches := [] }, ?_, ⟨rfl, (initialState_place hst).1.symm, rfl, ?_⟩, rfl⟩
  · unfold Program.start
    rw [hvertex]
    rfl
  · intro x s hx
    obtain ⟨w, hw, t, ht⟩ := hwell.current hx
    rw [Context.store_eq hx hw]
    rcases initialState_values hst ht with hold | ⟨y, v, hy, hname, he⟩
    · cases hold
    · obtain ⟨rfl, rfl, -⟩ := contextualized_injective hname
      dsimp only [Program.initialStore]
      split_ifs with hinput
      · exact (hread x hinput s hx).symm
      · rw [(OrderedMap.find?_eq_some_iff _ _ _).mpr hy, hM _ _ _ ht]
        exact (valueOf_initialValuation M hinput he).symm

end Engine

end Ahorn.Etfa
