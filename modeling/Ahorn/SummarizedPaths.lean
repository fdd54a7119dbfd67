import Ahorn.EtfaReplay
import Ahorn.PathReversioning

set_option autoImplicit false

/-!
# What a path through a unit stands for

A context of the summarization has come along one path through its unit. Whatever values satisfy
what it has filed, the unit, entered with the values of the versions 0, is executed along that path,
and leaves every variable with the value of its current version.
-/
namespace Ahorn

/-- Every flattened variable has a value of its sort. -/
def Etfa.Program.SortsStore (p : Etfa.Program) (σ : Valuation) : Prop :=
  ∀ x s, p.sortOf x = some s → ∃ a : s.Carrier, σ x = s.value a

namespace Summarization

open Etfa (Frame)
open Encoder (valueOf)

variable {p : Etfa.Program} {callee : Frame} {versions versions' : Versions} {c c' : Context}
variable {simplifier : Simplifier String} {solver : Solver String} {inputs : Etfa.Inputs}
variable {M : Model String} {branches : List Etfa.Branch} {conf conf' : Etfa.Configuration}

abbrev Program.of (p : Etfa.Program) (hasCallees : String → Bool) : Program :=
  ⟨p.main, p.getCfg, hasCallees⟩

/-- A unit, under the scope of an instance, as the summarization reads it: its variables are
flattened variables of the program, whose names can be read back; there is no havoc; and a Boolean
is added to a Boolean of the same value only. -/
structure Summarizable (p : Etfa.Program) (callee : Frame) : Prop where
  isInstance : p.Instance callee.scope callee.cfg
  plain : ∀ x ∈ callee.cfg.interface, Plain (callee.scope ++ "." ++ x.name)
  elementary : ∀ x ∈ callee.cfg.interface, ∀ s, p.sortOf (callee.scope ++ "." ++ x.name) = some s →
    x.dataType.isDerived = false
  noHavoc : ∀ l v r, callee.cfg.labelToVertex.find? l = some v →
    v.instruction ≠ some (.havocInstruction r)
  additions : ∀ l v e σ, callee.cfg.labelToVertex.find? l = some v → v.expression? = some e →
    (∀ r ∈ e.references, ∀ s, r.getVariable.dataType.sort = .ok s → ∃ a, σ r.getName = s.value a) →
    e.addsAlike .rejected σ = true

/-- What a path gives a name: the term that is written, or for version 0 of a flattened variable the
name itself. -/
def State.Gives (p : Etfa.Program) (st : State) (n : String) (e : SortedTerm String) : Prop :=
  (∃ l, st.Defines l n e) ∨
    ∃ x s, p.sortOf x = some s ∧ n = versioned x 0 ∧ e = ⟨s, .constant s n⟩

/-- What a path has filed is a system of definitions without cycles, in which the current versions are
defined and what is assumed is closed. -/
structure Valued (p : Etfa.Program) (c : Context) (D : Definitions String) : Prop where
  acyclic : D.Acyclic
  gives : ∀ n e, D n = some e ↔ c.state.Gives p n e
  inputs : ∀ n s, D n = some ⟨s, .constant s n⟩ → ∃ x, p.sortOf x = some s ∧ n = versioned x 0
  closed : ∀ l t, c.state.Assumes l t → D.Closed t
  current : ∀ f v s, c.state.flattenedNameToVersion.find? f = some v → p.sortOf f = some s →
    ∃ t, D (versioned f v) = some ⟨s, t⟩

/-- The execution of a unit along the path of a context. -/
structure Reaches (p : Etfa.Program) (inputs : Etfa.Inputs) (M : Model String) (c : Context)
    (branches : List Etfa.Branch) (conf conf' : Etfa.Configuration) : Prop where
  runs : p.Runs inputs conf conf'
  cycle : conf'.cycle = conf.cycle
  callStack : conf'.callStack = conf.callStack
  vertex : conf'.vertex = c.state.vertex
  branches : conf'.branches = conf.branches ++ branches
  store : ∀ x s, p.sortOf x = some s →
    conf'.store x = s.value (M s (versioned x (currentVersion c x)))
  unwritten : ∀ x, (∀ v, ¬ c.state.Writes (versioned x v)) → conf'.store x = conf.store x

/-- The versions 0 have the values of the store. -/
def ReadsStore (p : Etfa.Program) (σ : Valuation) (M : Model String) : Prop :=
  ∀ x s, p.sortOf x = some s → σ x = s.value (M s (versioned x 0))

/-- The unit is executed along the path of the context from wherever it is entered with the values of
the versions 0. -/
def Executes (p : Etfa.Program) (callee : Frame) (c : Context) (branches : List Etfa.Branch) : Prop :=
  ∀ inputs M conf returnLabel frames, c.state.IsModel M →
    conf.callStack = ⟨callee.cfg, callee.scope, returnLabel⟩ :: frames →
    callee.cfg.getVertex callee.cfg.entryLabel = .ok conf.vertex →
    ReadsStore p conf.store M → ∃ conf', Reaches p inputs M c branches conf conf'

/-- The literals lead back to the first one, which is true, and are named after labels of the
unit. -/
structure Labelled (callee : Frame) (st : State) (trail : List String) : Prop where
  traced : Traced (literalName callee.scope callee.cfg.entryLabel) st trail
  first : st.assumptionLiterals.find? (literalName callee.scope callee.cfg.entryLabel) =
    some [.booleanValue true]
  keys : ∀ l, (st.assumptionLiterals.find? l).isSome → l ∈ st.assumptionLiteral :: trail
  names : ∀ l ∈ st.assumptionLiteral :: trail, ∃ label, l = literalName callee.scope label

/-- What holds of a context on its way through a unit. -/
structure Explored (p : Etfa.Program) (callee : Frame) (versions : Versions) (c : Context) :
    Prop where
  path : PathContext callee c
  place : ∃ l, callee.cfg.labelToVertex.find? l = some c.state.vertex
  labelled : ∃ trail, Labelled callee c.state trail
  valued : ∃ D, Valued p c D
  domain : ∀ f v, c.state.flattenedNameToVersion.find? f = some v →
    ∃ x ∈ callee.cfg.interface, f = callee.scope ++ "." ++ x.name
  bounded : ∀ f v s, c.state.flattenedNameToVersion.find? f = some v → p.sortOf f = some s →
    ∃ w, versions.find? f = some w ∧ v ≤ w
  written : ∀ n, c.state.Writes n → ∃ f v u, n = versioned f v ∧ 0 < v ∧
    c.state.flattenedNameToVersion.find? f = some u ∧ v ≤ u
  mentioned : ∀ n, c.state.Mentions n → ∃ f v s, n = versioned f v ∧
    (c.state.flattenedNameToVersion.find? f).isSome ∧ p.sortOf f = some s
  executes : ∃ branches, Executes p callee c branches

section Encoding

variable {D : Definitions String} {e : Expression} {u : SortedTerm String}

theorem access_eq {r : VariableReference} (h : Executor.access callee c r = .ok u) :
    ∃ v s, c.state.flattenedNameToVersion.find? (callee.scope ++ "." ++ r.getName) = some v ∧
      r.getVariable.dataType.sort = .ok s ∧
      u = ⟨s, .constant s (versioned (callee.scope ++ "." ++ r.getName) v)⟩ := by
  obtain ⟨v, hv, h⟩ := bind_eq_ok h
  obtain ⟨s, hs, h⟩ := bind_eq_ok h
  cases h
  unfold State.getVersion at hv
  split at hv
  · rename_i hfind
    cases hv
    exact ⟨_, s, hfind, hs, rfl⟩
  · cases hv

theorem currentVersion_eq {f : String} {v : ℕ}
    (h : c.state.flattenedNameToVersion.find? f = some v) : currentVersion c f = v := by
  unfold currentVersion
  rw [h]
  rfl

theorem encode_occurrences (hrefs : ∀ q ∈ e.references, p.Resolves callee.scope q)
    (h : (executor simplifier solver).encode callee c e = .ok u) :
    ∀ k ∈ u.2.occurrences, ∃ f v, c.state.flattenedNameToVersion.find? f = some v ∧
      p.sortOf f = some k.1 ∧ k.2 = versioned f v := by
  intro k hk
  obtain ⟨q, hq, u', hu', hk⟩ := Encoder.encode_occurrences e h k hk
  obtain ⟨v, s, hv, hs, rfl⟩ := access_eq hu'
  obtain ⟨s', hs', hsort⟩ := hrefs q hq
  rw [hs] at hsort
  cases hsort
  obtain rfl := List.mem_singleton.mp hk
  exact ⟨_, v, hv, hs', rfl⟩

theorem Valued.encode_closed (hD : Valued p c D)
    (hrefs : ∀ q ∈ e.references, p.Resolves callee.scope q)
    (h : (executor simplifier solver).encode callee c e = .ok u) : D.Closed u.2 := by
  intro k hk
  obtain ⟨f, v, hv, hs, hkey⟩ := encode_occurrences hrefs h k hk
  rw [hkey]
  exact hD.current f v k.1 hv hs

theorem encode_sort (h : (executor simplifier solver).encode callee c e = .ok u) :
    u.1 = e.sort .rejected := by
  refine Encoder.encode_sort ?_ e h
  intro r t ht
  obtain ⟨v, s, -, hs, rfl⟩ := access_eq ht
  exact hs

theorem encode_eval (hcallee : Summarizable p callee) {l : ℤ} {v : Vertex}
    (hv : callee.cfg.labelToVertex.find? l = some v) (he : v.expression? = some e)
    (hrefs : ∀ q ∈ e.references, p.Resolves callee.scope q)
    (h : (executor simplifier solver).encode callee c e = .ok u)
    (hstore : ∀ x s, p.sortOf x = some s →
      conf.store x = s.value (M s (versioned x (currentVersion c x)))) :
    valueOf M u = e.eval (conf.valuation callee.scope) := by
  have hvalue : valueOf M u = e.encoded .rejected (conf.valuation callee.scope) := by
    refine Encoder.encode_value e (fun q hq t ht => ?_) h
    obtain ⟨w, s, hw, hs, rfl⟩ := access_eq ht
    obtain ⟨s', hx, hs'⟩ := hrefs q hq
    rw [hs] at hs'
    cases hs'
    rw [Etfa.Configuration.valuation, hstore _ s hx, currentVersion_eq hw]
    rfl
  rw [hvalue]
  refine Expression.encoded_eq_eval (by decide) e (hcallee.additions l v e _ hv he ?_)
  intro q hq s hs
  obtain ⟨s', hx, hs'⟩ := hrefs q hq
  rw [hs] at hs'
  cases hs'
  exact ⟨_, hstore _ s hx⟩

end Encoding

section Steps

theorem assumptions_push {st : State} {literal : String} {t : Term String .bool} (l : String) :
    ((st.pushAssumption literal t).assumptions.find? l).getD [] =
      if l = literal then (st.assumptions.find? literal).getD [] ++ [t]
      else (st.assumptions.find? l).getD [] := by
  unfold State.pushAssumption
  cases hfind : st.assumptions.find? literal with
  | none =>
    dsimp only
    rw [OrderedMap.find?_emplace, hfind]
    split_ifs <;> rfl
  | some existing =>
    dsimp only
    rw [OrderedMap.find?_assign]
    split_ifs <;> rfl

theorem take_eq {literal : String} {vertex : Vertex} {side : Term String .bool}
    (h : (executor simplifier solver).take literal vertex side c = .ok c') :
    c.state.assumptionLiterals.find? literal = none ∧ c' = { c with state := { c.state with
      vertex := vertex
      assumptionLiteral := literal
      assumptionLiterals :=
        c.state.assumptionLiterals.emplace literal [.constant .bool c.state.assumptionLiteral]
      assumptions := (c.state.pushAssumption literal side).assumptions } } := by
  obtain ⟨st, hst, h⟩ := bind_eq_ok h
  obtain ⟨hnew, rfl⟩ := pushAssumptionLiteral_eq hst
  cases h
  refine ⟨hnew, ?_⟩
  unfold State.pushAssumption
  dsimp only
  split <;> rfl

/-- What writing a version changes. -/
theorem write_eq {f : String} {version : ℕ} {u : SortedTerm String}
    (h : (executor simplifier solver).write callee f version u versions c = .ok (versions', c')) :
    ∃ edge next v, callee.cfg.getIntraproceduralEdge c.state.vertex.label = .ok edge ∧
      callee.cfg.getVertex edge.targetLabel = .ok next ∧
      c.state.flattenedNameToVersion.find? f = some v ∧
      c.state.assumptionLiterals.find? (literalName callee.scope edge.targetLabel) = none ∧
      versions' = versions.assign f version ∧ c' = { c with state := { c.state with
        vertex := next
        assumptionLiteral := literalName callee.scope edge.targetLabel
        assumptionLiterals := c.state.assumptionLiterals.emplace
          (literalName callee.scope edge.targetLabel) [.constant .bool c.state.assumptionLiteral]
        hardConstraints := (c.state.pushHardConstraint c.state.assumptionLiteral
          (versioned f version) u).hardConstraints
        flattenedNameToVersion := c.state.flattenedNameToVersion.assign f version } } := by
  obtain ⟨st, hst, h⟩ := bind_eq_ok h
  unfold State.setVersion at hst
  split at hst
  · rename_i v hv
    cases hst
    obtain ⟨edge, hedge, h⟩ := bind_eq_ok h
    obtain ⟨next, hnext, h⟩ := bind_eq_ok h
    obtain ⟨st', hst', h⟩ := bind_eq_ok h
    cases h
    obtain ⟨st'', hst'', hst'⟩ := bind_eq_ok hst'
    obtain ⟨hnew, rfl⟩ := pushAssumptionLiteral_eq hst''
    cases hst'
    obtain ⟨-, -, hliterals⟩ := State.pushHardConstraint_eq c.state.assumptionLiteral
      (versioned f version) u { c.state with
        flattenedNameToVersion := c.state.flattenedNameToVersion.assign f version }
    rw [hliterals] at hnew
    refine ⟨edge, next, v, hedge, hnext, hv, hnew, rfl, ?_⟩
    unfold State.pushHardConstraint
    dsimp only
    split <;> rfl
  · cases hst

theorem Labelled.push {st st' : State} {trail : List String} {l : String}
    (h : Labelled callee st trail) (hnew : st.assumptionLiterals.find? l = none)
    (hliteral : st'.assumptionLiteral = l)
    (hliterals : st'.assumptionLiterals =
      st.assumptionLiterals.emplace l [.constant .bool st.assumptionLiteral])
    (hfiled : ∀ k, st'.FiledUnder k → st.FiledUnder k ∨ k = l)
    (hname : ∃ label, l = literalName callee.scope label) :
    Labelled callee st' (st.assumptionLiteral :: trail) := by
  refine ⟨h.traced.push hnew hliteral hliterals hfiled, ?_, fun k hk => ?_, fun k hk => ?_⟩
  · rw [hliterals, OrderedMap.find?_emplace_ne _ _, h.first]
    rintro rfl
    rw [h.first] at hnew
    cases hnew
  · rw [hliteral]
    by_cases hkl : k = l
    · exact hkl ▸ List.mem_cons_self
    · rw [hliterals, OrderedMap.find?_emplace_ne _ _ hkl] at hk
      exact List.mem_cons_of_mem _ (h.keys k hk)
  · rw [hliteral] at hk
    rcases List.mem_cons.mp hk with rfl | hk
    · exact hname
    · exact h.names k hk

theorem Labelled.of_filed {st : State} {trail : List String} (h : Labelled callee st trail)
    (st' : State) (hliteral : st'.assumptionLiteral = st.assumptionLiteral)
    (hliterals : st'.assumptionLiterals = st.assumptionLiterals)
    (hfiled : ∀ k, st'.FiledUnder k → k ∈ st.assumptionLiteral :: trail) :
    Labelled callee st' trail := by
  obtain ⟨⟨hchain, -⟩, hfirst, hkeys, hnames⟩ := h
  rw [← hliteral] at hchain hkeys hnames hfiled
  rw [← hliterals] at hchain hfirst hkeys
  exact ⟨⟨hchain, hfiled⟩, hfirst, hkeys, hnames⟩

theorem Labelled.write {st : State} {trail : List String} {name : String} {u : SortedTerm String}
    {label : ℤ} {next : Vertex} {flattenedNameToVersion : Versions} (h : Labelled callee st trail)
    (hnew : st.assumptionLiterals.find? (literalName callee.scope label) = none) :
    Labelled callee { st with
      vertex := next
      assumptionLiteral := literalName callee.scope label
      assumptionLiterals := st.assumptionLiterals.emplace (literalName callee.scope label)
        [.constant .bool st.assumptionLiteral]
      hardConstraints := (st.pushHardConstraint st.assumptionLiteral name u).hardConstraints
      flattenedNameToVersion := flattenedNameToVersion } (st.assumptionLiteral :: trail) := by
  have hpushed := h.of_filed { st with
      hardConstraints := (st.pushHardConstraint st.assumptionLiteral name u).hardConstraints }
    rfl rfl (by
      rintro k (hk | hk)
      · exact h.traced.filed k (Or.inl hk)
      · rcases State.FiledUnder.of_push (Or.inr hk) with hk | rfl
        · exact h.traced.filed k hk
        · exact List.mem_cons_self)
  exact hpushed.push hnew rfl rfl (fun _ hk => Or.inl hk) ⟨label, rfl⟩

theorem Executes.step {branches' : List Etfa.Branch} (h : Executes p callee c branches)
    (hmodel : ∀ M, c'.state.IsModel M → c.state.IsModel M)
    (hstep : ∀ inputs M conf conf' returnLabel frames, c'.state.IsModel M →
      conf'.callStack = ⟨callee.cfg, callee.scope, returnLabel⟩ :: frames →
      Reaches p inputs M c branches conf conf' → ∃ conf'', p.step inputs conf' = .ok conf'' ∧
        (p.Runs inputs conf conf'' → Reaches p inputs M c' branches' conf conf'')) :
    Executes p callee c' branches' := by
  intro inputs M conf returnLabel frames hM hstack hentry hstore
  obtain ⟨conf', hreaches⟩ := h inputs M conf returnLabel frames (hmodel M hM) hstack hentry hstore
  obtain ⟨conf'', hnext, hgoes⟩ := hstep inputs M conf conf' returnLabel frames hM
    (hreaches.callStack.trans hstack) hreaches
  exact ⟨conf'', hgoes (hreaches.runs.tail hnext)⟩

theorem Valued.of_eq {D : Definitions String} (hD : Valued p c D)
    (hassumptions : c'.state.assumptions = c.state.assumptions)
    (hconstraints : c'.state.hardConstraints = c.state.hardConstraints)
    (hversions : c'.state.flattenedNameToVersion = c.state.flattenedNameToVersion) :
    Valued p c' D := by
  refine ⟨hD.acyclic, fun n e => ?_, hD.inputs, fun l t ht => ?_, fun f v s hv => ?_⟩
  · unfold State.Gives State.Defines
    rw [hconstraints]
    exact hD.gives n e
  · unfold State.Assumes at ht
    rw [hassumptions] at ht
    exact hD.closed l t ht
  · rw [hversions] at hv
    exact hD.current f v s hv

theorem State.IsModel.of_eq {st st' : State} (hM : st'.IsModel M)
    (hassumptions : st'.assumptions = st.assumptions)
    (hconstraints : st'.hardConstraints = st.hardConstraints) : st.IsModel M := by
  constructor
  · intro l n e hn
    apply hM.hardConstraints l n e
    unfold State.Defines
    rw [hconstraints]
    exact hn
  · intro l t ht
    apply hM.assumptions l t
    unfold State.Assumes
    rw [hassumptions]
    exact ht

theorem assumes_push_iff {st : State} {literal l : String} {t u : Term String .bool} :
    (st.pushAssumption literal t).Assumes l u ↔ st.Assumes l u ∨ l = literal ∧ u = t := by
  unfold State.Assumes
  rw [assumptions_push]
  split_ifs with hl
  · simp [hl]
  · simp [hl]

theorem isModel_pushAssumption {st : State} {literal : String} {t : Term String .bool} :
    (st.pushAssumption literal t).IsModel M ↔ st.IsModel M ∧ t.Holds M := by
  have hconstraints : (st.pushAssumption literal t).hardConstraints = st.hardConstraints := by
    unfold State.pushAssumption
    split <;> rfl
  have hdefines : ∀ l n e, (st.pushAssumption literal t).Defines l n e ↔ st.Defines l n e := by
    intro l n e
    unfold State.Defines
    rw [hconstraints]
  constructor
  · intro h
    exact ⟨⟨fun l n e hn => h.hardConstraints l n e ((hdefines l n e).mpr hn),
      fun l u hu => h.assumptions l u (assumes_push_iff.mpr (Or.inl hu))⟩,
      h.assumptions literal t (assumes_push_iff.mpr (Or.inr ⟨rfl, rfl⟩))⟩
  · rintro ⟨h, ht⟩
    refine ⟨fun l n e hn => h.hardConstraints l n e ((hdefines l n e).mp hn), fun l u hu => ?_⟩
    rcases assumes_push_iff.mp hu with hu | ⟨-, rfl⟩
    · exact h.assumptions l u hu
    · exact ht

theorem Explored.enter (h : Explored p callee versions c) {label : ℤ} {vertex : Vertex} {st : State}
    (hst : c.state.enter false (literalName callee.scope label) vertex = .ok st)
    (hplace : ∃ l, callee.cfg.labelToVertex.find? l = some vertex)
    (hstep : ∀ inputs conf returnLabel frames, conf.vertex = c.state.vertex →
      conf.callStack = ⟨callee.cfg, callee.scope, returnLabel⟩ :: frames →
      p.step inputs conf = .ok (conf.moveTo vertex)) :
    Explored p callee versions { c with state := st } := by
  have hpath := h.path.enter hst
  obtain ⟨st', hst', hst⟩ := bind_eq_ok hst
  obtain ⟨hnew, rfl⟩ := pushAssumptionLiteral_eq hst'
  cases hst
  obtain ⟨trail, hlabelled⟩ := h.labelled
  obtain ⟨D, hD⟩ := h.valued
  obtain ⟨branches, hexecutes⟩ := h.executes
  refine ⟨hpath, hplace, ⟨_, hlabelled.push hnew rfl rfl (fun _ hk => Or.inl hk) ⟨label, rfl⟩⟩,
    ⟨D, hD.of_eq rfl rfl rfl⟩, h.domain, h.bounded, h.written, h.mentioned, branches, ?_⟩
  refine hexecutes.step (fun M hM => hM.of_eq rfl rfl) ?_
  intro inputs M conf conf' returnLabel frames _ hstack hreaches
  refine ⟨_, hstep inputs conf' returnLabel frames hreaches.vertex hstack, fun hruns => ?_⟩
  exact ⟨hruns, hreaches.cycle, hreaches.callStack, rfl, hreaches.branches, hreaches.store,
    hreaches.unwritten⟩

/-- On to a side of a branch, with its condition on file. -/
theorem Explored.take (h : Explored p callee versions c) {label : ℤ} {vertex : Vertex}
    {side : Term String .bool} {branch : Etfa.Branch}
    (hside : ∀ k ∈ side.occurrences, ∃ f v, c.state.flattenedNameToVersion.find? f = some v ∧
      p.sortOf f = some k.1 ∧ k.2 = versioned f v)
    (hc' : (executor simplifier solver).take (literalName callee.scope label) vertex side c = .ok c')
    (hplace : ∃ l, callee.cfg.labelToVertex.find? l = some vertex)
    (hstep : ∀ inputs M conf conf' branches returnLabel frames, side.eval M = true →
      conf'.callStack = ⟨callee.cfg, callee.scope, returnLabel⟩ :: frames →
      Reaches p inputs M c branches conf conf' →
      p.step inputs conf' = .ok { conf'.moveTo vertex with
        branches := conf'.branches ++ [branch] }) :
    Explored p callee versions c' := by
  have hat : c.state.AtVersions side := by
    refine ⟨currentVersion c, fun k hk => ?_⟩
    obtain ⟨f, v, hv, -, hkey⟩ := hside k hk
    rw [← currentVersion_eq hv] at hkey
    exact ⟨f, hkey, currentVersion_eq hv ▸ h.path.versioning.current f v hv⟩
  have hpath := h.path.take hat hc'
  obtain ⟨hnew, rfl⟩ := take_eq hc'
  obtain ⟨trail, hlabelled⟩ := h.labelled
  obtain ⟨D, hD⟩ := h.valued
  obtain ⟨branches, hexecutes⟩ := h.executes
  have hfiled : ∀ k, State.FiledUnder { c.state with
        assumptions := (c.state.pushAssumption (literalName callee.scope label) side).assumptions } k →
      c.state.FiledUnder k ∨ k = literalName callee.scope label := by
    rintro k (hk | hk)
    · exact State.FiledUnder.of_pushAssumption (Or.inl hk)
    · exact Or.inl (Or.inr hk)
  refine ⟨hpath, hplace, ⟨_, hlabelled.push hnew rfl rfl hfiled ⟨label, rfl⟩⟩, ⟨D, ?_⟩, h.domain,
    h.bounded, h.written, ?_, branches ++ [branch], ?_⟩
  · refine ⟨hD.acyclic, hD.gives, hD.inputs, fun l t ht => ?_, hD.current⟩
    rcases assumes_push_iff.mp ht with ht | ⟨-, rfl⟩
    · exact hD.closed l t ht
    · intro k hk
      obtain ⟨f, v, hv, hs, hkey⟩ := hside k hk
      rw [hkey]
      exact hD.current f v k.1 hv hs
  · rintro n (hn | ⟨e, ⟨l, t, ht, rfl⟩ | he, s, hk⟩)
    · exact h.mentioned n (Or.inl hn)
    · rcases assumes_push_iff.mp ht with ht | ⟨-, rfl⟩
      · exact h.mentioned n (Or.inr ⟨_, Or.inl ⟨l, t, ht, rfl⟩, s, hk⟩)
      · obtain ⟨f, v, hv, hs, hkey⟩ := hside _ hk
        exact ⟨f, v, s, hkey, by rw [hv]; rfl, hs⟩
    · exact h.mentioned n (Or.inr ⟨e, Or.inr he, s, hk⟩)
  · have hconstraints :
        (c.state.pushAssumption (literalName callee.scope label) side).hardConstraints =
          c.state.hardConstraints := by
      unfold State.pushAssumption
      split <;> rfl
    have hmodel : ∀ M, State.IsModel { c.state with assumptions :=
          (c.state.pushAssumption (literalName callee.scope label) side).assumptions } M →
        c.state.IsModel M ∧ side.Holds M := fun M hM =>
      isModel_pushAssumption.mp (hM.of_eq rfl hconstraints.symm)
    refine hexecutes.step (fun M hM => (hmodel M (hM.of_eq rfl rfl)).1) ?_
    intro inputs M conf conf' returnLabel frames hM hstack hreaches
    have hholds := (hmodel M (hM.of_eq rfl rfl)).2
    refine ⟨_, hstep inputs M conf conf' branches returnLabel frames hholds hstack hreaches,
      fun hruns => ?_⟩
    exact ⟨hruns, hreaches.cycle, hreaches.callStack, rfl,
      by rw [hreaches.branches, List.append_assoc], hreaches.store, hreaches.unwritten⟩

theorem defines_push_iff {st : State} {literal name : String} {u : SortedTerm String}
    (hnew : ¬ st.Writes name) {l n : String} {e : SortedTerm String} :
    (st.pushHardConstraint literal name u).Defines l n e ↔
      st.Defines l n e ∨ l = literal ∧ n = name ∧ e = u := by
  have hnone : ((st.hardConstraints.find? literal).getD .empty).find? name = none := by
    cases hfind : ((st.hardConstraints.find? literal).getD .empty).find? name with
    | none => rfl
    | some e' => exact absurd ⟨literal, e', hfind⟩ hnew
  unfold State.Defines
  rw [hardConstraints_push]
  split_ifs with hl
  · subst hl
    rw [OrderedMap.find?_emplace]
    split_ifs with hn
    · subst hn
      rw [hnone, Option.none_or]
      simp [eq_comm]
    · simp [hn]
  · simp [hl]

theorem isModel_pushHardConstraint {st : State} {literal name : String} {u : SortedTerm String}
    (hnew : ¬ st.Writes name) : (st.pushHardConstraint literal name u).IsModel M ↔
      st.IsModel M ∧ M u.1 name = u.2.eval M := by
  have hassumptions : (st.pushHardConstraint literal name u).assumptions = st.assumptions := by
    unfold State.pushHardConstraint
    split <;> rfl
  have hassumes : ∀ l t, (st.pushHardConstraint literal name u).Assumes l t ↔ st.Assumes l t := by
    intro l t
    unfold State.Assumes
    rw [hassumptions]
  constructor
  · intro h
    exact ⟨⟨fun l n e hn => h.hardConstraints l n e ((defines_push_iff hnew).mpr (Or.inl hn)),
      fun l t ht => h.assumptions l t ((hassumes l t).mpr ht)⟩,
      h.hardConstraints literal name u ((defines_push_iff hnew).mpr (Or.inr ⟨rfl, rfl, rfl⟩))⟩
  · rintro ⟨h, hu⟩
    refine ⟨fun l n e hn => ?_, fun l t ht => h.assumptions l t ((hassumes l t).mp ht)⟩
    rcases (defines_push_iff hnew).mp hn with hn | ⟨-, rfl, rfl⟩
    · exact h.hardConstraints l n e hn
    · exact hu

theorem Explored.fresh (h : Explored p callee versions c) {f : String} {s : SmtSort} {w : ℕ}
    (hf : p.sortOf f = some s) (hw : versions.find? f = some w) :
    ¬ c.state.Writes (versioned f (w + 1)) := by
  intro hwrites
  obtain ⟨g, v, u, hname, -, hu, hle⟩ := h.written _ hwrites
  obtain ⟨rfl, rfl⟩ := versioned_injective hname
  obtain ⟨w', hw', hle'⟩ := h.bounded f u s hu hf
  rw [hw] at hw'
  cases hw'
  omega

/-- A term over current versions becomes the next version of a variable. -/
theorem Valued.write {D : Definitions String} {f : String} {w : ℕ} {u : SortedTerm String}
    (hD : Valued p c D) (hnew : ¬ c.state.Writes (versioned f (w + 1)))
    (hf : p.sortOf f = some u.1) (hclosed : D.Closed u.2)
    (hassumptions : c'.state.assumptions = c.state.assumptions)
    (hconstraints : c'.state.hardConstraints = (c.state.pushHardConstraint c.state.assumptionLiteral
      (versioned f (w + 1)) u).hardConstraints)
    (hversions : c'.state.flattenedNameToVersion = c.state.flattenedNameToVersion.assign f (w + 1)) :
    Valued p c' (D.union (Definitions.define (versioned f (w + 1)) u)) := by
  have hnone : D (versioned f (w + 1)) = none := by
    rw [Option.eq_none_iff_forall_ne_some]
    intro e he
    rcases (hD.gives _ e).mp he with ⟨l, hl⟩ | ⟨x, s, -, hname, -⟩
    · exact hnew ⟨l, e, hl⟩
    · cases (versioned_injective hname).2
  have hdefine : Definitions.define (versioned f (w + 1)) u (versioned f (w + 1)) = some u :=
    if_pos rfl
  have hmono : ∀ n e, D n = some e →
      D.union (Definitions.define (versioned f (w + 1)) u) n = some e := fun _ _ =>
    Definitions.union_left
  refine ⟨hD.acyclic.define hnone (Or.inr hclosed), fun n e => ?_, fun n s hn => ?_,
    fun l t ht => ?_, fun g v s hv hs => ?_⟩
  · have hgives : c'.state.Gives p n e ↔ c.state.Gives p n e ∨ n = versioned f (w + 1) ∧ e = u := by
      have hdefines : ∀ l, c'.state.Defines l n e ↔ c.state.Defines l n e ∨
          l = c.state.assumptionLiteral ∧ n = versioned f (w + 1) ∧ e = u := by
        intro l
        rw [← defines_push_iff hnew]
        unfold State.Defines
        rw [hconstraints]
      have hsome : (∃ l, c'.state.Defines l n e) ↔
          (∃ l, c.state.Defines l n e) ∨ n = versioned f (w + 1) ∧ e = u := by
        simp only [hdefines, exists_or, exists_eq_left]
      unfold State.Gives
      rw [hsome]
      exact or_right_comm
    rw [hgives, ← hD.gives]
    by_cases hn : n = versioned f (w + 1)
    · subst hn
      rw [Definitions.union_right hnone, hdefine, hnone]
      simp [eq_comm]
    · have hother : Definitions.define (versioned f (w + 1)) u n = none := if_neg hn
      unfold Definitions.union
      rw [hother, Option.or_none]
      simp [hn]
  · by_cases hname : n = versioned f (w + 1)
    · -- the version is none of those the term is over
      subst hname
      rw [Definitions.union_right hnone, hdefine] at hn
      cases hn
      obtain ⟨t', ht'⟩ := hclosed _ (List.mem_singleton.mpr rfl)
      rw [hnone] at ht'
      cases ht'
    · have hother : Definitions.define (versioned f (w + 1)) u n = none := if_neg hname
      unfold Definitions.union at hn
      rw [hother, Option.or_none] at hn
      exact hD.inputs n s hn
  · unfold State.Assumes at ht
    rw [hassumptions] at ht
    exact (hD.closed l t ht).mono hmono
  · rw [hversions, OrderedMap.find?_assign] at hv
    split_ifs at hv with hg
    · subst hg
      cases hv
      rw [hf] at hs
      cases hs
      exact ⟨u.2, (Definitions.union_right hnone).trans hdefine⟩
    · obtain ⟨t, ht⟩ := hD.current g v s hv hs
      exact ⟨t, hmono _ _ ht⟩

/-- On to the vertex behind an assignment, with the next version on file. -/
theorem Explored.assign (hp : p.WellSorted) (hcallee : Summarizable p callee)
    (h : Explored p callee versions c) {type : AssignmentType} {r : VariableReference}
    {e : Expression} (htype : c.state.vertex.type = .regular)
    (hinstruction : c.state.vertex.instruction = some (.assignmentInstruction type r e))
    (hc' : (executor simplifier solver).visitAssignment callee r e versions c = .ok (versions', c')) :
    Explored p callee versions' c' ∧ versions.Le versions' := by
  obtain ⟨l, hl⟩ := h.place
  obtain ⟨hrefs, hsort⟩ := hp.sorted hcallee.isInstance hl hinstruction
  obtain ⟨u, hu, hc'⟩ := bind_eq_ok hc'
  obtain ⟨w, hw, hwrite⟩ := bind_eq_ok hc'
  have hw : versions.find? (callee.scope ++ "." ++ r.getName) = some w := Etfa.Executor.getVersion_eq hw
  rw [← encode_sort hu] at hsort
  have hoccurs := encode_occurrences hrefs hu
  have hnew := h.fresh hsort hw
  have hpath := h.path.write (σ := currentVersion c) (fun k hk => by
    obtain ⟨f, hkey, hsettled⟩ := h.path.versioning.encode hu k hk
    exact ⟨f, hkey, Or.inl hsettled⟩) hwrite
  obtain ⟨edge, next, v, hedge, hnext, hv, hliteral, rfl, rfl⟩ := write_eq hwrite
  obtain ⟨trail, hlabelled⟩ := h.labelled
  obtain ⟨D, hD⟩ := h.valued
  obtain ⟨branches, hexecutes⟩ := h.executes
  have hle : versions.Le (versions.assign (callee.scope ++ "." ++ r.getName) (w + 1)) :=
    Etfa.Versions.Le.assign hw (Nat.le_succ w)
  have hdefines := @defines_push_iff c.state c.state.assumptionLiteral
    (versioned (callee.scope ++ "." ++ r.getName) (w + 1)) u hnew
  refine ⟨⟨hpath, ⟨_, Etfa.Executor.getVertex_eq hnext⟩,
    ⟨_, hlabelled.write hliteral⟩,
    ⟨_, hD.write hnew hsort (hD.encode_closed hrefs hu) rfl rfl rfl⟩, ?_, ?_, ?_, ?_,
    branches, ?_⟩, hle⟩
  · intro f' v' hv'
    rw [OrderedMap.find?_assign] at hv'
    split_ifs at hv' with hf
    · exact hf ▸ h.domain _ v hv
    · exact h.domain f' v' hv'
  · intro f' v' s hv' hs
    dsimp only at hv'
    rw [OrderedMap.find?_assign] at hv' ⊢
    split_ifs at hv' ⊢ with hf
    · cases hv'
      exact ⟨w + 1, rfl, le_rfl⟩
    · exact h.bounded f' v' s hv' hs
  · rintro n ⟨l, e', hn⟩
    rcases hdefines.mp hn with hn | ⟨-, rfl, -⟩
    · obtain ⟨f', v', u', rfl, hpos, hu', hle'⟩ := h.written n ⟨l, e', hn⟩
      by_cases hf : f' = callee.scope ++ "." ++ r.getName
      · subst hf
        obtain ⟨w', hw', hbound⟩ := h.bounded _ u' u.1 hu' hsort
        rw [hw] at hw'
        cases hw'
        refine ⟨_, v', w + 1, rfl, hpos, by rw [OrderedMap.find?_assign, if_pos rfl], ?_⟩
        omega
      · exact ⟨f', v', u', rfl, hpos, by rw [OrderedMap.find?_assign, if_neg hf, hu'], hle'⟩
    · exact ⟨_, w + 1, w + 1, rfl, Nat.succ_pos w, by rw [OrderedMap.find?_assign, if_pos rfl], le_rfl⟩
  · have hisSome : ∀ f', (c.state.flattenedNameToVersion.find? f').isSome →
        ((c.state.flattenedNameToVersion.assign (callee.scope ++ "." ++ r.getName) (w + 1)).find?
          f').isSome := by
      intro f' hf'
      rw [OrderedMap.find?_assign]
      split_ifs
      · rfl
      · exact hf'
    have hname : ∃ f' v' s, versioned (callee.scope ++ "." ++ r.getName) (w + 1) = versioned f' v' ∧
        ((c.state.flattenedNameToVersion.assign (callee.scope ++ "." ++ r.getName) (w + 1)).find?
          f').isSome ∧ p.sortOf f' = some s :=
      ⟨_, _, _, rfl, hisSome _ (by rw [hv]; rfl), hsort⟩
    have hold : ∀ n, c.state.Mentions n → ∃ f' v' s, n = versioned f' v' ∧
        ((c.state.flattenedNameToVersion.assign (callee.scope ++ "." ++ r.getName) (w + 1)).find?
          f').isSome ∧ p.sortOf f' = some s := by
      intro n hn
      obtain ⟨f', v', s, hkey, hf', hs⟩ := h.mentioned n hn
      exact ⟨f', v', s, hkey, hisSome f' hf', hs⟩
    rintro n (⟨l, e', hn⟩ | ⟨e', ⟨l, t, ht, rfl⟩ | ⟨l, n', hn⟩, s, hk⟩)
    · rcases hdefines.mp hn with hn | ⟨-, rfl, -⟩
      · exact hold n (Or.inl ⟨l, e', hn⟩)
      · exact hname
    · exact hold n (Or.inr ⟨_, Or.inl ⟨l, t, ht, rfl⟩, s, hk⟩)
    · rcases hdefines.mp hn with hn | ⟨-, -, rfl⟩
      · exact hold n (Or.inr ⟨e', Or.inr ⟨l, n', hn⟩, s, hk⟩)
      · obtain ⟨f', v', hv', hs, hkey⟩ := hoccurs _ hk
        exact ⟨f', v', s, hkey, hisSome f' (by rw [hv']; rfl), hs⟩
  · have hassumptions : (c.state.pushHardConstraint c.state.assumptionLiteral
        (versioned (callee.scope ++ "." ++ r.getName) (w + 1)) u).assumptions =
          c.state.assumptions := by
      unfold State.pushHardConstraint
      split <;> rfl
    have hmodel : ∀ M, State.IsModel { c.state with hardConstraints :=
          (c.state.pushHardConstraint c.state.assumptionLiteral
            (versioned (callee.scope ++ "." ++ r.getName) (w + 1)) u).hardConstraints } M →
        c.state.IsModel M ∧
          M u.1 (versioned (callee.scope ++ "." ++ r.getName) (w + 1)) = u.2.eval M := fun M hM =>
      (isModel_pushHardConstraint hnew).mp (hM.of_eq hassumptions.symm rfl)
    refine hexecutes.step (fun M hM => (hmodel M (hM.of_eq rfl rfl)).1) ?_
    intro inputs M conf conf' returnLabel frames hM hstack hreaches
    have hvalue := (hmodel M (hM.of_eq rfl rfl)).2
    have heval := encode_eval hcallee hl
      (by rw [Vertex.expression?, hinstruction]) hrefs hu hreaches.store
    refine ⟨{ conf'.moveTo next with
        store := Function.update conf'.store (callee.scope ++ "." ++ r.getName)
          (e.eval (conf'.valuation callee.scope)) }, ?_, fun hruns =>
        ⟨hruns, hreaches.cycle, hreaches.callStack, rfl, hreaches.branches, ?_, ?_⟩⟩
    · unfold Etfa.Program.step
      rw [hstack]
      dsimp only
      unfold Etfa.Program.stepIn Etfa.Program.assign
      rw [hreaches.vertex, htype, hinstruction]
      dsimp only
      rw [hedge]
      dsimp only [bind, Except.bind]
      rw [hnext]
    · intro x s hx
      dsimp only [Etfa.Configuration.moveTo]
      unfold currentVersion
      rw [OrderedMap.find?_assign]
      split_ifs with hf
      · subst hf
        rw [hsort] at hx
        cases hx
        rw [Function.update_self, ← heval]
        exact congrArg (SmtSort.value) hvalue.symm
      · rw [Function.update_of_ne hf]
        exact hreaches.store x s hx
    · intro x hx
      dsimp only [Etfa.Configuration.moveTo]
      have hne : x ≠ callee.scope ++ "." ++ r.getName := by
        rintro rfl
        exact hx (w + 1) ⟨_, u, hdefines.mpr (Or.inr ⟨rfl, rfl, rfl⟩)⟩
      rw [Function.update_of_ne hne]
      refine hreaches.unwritten x fun v' hwrites => ?_
      obtain ⟨l, e', hn⟩ := hwrites
      exact hx v' ⟨l, e', hdefines.mpr (Or.inl hn)⟩

end Steps

end Summarization

end Ahorn
