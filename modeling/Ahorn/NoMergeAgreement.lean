import Ahorn.EtfaFollows
import Ahorn.NoMergeInvariant

set_option autoImplicit false

/-!
# Concrete and symbolic valuations

In a context that agrees with itself the concrete valuations satisfy the path constraint, and every
symbolic valuation has the concrete one as its value. Forks restore this for whatever model the solver
finds; additions of Booleans and applied summaries have to meet a condition.
-/
namespace Ahorn.EtfaNoMerge

open Etfa
open Encoder (valueOf)

variable {p : Program} {ex : Executor} {random : String → ℤ} {versions versions' : Versions}
  {c c' : Context} {frame : Frame} {m m' : OrderedMap String Value}

/-- Concrete valuations as a model; a name without one has the default value. -/
def modelOf (concreteValuations : OrderedMap String Value) : Model String := fun s n =>
  match s with
  | .bool => ((concreteValuations.find? n).map Value.toBool).getD false
  | .int => ((concreteValuations.find? n).map Value.toInt).getD (0 : ℤ)

theorem modelOf_eq {n : String} {s : SmtSort} {x : s.Carrier}
    (h : m.find? n = some (SmtSort.value x)) : modelOf m s n = x := by
  unfold modelOf
  cases s <;> rw [h] <;> rfl

theorem setConcreteValuation_eq {n : String} {v : Value}
    (h : setConcreteValuation n v m = .ok m') : m.find? n = none ∧ m' = m.emplace n v := by
  unfold setConcreteValuation at h
  split at h
  · cases h
  · rename_i hn
    cases h
    exact ⟨hn, rfl⟩

theorem Context.getConcreteValuation_eq {n : String} {v : Value}
    (h : c.getConcreteValuation n = .ok v) : c.concreteValuations.find? n = some v := by
  unfold getConcreteValuation at h
  split at h
  · rename_i v' hv'
    cases h
    exact hv'
  · cases h

/-- Every entry of the first map is one of the second. -/
def Extends (m m' : OrderedMap String Value) : Prop :=
  ∀ n v, m.find? n = some v → m'.find? n = some v

theorem Extends.trans {m'' : OrderedMap String Value} (h : Extends m m') (h' : Extends m' m'') :
    Extends m m'' := fun n v hn => h' n v (h n v hn)

theorem extends_emplace {n : String} (v : Value) (hn : m.find? n = none) :
    Extends m (m.emplace n v) := by
  intro n' v' hn'
  rw [OrderedMap.find?_emplace_ne]
  · exact hn'
  · rintro rfl
    rw [hn] at hn'
    cases hn'

theorem setConcreteValuations_spec {entries : List (String × Value)}
    (h : setConcreteValuations entries m = .ok m') :
    Extends m m' ∧ ∀ x ∈ entries, m'.find? x.1 = some x.2 := by
  induction entries generalizing m with
  | nil =>
    cases h
    exact ⟨fun _ _ h => h, fun _ hx => absurd hx List.not_mem_nil⟩
  | cons x entries ih =>
    obtain ⟨m₁, hm₁, h⟩ := bind_eq_ok h
    obtain ⟨hfresh, rfl⟩ := setConcreteValuation_eq hm₁
    obtain ⟨hkeep, hset⟩ := ih h
    refine ⟨(extends_emplace _ hfresh).trans hkeep, fun y hy => ?_⟩
    rcases List.mem_cons.mp hy with rfl | hy
    · exact hkeep _ _ (OrderedMap.find?_emplace_self _ hfresh)
    · exact hset y hy

namespace Context

def concreteModel (c : Context) : Model String := modelOf c.concreteValuations

/-- The current concrete values of the flattened variables. -/
def values (c : Context) : Valuation := fun x =>
  match c.state.flattenedNameToVersion.find? x with
  | some v => (c.concreteValuations.find? (contextualized x v c.cycle)).getD (.int 0)
  | none => .int 0

/-- The concrete valuations satisfy the path constraint, and every symbolic valuation, evaluated
under the concrete values of its constants, is the concrete valuation of the same name. -/
structure Agrees (c : Context) : Prop where
  pathConstraint : ∀ t ∈ c.state.pathConstraint, t.Holds c.concreteModel
  valuations : ∀ n e, c.definitions n = some e →
    c.concreteValuations.find? n = some (valueOf c.concreteModel e)

theorem Agrees.respects (hc : c.Agrees) : c.definitions.Respects c.concreteModel :=
  fun n _ t hn => modelOf_eq (hc.valuations n ⟨_, t⟩ hn)

theorem Agrees.eval_extends {s : SmtSort} {t : Term String s} (hc : c.Agrees)
    (hkeep : Extends c.concreteValuations c'.concreteValuations) (ht : c.definitions.Closed t) :
    t.eval c'.concreteModel = t.eval c.concreteModel := by
  apply Term.eval_congr
  intro k hk
  obtain ⟨t', ht'⟩ := ht k hk
  have hvalue := hc.valuations _ _ ht'
  exact (modelOf_eq (hkeep _ _ hvalue)).trans (modelOf_eq hvalue).symm

theorem Agrees.of_extends (hc : c.Agrees) (hw : c.WellDefined p)
    (hkeep : Extends c.concreteValuations c'.concreteValuations)
    (hconstraint : ∀ t ∈ c'.state.pathConstraint,
      t ∈ c.state.pathConstraint ∨ t.Holds c'.concreteModel)
    (hdefinitions : ∀ n e, c'.definitions n = some e → c.definitions n = some e ∨
      c'.concreteValuations.find? n = some (valueOf c'.concreteModel e)) : c'.Agrees where
  pathConstraint := by
    intro t ht
    rcases hconstraint t ht with hold | hnew
    · rw [Term.Holds, hc.eval_extends hkeep (hw.closed t hold)]
      exact hc.pathConstraint t hold
    · exact hnew
  valuations := by
    rintro n ⟨s, t⟩ hn
    rcases hdefinitions n ⟨s, t⟩ hn with hold | hnew
    · rw [hkeep _ _ (hc.valuations n ⟨s, t⟩ hold), valueOf, valueOf,
        hc.eval_extends hkeep (hw.acyclic.closed n s t hold)]
    · exact hnew

theorem Agrees.store (hc : c.Agrees) (hw : c.WellDefined p) {x : String} {s : SmtSort}
    (hx : p.sortOf x = some s) : c.store p c.concreteModel x = c.values x := by
  obtain ⟨v, hv, t, ht⟩ := hw.current hx
  have hvalue := hc.valuations _ _ ht
  rw [Context.store_eq hx hv, values, hv]
  dsimp only
  rw [hvalue, Option.getD_some, concreteModel, modelOf_eq hvalue]
  rfl

theorem Agrees.evaluate {e : Expression} {u : SortedTerm String} {value : Value} (hc : c.Agrees)
    (hw : c.WellDefined p) (hrefs : ∀ q ∈ e.references, p.Resolves frame.scope q)
    (hadd : e.addsAlike .rejected (fun n => c.values (frame.scope ++ "." ++ n)) = true)
    (hu : ex.symbolic.encode frame c.toContext e = .ok u)
    (hvalue : Executor.evaluate frame c e = .ok value) : valueOf c.concreteModel u = value := by
  have hencoded : valueOf c.concreteModel u =
      e.encoded .rejected fun n => c.values (frame.scope ++ "." ++ n) := by
    refine Encoder.encode_value e (fun q hq t ht => ?_) hu
    obtain ⟨v, s, hv, hs, rfl⟩ := Etfa.Executor.access_eq ht
    obtain ⟨s', hx, hs'⟩ := hrefs q hq
    rw [hs] at hs'
    cases hs'
    rw [← hc.store hw hx, Context.store_eq hx hv]
    rfl
  have heval : value = e.eval fun n => c.values (frame.scope ++ "." ++ n) := by
    refine Evaluator.evaluate_eq e (fun q _ v hv => ?_) hvalue
    obtain ⟨w, hw, hv⟩ := bind_eq_ok hv
    rw [values, State.getVersion_eq hw]
    dsimp only
    rw [getConcreteValuation_eq hv, Option.getD_some]
  rw [hencoded, heval]
  exact Expression.encoded_eq_eval (by decide) e hadd

end Context

theorem overwrite_spec {model : PartialModel String} (h : overwrite model m = .ok m') :
    (∀ n, (∀ i ∈ model, i.name ≠ n) → m'.find? n = m.find? n) ∧
      ∀ i ∈ model, (∀ j ∈ model, j.name = i.name → j = i) →
        m'.find? i.name = some (SmtSort.value i.value) := by
  induction model generalizing m with
  | nil =>
    cases h
    exact ⟨fun _ _ => rfl, fun _ hi => absurd hi List.not_mem_nil⟩
  | cons i model ih =>
    unfold overwrite at h
    split at h
    · obtain ⟨hother, hset⟩ := ih h
      refine ⟨fun n hn => ?_, fun j hj hunique => ?_⟩
      · rw [hother n fun k hk => hn k (List.mem_cons_of_mem _ hk), OrderedMap.find?_assign,
          if_neg (Ne.symm (hn i List.mem_cons_self))]
      · by_cases hmem : j ∈ model
        · exact hset j hmem fun k hk => hunique k (List.mem_cons_of_mem _ hk)
        · obtain rfl : j = i := (List.mem_cons.mp hj).resolve_right hmem
          rw [hother, OrderedMap.find?_assign, if_pos rfl]
          intro k hk hname
          exact hmem (hunique k (List.mem_cons_of_mem _ hk) hname ▸ hk)
    · cases h

theorem query_closed {u : Term String .bool} (hw : c.WellDefined p)
    (hu : c.definitions.Closed u) : ∀ t ∈ Executor.query c u, c.definitions.Closed t := by
  intro t ht
  rcases List.mem_append.mp ht with ht | ht
  · rcases List.mem_append.mp ht with ht | ht
    · exact hw.closed t ht
    · obtain ⟨⟨n, s, t'⟩, hn, rfl⟩ := List.mem_map.mp ht
      have hn := (OrderedMap.find?_eq_some_iff _ _ _).mpr hn
      intro k hk
      rcases List.mem_cons.mp hk with rfl | hk
      · exact ⟨t', hn⟩
      · exact hw.acyclic.closed n s t' hn k hk
  · rw [List.mem_singleton.mp ht]
    exact hu

/-- Overwriting the concrete valuations from any model the solver answers with restores the
agreement: what the model leaves out does not matter for the truth of the query. -/
theorem Context.Agrees.fork {taken : Bool} {next : Vertex} {u : Term String .bool}
    {model : PartialModel String} (hc : c.Agrees) (hw : c.WellDefined p)
    (hu : c.definitions.Closed u) (hfind : ex.finder.find (Executor.query c u) = some model)
    (hover : overwrite model c.concreteValuations = .ok m) :
    Context.Agrees { c.take frame taken next u with concreteValuations := m } := by
  obtain ⟨hother, hset⟩ := overwrite_spec hover
  have hdefined : ∀ i ∈ model, ∃ t, c.definitions i.name = some ⟨i.sort, t⟩ := by
    intro i hi
    obtain ⟨t, ht, hocc⟩ := ex.finder.occurs hfind i hi
    exact query_closed hw hu t ht _ hocc
  have hunique : ∀ i ∈ model, ∀ j ∈ model, j.name = i.name → j = i := by
    intro i hi j hj hname
    obtain ⟨t, ht⟩ := hdefined i hi
    obtain ⟨t', ht'⟩ := hdefined j hj
    rw [hname, ht] at ht'
    have hsort : i.sort = j.sort := congrArg Sigma.fst (Option.some.inj ht')
    exact (ex.finder.distinct hfind).eq hj hi (Prod.ext hsort.symm hname)
  have hset : ∀ i ∈ model, m.find? i.name = some (SmtSort.value i.value) :=
    fun i hi => hset i hi (hunique i hi)
  have hholds : ∀ t ∈ Executor.query c u, t.Holds (modelOf m) :=
    ex.finder.sound hfind _ fun i hi => modelOf_eq (hset i hi)
  refine ⟨fun t ht => ?_, fun n e hn => ?_⟩
  · refine hholds t ?_
    rcases List.mem_append.mp ht with ht | ht
    · exact List.mem_append_left _ (List.mem_append_left _ ht)
    · exact List.mem_append_right _ ht
  · -- the name keeps a value of its sort, and this is the one its equation asks for
    have hn : c.definitions n = some e := hn
    obtain ⟨x, hx⟩ : ∃ x : e.1.Carrier, m.find? n = some (SmtSort.value x) := by
      by_cases hname : ∃ i ∈ model, i.name = n
      · obtain ⟨i, hi, rfl⟩ := hname
        obtain ⟨t, ht⟩ := hdefined i hi
        rw [hn] at ht
        cases ht
        exact ⟨i.value, hset i hi⟩
      · push Not at hname
        exact ⟨_, (hother n hname).trans (hc.valuations n e hn)⟩
    have hequation := hholds (Etfa.Executor.equation (n, e)) (List.mem_append_left _
      (List.mem_append_right _ (List.mem_map_of_mem ((OrderedMap.find?_eq_some_iff _ _ _).mp hn))))
    have heq : modelOf m e.1 n = e.2.eval (modelOf m) := of_decide_eq_true hequation
    change m.find? n = some (SmtSort.value (e.2.eval (modelOf m)))
    rw [← heq, modelOf_eq hx, hx]

/-- On the concrete store every hard constraint has the value the model gives it, and all assumptions
hold. -/
def Context.Suits (c : Context) (summary : Summary) (model : PartialModel String) : Prop :=
  ∀ N : Model String,
    (∀ q ∈ summary.occurrences, summary.hardConstraints.find? q.2 = none →
      q.1.value (N q.1 q.2) = c.values (decontextualize q.2)) →
    Definitions.Respects summary.hardConstraints.find? N →
    (∀ n s t, summary.hardConstraints.find? n = some ⟨s, t⟩ → t.eval model.complete = t.eval N) ∧
      ∀ t ∈ summary.assumptions, t.Holds N

namespace Executor

theorem evaluateHardConstraints_spec {used : OrderedMap String String} {model : PartialModel String}
    {entries : List (String × SortedTerm String)} {valuations : List (String × Value)}
    (h : evaluateHardConstraints used model entries = .ok valuations) :
    ∀ n s t, (n, (⟨s, t⟩ : SortedTerm String)) ∈ entries → ∃ n', used.find? n = some n' ∧
      (n', SmtSort.value (t.eval model.complete)) ∈ valuations := by
  induction entries generalizing valuations with
  | nil => exact fun _ _ _ h => absurd h List.not_mem_nil
  | cons x entries ih =>
    obtain ⟨n₁, s₁, t₁⟩ := x
    unfold evaluateHardConstraints at h
    split at h
    · rename_i n' hn'
      obtain ⟨rest, hrest, h⟩ := bind_eq_ok h
      cases h
      intro n s t hmem
      rcases List.mem_cons.mp hmem with heq | hmem
      · cases heq
        exact ⟨n', hn', List.mem_cons_self⟩
      · obtain ⟨n'', hn'', hvalue⟩ := ih hrest n s t hmem
        exact ⟨n'', hn'', List.mem_cons_of_mem _ hvalue⟩
    · cases h

theorem applySummaryConcretely_values {summary : Summary} {model : PartialModel String}
    (h : ex.applySummaryConcretely summary model versions c = .ok (versions', c')) :
    Extends c.concreteValuations c'.concreteValuations ∧
      ∀ n s t, summary.hardConstraints.find? n = some ⟨s, t⟩ →
        c'.concreteValuations.find? (Etfa.Executor.nameIn summary versions c.toContext n) =
          some (SmtSort.value (t.eval model.complete)) := by
  obtain ⟨_, r, valuations, -, hr, hvaluations, hset, -, -⟩ := applySummaryConcretely_cases h
  obtain ⟨hkeep, hall⟩ := setConcreteValuations_spec hset
  refine ⟨hkeep, fun n s t hn => ?_⟩
  have hentry := (OrderedMap.find?_eq_some_iff _ _ _).mp hn
  obtain ⟨n', hn', hmem⟩ := evaluateHardConstraints_spec hvaluations n s t hentry
  have hkeys : ∀ q ∈ summary.hardConstraints.keys, (summary.hardConstraints.find? q).isSome := by
    intro q hq
    obtain ⟨x, hx, rfl⟩ := List.mem_map.mp hq
    rw [(OrderedMap.find?_eq_some_iff _ _ _).mpr hx]
    rfl
  obtain ⟨hcovers, -⟩ := Etfa.Executor.reversionWritten_covers summary c.state hkeys
    (Etfa.Executor.Reversioning.covers_nil _ _) hr
  have hmem' : n ∈ summary.hardConstraints.keys := List.mem_map.mpr ⟨_, hentry, rfl⟩
  rw [hcovers.used, if_pos (by simpa using hmem')] at hn'
  cases hn'
  exact hall _ hmem

end Executor

/-- A summary applied with a model that suits it keeps the agreement. -/
theorem Context.Agrees.apply {summary : Summary} {model : PartialModel String} (hc : c.Agrees)
    (hw : c.WellDefined p) (hfits : p.Fits summary) (hsuits : c.Suits summary model)
    (h : ex.applySummaryConcretely summary model versions c = .ok (versions', c')) : c'.Agrees := by
  obtain ⟨hkeep, hwritten⟩ := Executor.applySummaryConcretely_values h
  obtain ⟨_, _, _, -, -, -, -, happly, -⟩ := Executor.applySummaryConcretely_cases h
  obtain ⟨r, hr⟩ := Etfa.Executor.applySummary_spec hfits happly
  let name := Etfa.Executor.nameIn summary versions c.toContext
  obtain ⟨N, hN, hread⟩ := Definitions.exists_reads hfits.wellFounded
    fun s n => c.concreteModel s (name n)
  have hlocal : ∀ q ∈ summary.occurrences, summary.hardConstraints.find? q.2 = none →
      (∃ t, c.definitions (name q.2) = some ⟨q.1, t⟩) ∧
      q.1.value (c.concreteModel q.1 (name q.2)) = c.values (decontextualize q.2) := by
    intro q hq hnone
    obtain ⟨f, v, hqf, hplain, hsort⟩ := hfits.read q hq
    have hversion := hr.localRead q hq hnone
    have hd : decontextualize q.2 = f := by rw [hqf, decontextualize_versioned hplain]
    dsimp only [name, Etfa.Executor.nameIn]
    rw [hd] at hversion ⊢
    refine ⟨hw.currentVersion hsort hversion, ?_⟩
    rw [← hc.store hw hsort, Etfa.Context.store_eq hsort hversion]
  obtain ⟨hmodel, hassumptions⟩ := hsuits N (fun q hq hnone => by
    rw [hread q.2 q.1 hnone]
    exact (hlocal q hq hnone).2) hN.respects
  -- the model of the summary is the concrete one under the names in the context
  have hnames : ∀ q ∈ summary.occurrences, N q.1 q.2 = c'.concreteModel q.1 (name q.2) := by
    intro q hq
    cases he : summary.hardConstraints.find? q.2 with
    | none =>
      obtain ⟨⟨t, ht⟩, -⟩ := hlocal q hq he
      have hvalue := hc.valuations _ _ ht
      rw [hread q.2 q.1 he]
      exact (modelOf_eq hvalue).trans (modelOf_eq (hkeep _ _ hvalue)).symm
    | some e =>
      obtain ⟨f, v, hqf, hplain, hsort⟩ := hfits.read q hq
      obtain ⟨f', v', hqf', -, hsort'⟩ := hfits.written he
      obtain ⟨rfl, rfl⟩ := versioned_injective (hqf.symm.trans hqf')
      rw [hsort] at hsort'
      obtain ⟨s, t⟩ := e
      cases hsort'
      rw [hN.respects _ _ _ he, ← hmodel _ _ _ he]
      exact (modelOf_eq (hwritten _ _ _ he)).symm
  have heval : ∀ {s : SmtSort} (t : Term String s), t.occurrences ⊆ summary.occurrences →
      (t.rename name).eval c'.concreteModel = t.eval N := by
    intro s t ht
    rw [Term.eval_rename]
    exact Term.eval_congr t fun k hk => (hnames k (ht hk)).symm
  refine hc.of_extends hw hkeep (fun t ht => ?_) (fun n e hn => ?_)
  · rw [hr.pathConstraint] at ht
    rcases List.mem_append.mp ht with ht | ht
    · exact Or.inl ht
    · obtain ⟨u, hu, rfl⟩ := List.mem_map.mp ht
      refine Or.inr ?_
      rw [Term.Holds, heval u (Etfa.Executor.mem_occurrences_assumptions hu)]
      exact hassumptions u hu
  · rcases hr.back n e hn with hn | ⟨n', s, t, hn', rfl, rfl⟩
    · exact Or.inl hn
    · refine Or.inr ?_
      rw [hwritten _ _ _ hn', hmodel _ _ _ hn']
      refine congrArg (fun x => some (SmtSort.value x)) (heval t ?_).symm
      exact Etfa.Executor.mem_occurrences_hardConstraints
        ((OrderedMap.find?_eq_some_iff _ _ _).mp hn')

namespace Executor

theorem makeRandomValue_sort {i : ℤ} {type : DataType} {s : SmtSort} {value : Value}
    (h : makeRandomValue i type = .ok value) (hs : type.sort = .ok s) :
    ∃ x : s.Carrier, value = SmtSort.value x := by
  cases type <;> cases h <;> cases hs <;> exact ⟨_, rfl⟩

theorem carryOver_spec {entries : List (String × Variable)}
    (h : ex.carryOver random c entries m = .ok m') :
    Extends m m' ∧ ∀ x v, (x, v) ∈ entries → ∃ value, ex.carriedValue random c x v = .ok value ∧
      m'.find? (contextualized x 0 (c.cycle + 1)) = some value := by
  induction entries generalizing m with
  | nil =>
    cases h
    exact ⟨fun _ _ h => h, fun _ _ hx => absurd hx List.not_mem_nil⟩
  | cons entry entries ih =>
    obtain ⟨y, u⟩ := entry
    obtain ⟨value, hvalue, h⟩ := bind_eq_ok h
    obtain ⟨m₁, hm₁, h⟩ := bind_eq_ok h
    obtain ⟨hfresh, rfl⟩ := setConcreteValuation_eq hm₁
    obtain ⟨hkeep, hset⟩ := ih h
    refine ⟨(extends_emplace _ hfresh).trans hkeep, fun x v hx => ?_⟩
    rcases List.mem_cons.mp hx with hx | hx
    · cases hx
      exact ⟨value, hvalue, hkeep _ _ (OrderedMap.find?_emplace_self _ hfresh)⟩
    · exact hset x v hx

end Executor

/-- The next cycle begins in agreement: an input has its random value, every other variable the value
and the valuation it had. -/
theorem Context.Agrees.nextCycle (hc : c.Agrees) (hw : c.WellDefined p)
    (h : ex.handleProgramExitVertex random frame versions c = .ok (versions', c')) : c'.Agrees := by
  obtain ⟨hconcrete, hexit, -⟩ := Executor.handleProgramExitVertex_cases h
  obtain ⟨-, st₁, st₂, next, hcarry, hreset, -, hc'⟩ :=
    Etfa.Executor.handleProgramExitVertex_cases hexit
  obtain ⟨hval, -, -⟩ := Etfa.Executor.resetVersions_spec hreset
  obtain ⟨hkeep, hvalues⟩ := Executor.carryOver_spec hconcrete
  obtain ⟨-, -, hback, -⟩ := Etfa.Executor.carryOver_names hcarry
  have hdef : c'.definitions = st₁.symbolicValuations.find? := by
    rw [hc', ← hval]
    rfl
  refine hc.of_extends hw hkeep (fun t ht => ?_) (fun n e hn => ?_)
  · rw [hc'] at ht
    exact absurd ht List.not_mem_nil
  · rw [hdef] at hn
    rcases hback n e hn with hold | ⟨x, v, hx, rfl⟩
    · exact Or.inl hold
    · refine Or.inr ?_
      obtain ⟨e', he', hnew⟩ := Etfa.Executor.carryOver_carried hcarry x v hx
      rw [hn] at hnew
      cases hnew
      obtain ⟨value, hvalue, hset⟩ := hvalues x v hx
      unfold Executor.carriedValue at hvalue
      unfold Etfa.Executor.carriedValuation at he'
      by_cases hinput : x ∈ ex.wholeProgramInputs
      · rw [if_pos hinput] at hvalue
        rw [if_pos (show x ∈ ex.symbolic.wholeProgramInputs from hinput)] at he'
        obtain ⟨s, hs, rfl⟩ := makeConstant_eq he'
        obtain ⟨a, rfl⟩ := Executor.makeRandomValue_sort hvalue hs
        rw [hset]
        exact congrArg (fun a => some (SmtSort.value a)) (modelOf_eq hset).symm
      · rw [if_neg hinput] at hvalue
        rw [if_neg (show x ∉ ex.symbolic.wholeProgramInputs from hinput)] at he'
        obtain ⟨w, hwv, hvalue⟩ := bind_eq_ok hvalue
        obtain ⟨w', hwv', he'⟩ := bind_eq_ok he'
        rw [hwv] at hwv'
        cases hwv'
        have hold := hc.valuations _ _ (State.getSymbolicValuation_eq he')
        have hclosed := hw.acyclic.closed _ e.1 e.2 (State.getSymbolicValuation_eq he')
        rw [Context.getConcreteValuation_eq hvalue] at hold
        rw [hset, Option.some.inj hold, valueOf, valueOf, hc.eval_extends hkeep hclosed]

/-- The expression that is evaluated at the vertex of the context. -/
def Context.expression? (c : Context) : Option Expression :=
  match c.state.vertex.instruction with
  | some (.assignmentInstruction _ _ e) | some (.ifInstruction e _ _) => some e
  | _ => none

/-- The condition on a context that is executed: a Boolean is added to a Boolean of the same value
only, and the summaries found at a call suit the concrete store. -/
structure KeepsStores (ex : Executor) (c : Context) : Prop where
  additions : ∀ {frame frames e}, c.callStack = frame :: frames → c.expression? = some e →
    e.addsAlike .rejected (fun n => c.values (frame.scope ++ "." ++ n)) = true
  summaries : ∀ {frame frames called t₁ t₂ callee returnLabel applicable},
    c.callStack = frame :: frames →
    c.state.vertex.instruction = some (.callInstruction called t₁ t₂) →
    ex.findApplicable (Executor.inside frame called callee returnLabel c) = .ok applicable →
    ∀ x ∈ applicable, c.Suits x.1 x.2

namespace Executor

theorem visitAssignment_agrees {type : AssignmentType} {r : VariableReference} {e : Expression}
    (hc : c.Agrees) (hw : c.WellDefined p)
    (hsorted : p.Sorted frame.scope (.assignmentInstruction type r e))
    (hadd : e.addsAlike .rejected (fun n => c.values (frame.scope ++ "." ++ n)) = true)
    (h : ex.visitAssignment frame r e versions c = .ok (versions', c')) : c'.Agrees := by
  obtain ⟨value, w, hvalue, hassign, hversion, hset, -⟩ := visitAssignment_cases h
  obtain ⟨u, w', edge, next, hu, -, -, -, -, -, hc'⟩ := Etfa.Executor.visitAssignment_cases hassign
  obtain rfl : w = w' + 1 := by
    rw [hc', OrderedMap.find?_assign, if_pos rfl] at hversion
    exact (Option.some.inj hversion).symm
  obtain ⟨hfresh, hconcrete⟩ := setConcreteValuation_eq hset
  have hkeep : Extends c.concreteValuations c'.concreteValuations :=
    hconcrete ▸ extends_emplace value hfresh
  refine hc.of_extends hw hkeep (fun t ht => Or.inl ?_) (fun n e' hn => ?_)
  · rw [hc'] at ht
    exact ht
  · by_cases hname : n = contextualized (frame.scope ++ "." ++ r.getName) (w' + 1) c.cycle
    · refine Or.inr ?_
      have hdef : c'.definitions n = some u := by
        subst hname
        rw [hc']
        apply OrderedMap.find?_emplace_self
        cases hold : c.definitions
            (contextualized (frame.scope ++ "." ++ r.getName) (w' + 1) c.cycle) with
        | none => exact hold
        | some e'' =>
          have hvalue' := hc.valuations _ _ hold
          rw [hfresh] at hvalue'
          cases hvalue'
      rw [hn] at hdef
      cases hdef
      have hclosed := Etfa.Executor.encode_closed hw hsorted.1 hu
      rw [hconcrete, hname, OrderedMap.find?_emplace_self value hfresh,
        ← hc.evaluate hw hsorted.1 hadd hu hvalue, valueOf, valueOf, hc.eval_extends hkeep hclosed]
    · refine Or.inl ?_
      rw [hc'] at hn
      exact (OrderedMap.find?_emplace_ne _ _ hname).symm.trans hn

theorem visitIf_agrees {e : Expression} {t₁ t₂ : ℤ} {successors : Successors} (hc : c.Agrees)
    (hw : c.WellDefined p) (hsorted : p.Sorted frame.scope (.ifInstruction e t₁ t₂))
    (hadd : e.addsAlike .rejected (fun n => c.values (frame.scope ++ "." ++ n)) = true)
    (h : ex.visitIf frame e c = .ok successors) :
    ∀ c' ∈ successors.contexts ++ successors.forked.toList, c'.Agrees := by
  obtain ⟨evaluated, t, hvalue, ht, hsides⟩ := visitIf_cases h
  have hclosed : c.definitions.Closed t := Etfa.Executor.encode_closed hw hsorted ht
  have heval : t.eval c.concreteModel = evaluated :=
    Value.bool.inj (hc.evaluate hw hsorted hadd ht hvalue)
  intro c' hc'
  obtain ⟨taken, edge, next, -, -, hor⟩ := hsides c' hc'
  rcases hor with ⟨rfl, rfl⟩ | ⟨model, m, hfind, hover, rfl⟩
  · refine hc.of_extends hw (fun _ _ h => h) (fun u hu => ?_) (fun _ _ hn => Or.inl hn)
    rcases List.mem_append.mp hu with hu | hu
    · exact Or.inl hu
    · rw [List.mem_singleton.mp hu]
      exact Or.inr ((holds_side ex _ taken t).mpr heval)
  · exact hc.fork hw (fun k hk => hclosed k (ex.side_occurrences taken t hk)) hfind hover

/-- Every step that meets the condition restores the agreement. -/
theorem execute_agrees {successors : Successors} (hp : p.WellSorted)
    (hfits : ∀ typeName, ∀ s ∈ ex.getSummaries typeName, p.Fits s)
    (hplaced : c.toContext.Placed p) (hw : c.WellDefined p) (hc : c.Agrees)
    (hkeeps : KeepsStores ex c) (h : ex.execute random versions c = .ok (versions', successors)) :
    ∀ c' ∈ successors.contexts ++ successors.forked.toList, c'.Agrees := by
  obtain ⟨frame, frames, hstack, hexecutes⟩ := execute_cases h
  have hframes := hstack ▸ hplaced.stack
  obtain ⟨l, hl⟩ := hplaced.atVertex frame frames hstack
  have hsame : ∀ {c' : Context}, c'.state.pathConstraint = c.state.pathConstraint →
      c'.state.symbolicValuations = c.state.symbolicValuations →
      c'.concreteValuations = c.concreteValuations → c'.Agrees := by
    intro c' hpath hsymbolic hconcrete
    refine hc.of_extends hw (hconcrete ▸ fun _ _ h => h) (fun t ht => Or.inl (hpath ▸ ht))
      (fun n e hn => Or.inl ?_)
    rw [← hn]
    exact congrArg (fun m => m.find? n) hsymbolic.symm
  intro c' hc'
  cases hexecutes with
  | move _ _ =>
    rw [mem_single hc']
    exact hsame rfl rfl rfl
  | assignment _ hinstruction hstep =>
    rw [mem_single hc']
    exact visitAssignment_agrees hc hw (hp.sorted hframes.instance_of_head hl hinstruction)
      (hkeeps.additions hstack (by rw [Context.expression?, hinstruction])) hstep
  | @call called _ _ _ _ _ hinstruction hstep =>
    obtain ⟨typeName, callee, edge, _, applicable, -, -, -, -, happlicable, hor⟩ :=
      visitCall_cases hstep
    rcases hor with ⟨-, -, next, -, rfl⟩ | ⟨-, next, cs, -, happly, rfl⟩
    · rw [mem_single hc']
      exact hsame rfl rfl rfl
    · have hfound := findApplicable_fits hfits happlicable
      obtain ⟨x, hx, _, _, c₁, -, h₁, rfl⟩ :=
        mem_applySummaries hfound happly (by simpa using hc')
      have hinside : (inside frame called callee edge.targetLabel c).Agrees := hsame rfl rfl rfl
      have hwell : (inside frame called callee edge.targetLabel c).WellDefined p :=
        hw.of_eq rfl rfl hw.closed rfl
      have hc₁ := hinside.apply hwell (hfound x hx)
        (hkeeps.summaries hstack hinstruction happlicable x hx) h₁
      exact ⟨hc₁.pathConstraint, hc₁.valuations⟩
  | branch _ hinstruction hstep =>
    exact visitIf_agrees hc hw (hp.sorted hframes.instance_of_head hl hinstruction)
      (hkeeps.additions hstack (by rw [Context.expression?, hinstruction])) hstep c' hc'
  | programExit _ _ hstep =>
    rw [mem_single hc']
    exact hc.nextCycle hw hstep
  | functionBlockExit _ _ hstep =>
    rw [mem_single hc']
    obtain ⟨_, _, _, next, -, -, rfl⟩ := Etfa.Executor.handleFunctionBlockExitVertex_returns hstep
    exact hsame rfl rfl rfl

end Executor

namespace Engine

theorem initialConcreteValuations_spec {entries : List (String × Variable)}
    (hdistinct : entries.Pairwise fun x y => x.1 < y.1)
    (hfresh : ∀ x ∈ entries, m.find? (contextualized x.1 0 0) = none)
    (h : initialConcreteValuations entries m = .ok m') :
    Extends m m' ∧ ∀ x v, (x, v) ∈ entries → ∃ value, initialValue v = .ok value ∧
      m'.find? (contextualized x 0 0) = some value := by
  induction entries generalizing m with
  | nil =>
    cases h
    exact ⟨fun _ _ h => h, fun _ _ hx => absurd hx List.not_mem_nil⟩
  | cons entry entries ih =>
    obtain ⟨y, u⟩ := entry
    obtain ⟨value, hvalue, h⟩ := bind_eq_ok h
    obtain ⟨hy, hdistinct⟩ := List.pairwise_cons.mp hdistinct
    have hnone := hfresh (y, u) List.mem_cons_self
    obtain ⟨hkeep, hset⟩ := ih hdistinct (by
      intro x hx
      rw [OrderedMap.find?_emplace_ne]
      · exact hfresh x (List.mem_cons_of_mem _ hx)
      · intro hname
        exact (hy x hx).ne (contextualized_injective hname).1.symm) h
    refine ⟨(extends_emplace _ hnone).trans hkeep, fun x v hx => ?_⟩
    rcases List.mem_cons.mp hx with hx | hx
    · cases hx
      exact ⟨value, hvalue, hkeep _ _ (OrderedMap.find?_emplace_self _ hnone)⟩
    · exact hset x v hx

theorem initialValue_sort {v : Variable} {value : Value} {s : SmtSort}
    (h : initialValue v = .ok value) (hs : v.dataType.sort = .ok s)
    (hinitial : ∀ value, v.initialization = some value → (Etfa.Engine.makeValue value).1 = s) :
    ∃ x : s.Carrier, value = SmtSort.value x := by
  unfold initialValue at h
  split at h
  · rename_i value' hvalue
    cases h
    have hsort := hinitial _ hvalue
    cases value with
    | bool b =>
      subst hsort
      exact ⟨b, rfl⟩
    | int i =>
      subst hsort
      exact ⟨i, rfl⟩
  · rw [hs] at h
    cases s <;> cases h
    · exact ⟨false, rfl⟩
    · exact ⟨(0 : ℤ), rfl⟩

theorem initialValue_eq {v : Variable} {value : Value} (h : initialValue v = .ok value) :
    value = v.initialization.getD (Program.defaultValue v.dataType) := by
  unfold initialValue at h
  split at h
  · rename_i value' hvalue
    cases h
    rw [hvalue, Option.getD_some]
  · rename_i hnone
    obtain ⟨s, hs, h⟩ := bind_eq_ok h
    rw [hnone, Option.getD_none, Program.defaultValue, hs]
    cases s <;> cases h <;> rfl

theorem initial_agrees {g : Engine} (hp : p.WellSorted) (h : initial p = .ok g) :
    ∀ c ∈ g.live, c.Agrees := by
  obtain ⟨m, hm, h⟩ := bind_eq_ok h
  obtain ⟨vertex, -, h⟩ := bind_eq_ok h
  obtain ⟨⟨versions, st⟩, hst, h⟩ := bind_eq_ok h
  cases h
  obtain ⟨-, hvalues⟩ :=
    initialConcreteValuations_spec p.main.flattenedInterface.sorted (fun _ _ => rfl) hm
  intro c hc
  obtain rfl := List.mem_singleton.mp hc
  refine ⟨fun t ht => ?_, fun n e hn => ?_⟩
  · dsimp only at ht
    rw [(Etfa.Engine.initialState_place hst).2] at ht
    rw [List.mem_singleton.mp ht]
    rfl
  · rcases Etfa.Engine.initialState_values hst hn with hn | ⟨x, v, hx, rfl, he⟩
    · cases hn
    · obtain ⟨value, hvalue, hset⟩ := hvalues x v hx
      obtain ⟨s, hs, hinitial⟩ := hp.encodable ((OrderedMap.find?_eq_some_iff _ _ _).mpr hx)
      obtain ⟨a, rfl⟩ := initialValue_sort hvalue hs hinitial
      change m.find? _ = _
      rw [hset]
      by_cases hinput : x ∈ p.wholeProgramInputs
      · unfold Etfa.Engine.initialValuation at he
        rw [if_pos hinput] at he
        obtain ⟨s', hs', rfl⟩ := makeConstant_eq he
        rw [hs] at hs'
        cases hs'
        exact congrArg (fun a => some (SmtSort.value a)) (modelOf_eq hset).symm
      · rw [Etfa.Engine.valueOf_initialValuation _ hinput he, initialValue_eq hvalue]

theorem Reachable.agreeing {g : Engine} (hp : p.WellSorted) (hcfg : ex.getCfg = p.getCfg)
    (hfits : ∀ typeName, ∀ s ∈ ex.getSummaries typeName, p.Fits s)
    (hg : Reachable p ex (fun _ c => KeepsStores ex c) g) :
    ∀ c ∈ g.live, c.toContext.Placed p ∧ c.WellDefined p ∧ c.Agrees := by
  refine hg.induction (fun c => c.toContext.Placed p ∧ c.WellDefined p ∧ c.Agrees) ?_ ?_
  · intro g hg c hc
    obtain ⟨hplaced, hw⟩ := initial_wellDefined hp hg c hc
    exact ⟨hplaced, hw, initial_agrees hp hg c hc⟩
  · rintro random versions c versions' successors ⟨hplaced, hw, hc⟩ hkeeps hexecute c' hc'
    exact ⟨Executor.execute_placed hcfg hfits hplaced hexecute c' hc',
      Executor.execute_wellDefined hp hfits hplaced hw hexecute c' hc',
      Executor.execute_agrees hp hfits hplaced hw hc hkeeps hexecute c' hc'⟩

/-- In every run in which all executed contexts meet the condition, the concrete valuations of every
context satisfy its path constraint and are the values of its symbolic valuations. -/
theorem Reachable.stores_agree {g : Engine} (hp : p.WellSorted) (hcfg : ex.getCfg = p.getCfg)
    (hfits : ∀ typeName, ∀ s ∈ ex.getSummaries typeName, p.Fits s)
    (hg : Reachable p ex (fun _ c => KeepsStores ex c) g) : ∀ c ∈ g.live, c.Agrees :=
  fun c hc => (hg.agreeing hp hcfg hfits c hc).2.2

end Engine

namespace Summarizer

theorem checkSummaries_symbolic {simplifier : Simplifier String} {finder : ModelFinder String}
    {summary : Summary} {summaries : List Summary} {model model₁ own last : PartialModel String}
    {applicable : List (Summary × Option (PartialModel String))}
    (hmodel : evaluateHardConstraints simplifier summary.hardConstraints.entries model = .ok model₁)
    (hassumptions : (summary.assumptions.all fun t => t.eval model₁.complete) = false)
    (hown : isSymbolicallyApplicable finder frame c summary = .ok (some own))
    (hrest : checkSummaries simplifier finder frame c summaries model₁ = .ok (applicable, last)) :
    checkSummaries simplifier finder frame c (summary :: summaries) model =
      .ok ((summary, some own) :: applicable, last) := by
  unfold checkSummaries
  rw [hmodel]
  dsimp only [bind, Except.bind]
  rw [hassumptions, hown, hrest]
  rfl

end Summarizer

namespace SummarizedCall

def a : Variable := { name := "a", dataType := .bool, storageType := .input }

def i : Variable := { name := "i", dataType := .bool, storageType := .input }

def x : Variable := { name := "x", dataType := .bool, storageType := .local }

def f : Variable := { name := "f", dataType := .derivedType "F", storageType := .local }

/-- IF i THEN x := TRUE; ELSE x := FALSE; END_IF; -/
def callee : UnitCfg where
  labelToVertex := ⟨[(4, ⟨4, .entry, none⟩),
    (5, ⟨5, .regular, some (.ifInstruction (.reference (.variableAccess i)) 6 7)⟩),
    (6, ⟨6, .regular, some (.assignmentInstruction .regular (.variableAccess x)
      (.booleanConstant true))⟩),
    (7, ⟨7, .regular, some (.assignmentInstruction .regular (.variableAccess x)
      (.booleanConstant false))⟩),
    (8, ⟨8, .exit, none⟩)], by decide⟩
  edges := [{ sourceLabel := 4, targetLabel := 5 },
    { sourceLabel := 5, targetLabel := 6, type := .trueBranch },
    { sourceLabel := 5, targetLabel := 7, type := .falseBranch },
    { sourceLabel := 6, targetLabel := 8 }, { sourceLabel := 7, targetLabel := 8 }]
  entryLabel := 4
  exitLabel := 8
  type := .functionBlock
  name := "F"
  interface := [i, x]
  flattenedInterface := ⟨[("F.i", i), ("F.x", x)], by decide⟩

/-- f.i := a; f(); -/
def main : UnitCfg where
  labelToVertex := ⟨[(0, ⟨0, .entry, none⟩),
    (1, ⟨1, .regular, some (.assignmentInstruction .parameterIn
      (.fieldAccess f (.variableAccess i)) (.reference (.variableAccess a)))⟩),
    (2, ⟨2, .regular, some (.callInstruction f 3 4)⟩),
    (3, ⟨3, .exit, none⟩)], by decide⟩
  edges := [{ sourceLabel := 0, targetLabel := 1 }, { sourceLabel := 1, targetLabel := 2 },
    { sourceLabel := 2, targetLabel := 3, type := .intraproceduralCallToReturn },
    { sourceLabel := 2, targetLabel := 4, type := .interproceduralCall }]
  entryLabel := 0
  exitLabel := 3
  type := .program
  name := "P"
  interface := [a, f]
  flattenedInterface := ⟨[("P.a", a), ("P.f.i", i), ("P.f.x", x)], by decide⟩

def program : Program where
  main := main
  getCfg := fun name => if name = "F" then some callee else none
  nesting := 1

def constant (n : String) : Term String .bool := .constant .bool n

/-- The path on which the input of the callee is true. -/
def taken : Summary where
  assumptions := [constant "P.f.i_0"]
  hardConstraints := ⟨[("P.f.x_1", ⟨.bool, .booleanValue true⟩)], by decide⟩

def skipped : Summary where
  assumptions := [.not (constant "P.f.i_0")]
  hardConstraints := ⟨[("P.f.x_1", ⟨.bool, .booleanValue false⟩)], by decide⟩

noncomputable def executor (summaries : List Summary) : Executor :=
  Engine.executor program (.identity _) (.classical _)
    (fun name => if name = "F" then summaries else []) fun _ _ => []

def versionsOf (i x : ℕ) : Versions where
  entries := [("P.a", 0), ("P.f.i", i), ("P.f.x", x)]
  sorted := by
    refine List.pairwise_map.mp (?_ : (List.map Prod.fst _).Pairwise (· < ·))
    change ["P.a", "P.f.i", "P.f.x"].Pairwise (· < ·)
    decide

def vertexAt (l : ℤ) : Vertex := (main.labelToVertex.find? l).getD ⟨3, .exit, none⟩

/-- The context in front of the first statement. -/
def entered (l : ℤ) : Context where
  cycle := 0
  state := ⟨vertexAt l, ⟨[("P.a_0__0", ⟨.bool, constant "P.a_0__0"⟩),
    ("P.f.i_0__0", ⟨.bool, .booleanValue false⟩), ("P.f.x_0__0", ⟨.bool, .booleanValue false⟩)],
      by decide⟩, [.booleanValue true], versionsOf 0 0⟩
  callStack := [⟨main, "P", 0⟩]
  concreteValuations := ⟨[("P.a_0__0", .bool false), ("P.f.i_0__0", .bool false),
    ("P.f.x_0__0", .bool false)], by decide⟩

def calling : Context where
  cycle := 0
  state := ⟨vertexAt 2, ⟨[("P.a_0__0", ⟨.bool, constant "P.a_0__0"⟩),
    ("P.f.i_0__0", ⟨.bool, .booleanValue false⟩), ("P.f.i_1__0", ⟨.bool, constant "P.a_0__0"⟩),
    ("P.f.x_0__0", ⟨.bool, .booleanValue false⟩)], by decide⟩, [.booleanValue true], versionsOf 1 0⟩
  callStack := [⟨main, "P", 0⟩]
  concreteValuations := ⟨[("P.a_0__0", .bool false), ("P.f.i_0__0", .bool false),
    ("P.f.i_1__0", .bool false), ("P.f.x_0__0", .bool false)], by decide⟩

/-- The context behind the call, with what the summary added. -/
def returned (assumption : Term String .bool) (version : ℕ) (b : Bool) : Context where
  cycle := 0
  state := ⟨vertexAt 3, calling.state.symbolicValuations.emplace
    (contextualized "P.f.x" version 0) ⟨.bool, .booleanValue b⟩, [.booleanValue true, assumption],
    versionsOf 1 version⟩
  callStack := [⟨main, "P", 0⟩]
  concreteValuations :=
    calling.concreteValuations.emplace (contextualized "P.f.x" version 0) (.bool b)

end SummarizedCall
namespace SummarizedCall

theorem initial_eq :
    Engine.initial program = .ok { versions := versionsOf 0 0, explorer := [entered 0] } := rfl

theorem execute_entry (summaries : List Summary) : (executor summaries).execute (fun _ => 0)
    (versionsOf 0 0) (entered 0) = .ok (versionsOf 0 0, ⟨[entered 1], none⟩) := rfl

theorem execute_parameter (summaries : List Summary) : (executor summaries).execute (fun _ => 0)
    (versionsOf 0 0) (entered 1) = .ok (versionsOf 1 0, ⟨[calling], none⟩) := rfl

theorem reachable_calling {summaries : List Summary} {P : Versions → Context → Prop}
    (hentry : P (versionsOf 0 0) (entered 0)) (hparameter : P (versionsOf 0 0) (entered 1)) :
    Engine.Reachable program (executor summaries) P
      { versions := versionsOf 1 0, explorer := [calling] } := by
  have h₀ : Engine.Reachable program (executor summaries) P _ := .initial initial_eq
  have h₁ := h₀.explore_first rfl hentry (execute_entry summaries)
  exact h₁.explore_first rfl hparameter (execute_parameter summaries)

def inCallee : Context := Executor.inside ⟨main, "P", 0⟩ f callee 3 calling

/-- The concrete valuations as the last summary leaves them. -/
def concreteValues : PartialModel String :=
  [⟨.bool, "P.f.x_1", false⟩, ⟨.bool, "P.f.i_0", false⟩, ⟨.bool, "P.f.x_0", false⟩]

theorem execute_skipped : (executor [skipped]).execute (fun _ => 0) (versionsOf 1 0) calling =
    .ok (versionsOf 1 2, ⟨[returned (.not (constant "P.f.i_1__0")) 2 false], none⟩) := rfl

/-- Inputs that satisfy the assumption of the first summary. -/
def inputs : Model String
  | .bool, n => decide (n ∈ ["P.a_0__0", "P.f.i_1__0", "P.f.i_0", "P.f.x_1", "b0"])
  | .int, _ => (0 : ℤ)

/-- The valuations of the interface in front of the call, at version 0. -/
def reversioned : List (String × SortedTerm String) :=
  [("P.f.i_0", ⟨.bool, constant "P.a_0__0"⟩), ("P.f.x_0", ⟨.bool, .booleanValue false⟩)]

theorem isSymbolicallyApplicable_taken : ∃ own, Summarizer.isSymbolicallyApplicable (.classical _)
    ⟨callee, "P.f", 3⟩ inCallee taken = .ok (some own) := by
  have hholds : ∀ t ∈ (reversioned ++ inCallee.state.symbolicValuations.entries).map
      Etfa.Executor.equation ++ [.connective .implies (constant "b0") (constant "P.f.i_0")] ++
      taken.hardConstraints.entries.map Etfa.Executor.equation ++ [constant "b0"],
      t.Holds inputs := by decide +kernel
  obtain ⟨own, hown⟩ := (ModelFinder.classical String).exists_of_holds hholds
  exact ⟨own, congrArg Except.ok hown⟩

theorem find_both : ∃ own, (executor [taken, skipped]).findApplicable inCallee =
    .ok [(taken, own), (skipped, concreteValues)] := by
  obtain ⟨own, hown⟩ := isSymbolicallyApplicable_taken
  have hmodel : Summarizer.evaluateHardConstraints (.identity _) taken.hardConstraints.entries
      [⟨.bool, "P.f.i_0", false⟩, ⟨.bool, "P.f.x_0", false⟩] =
      .ok [⟨.bool, "P.f.x_1", true⟩, ⟨.bool, "P.f.i_0", false⟩, ⟨.bool, "P.f.x_0", false⟩] := rfl
  have hrest : Summarizer.checkSummaries (.identity _) (.classical _) ⟨callee, "P.f", 3⟩ inCallee
      [skipped] [⟨.bool, "P.f.x_1", true⟩, ⟨.bool, "P.f.i_0", false⟩, ⟨.bool, "P.f.x_0", false⟩] =
      .ok ([(skipped, none)], concreteValues) := rfl
  have hcheck := Summarizer.checkSummaries_symbolic hmodel rfl hown hrest
  have hfind : (executor [taken, skipped]).findApplicable inCallee =
      (Summarizer.checkSummaries (.identity _) (.classical _) ⟨callee, "P.f", 3⟩ inCallee
        [taken, skipped] [⟨.bool, "P.f.i_0", false⟩, ⟨.bool, "P.f.x_0", false⟩] >>= fun x =>
          .ok (x.1.map fun y => (y.1, y.2.getD x.2))) := rfl
  rw [hcheck] at hfind
  exact ⟨own, hfind⟩

theorem execute_both : (executor [taken, skipped]).execute (fun _ => 0) (versionsOf 1 0) calling =
    .ok (versionsOf 1 4, ⟨[returned (constant "P.f.i_1__0") 2 true,
      returned (.not (constant "P.f.i_1__0")) 4 false], none⟩) := by
  obtain ⟨own, hown⟩ := find_both
  have hcall : (executor [taken, skipped]).visitCall ⟨main, "P", 0⟩ f (versionsOf 1 0) calling =
      ((executor [taken, skipped]).findApplicable inCallee >>= fun applicable =>
        if applicable.isEmpty then do
          let next ← callee.getVertex 4
          .ok (versionsOf 1 0, ⟨[Executor.moveTo next inCallee], none⟩)
        else do
          let next ← main.getVertex 3
          let applied ← (executor [taken, skipped]).applySummaries next calling.callStack
            inCallee applicable (versionsOf 1 0)
          .ok (applied.1, ⟨applied.2, none⟩)) := rfl
  rw [hown] at hcall
  exact hcall

theorem find?_eq_some {α κ : Type} [LinearOrder κ] {m : OrderedMap κ α} {k : κ} {v : α}
    (h : m.find? k = some v) : (k, v) ∈ m.entries := (OrderedMap.find?_eq_some_iff _ _ _).mp h

theorem instance_cases {scope : String} {cfg : UnitCfg} (h : program.Instance scope cfg) :
    (scope = "P" ∧ cfg = main) ∨ (scope = "P.f" ∧ cfg = callee) := by
  induction h with
  | main => exact Or.inl ⟨rfl, rfl⟩
  | called _ hl hcall hname hcallee ih =>
    have hl := find?_eq_some hl
    rcases ih with ⟨rfl, rfl⟩ | ⟨rfl, rfl⟩
    · simp only [main, List.mem_cons, Prod.mk.injEq, List.not_mem_nil, or_false] at hl
      rcases hl with ⟨-, rfl⟩ | ⟨-, rfl⟩ | ⟨-, rfl⟩ | ⟨-, rfl⟩ <;> cases hcall
      cases hname
      cases hcallee
      exact Or.inr ⟨rfl, rfl⟩
    · simp only [callee, List.mem_cons, Prod.mk.injEq, List.not_mem_nil, or_false] at hl
      rcases hl with ⟨-, rfl⟩ | ⟨-, rfl⟩ | ⟨-, rfl⟩ | ⟨-, rfl⟩ | ⟨-, rfl⟩ <;> cases hcall

theorem wellSorted : program.WellSorted where
  sorted := by
    intro scope cfg h l v instruction hl hi
    have hl := find?_eq_some hl
    rcases instance_cases h with ⟨rfl, rfl⟩ | ⟨rfl, rfl⟩
    · simp only [main, List.mem_cons, Prod.mk.injEq, List.not_mem_nil, or_false] at hl
      rcases hl with ⟨-, rfl⟩ | ⟨-, rfl⟩ | ⟨-, rfl⟩ | ⟨-, rfl⟩ <;> cases hi
      · exact ⟨fun q hq => List.mem_singleton.mp hq ▸ ⟨.bool, rfl, rfl⟩, rfl⟩
      · trivial
    · simp only [callee, List.mem_cons, Prod.mk.injEq, List.not_mem_nil, or_false] at hl
      rcases hl with ⟨-, rfl⟩ | ⟨-, rfl⟩ | ⟨-, rfl⟩ | ⟨-, rfl⟩ | ⟨-, rfl⟩ <;> cases hi
      · exact fun q hq => List.mem_singleton.mp hq ▸ ⟨.bool, rfl, rfl⟩
      · exact ⟨fun q hq => absurd hq List.not_mem_nil, rfl⟩
      · exact ⟨fun q hq => absurd hq List.not_mem_nil, rfl⟩
  encodable := by
    intro n v hn
    have hn := find?_eq_some hn
    simp only [program, main, List.mem_cons, Prod.mk.injEq, List.not_mem_nil, or_false] at hn
    rcases hn with ⟨-, rfl⟩ | ⟨-, rfl⟩ | ⟨-, rfl⟩ <;> exact ⟨.bool, rfl, fun _ h => by cases h⟩

theorem fits {assumption : Term String .bool} {b : Bool}
    (h : assumption.occurrences = [(.bool, "P.f.i_0")]) : program.Fits
      { assumptions := [assumption]
        hardConstraints := .assign .empty "P.f.x_1" ⟨.bool, .booleanValue b⟩ } where
  written := by
    intro n e he
    cases List.mem_singleton.mp (find?_eq_some he)
    exact ⟨"P.f.x", 1, rfl, by unfold Plain; decide, rfl⟩
  read := by
    intro q hq
    have hq : q ∈ assumption.occurrences ++ [] := hq
    rw [h] at hq
    obtain rfl := List.mem_singleton.mp hq
    exact ⟨"P.f.i", 0, rfl, by unfold Plain; decide, rfl⟩
  wellFounded := ⟨fun n => Acc.intro n fun k hk => by
    obtain ⟨s, t, ht, -, s', hk⟩ := hk
    cases List.mem_singleton.mp (find?_eq_some ht)
    cases hk⟩

theorem fits_all {summaries : List Summary} (h : summaries ⊆ [taken, skipped]) :
    ∀ typeName, ∀ s ∈ (executor summaries).getSummaries typeName, program.Fits s := by
  intro typeName s hs
  change s ∈ (if typeName = "F" then summaries else []) at hs
  split_ifs at hs
  · rcases List.mem_cons.mp (h hs) with rfl | hs
    · exact fits rfl
    · rw [List.mem_singleton.mp hs]
      exact fits rfl
  · exact absurd hs List.not_mem_nil

end SummarizedCall

open SummarizedCall in
/-- With the summaries of both paths, the one for the input that is not the current one is applied
too, and the concrete valuations do not satisfy its assumption. -/
theorem summary_drifts : program.WellSorted ∧
    (∀ typeName, ∀ s ∈ (executor [taken, skipped]).getSummaries typeName, program.Fits s) ∧
    ∃ g, Engine.Reachable program (executor [taken, skipped]) (fun _ _ => True) g ∧
      ∃ c ∈ g.live, ¬ c.Agrees := by
  refine ⟨wellSorted, fits_all (List.Subset.refl _), _,
    (reachable_calling trivial trivial).explore_first rfl trivial execute_both,
    returned (constant "P.f.i_1__0") 2 true, List.mem_cons_self, fun h => ?_⟩
  have hholds := h.pathConstraint (constant "P.f.i_1__0") (by simp [returned])
  exact Bool.false_ne_true hholds

namespace SummarizedCall

theorem keepsStores_entry (summaries : List Summary) :
    KeepsStores (executor summaries) (entered 0) where
  additions := fun _ h => nomatch h
  summaries := fun _ h => nomatch h

theorem keepsStores_parameter (summaries : List Summary) :
    KeepsStores (executor summaries) (entered 1) where
  additions := by
    intro frame frames e _ he
    cases he
    rfl
  summaries := fun _ h => nomatch h

theorem keepsStores_calling : KeepsStores (executor [skipped]) calling where
  additions := fun _ h => nomatch h
  summaries := by
    intro frame frames called t₁ t₂ unit returnLabel applicable _ _ hfound y hy
    obtain ⟨typeName, hmem⟩ := Summarizer.mem_findConcretelyApplicableSummaries hfound y hy
    change y.1 ∈ (if typeName = "F" then [skipped] else []) at hmem
    split_ifs at hmem
    · rw [List.mem_singleton.mp hmem]
      intro N hread _
      refine ⟨fun n s t hn => ?_, fun t ht => ?_⟩
      · cases List.mem_singleton.mp (find?_eq_some hn)
        rfl
      · rw [List.mem_singleton.mp ht]
        have hi : N .bool "P.f.i_0" = false :=
          Value.bool.inj (hread (.bool, "P.f.i_0") (List.mem_singleton.mpr rfl) rfl)
        change (!N .bool "P.f.i_0") = true
        rw [hi]
        rfl
    · exact absurd hmem List.not_mem_nil

end SummarizedCall

open SummarizedCall in
/-- With the summary of the path that is taken alone, the stores agree behind the call. -/
theorem stores_agree_skipped :
    (returned (.not (constant "P.f.i_1__0")) 2 false).Agrees := by
  have hreachable : Engine.Reachable program (executor [skipped])
      (fun _ c => KeepsStores (executor [skipped]) c) _ :=
    (reachable_calling (keepsStores_entry _) (keepsStores_parameter _)).explore_first rfl
      keepsStores_calling execute_skipped
  exact Engine.Reachable.stores_agree wellSorted rfl
    (fits_all (List.subset_cons_self taken [skipped])) hreachable _ List.mem_cons_self

end Ahorn.EtfaNoMerge
