import Ahorn.EtfaReplayRuns

set_option autoImplicit false

/-!
# Derived test cases replay

The values of a test case are those a model of the context has at version 0 of its cycles, so the
program that starts from them and reads them is in the place of the context. The state variables
are always interpreted, as their valuations are values; an input is looked up in vain where the
model leaves it out.
-/
namespace Ahorn.Etfa

variable {p : Program} {simplifier : Simplifier String} {finder : ModelFinder String}
  {findApplicableSummaries : Context → Except String (List Summary)} {versions versions' : Versions}
  {c c' : Context} {k : ℕ} {t : TestCase} {model : PartialModel String}

namespace TestCase

def inputs (t : TestCase) : Inputs := fun cycle x =>
  match t.cycleToConcreteInputValuations.find? cycle with
  | some values => (values.find? x).getD (.int 0)
  | none => .int 0

/-- There is a value for every state variable, and for every input of every cycle up to the given
one. -/
structure Complete (p : Program) (cycle : ℕ) (t : TestCase) : Prop where
  stateVariables : ∀ x ∈ UnitCfg.stateVariables p.main,
    ∃ value, t.initialConcreteStateValuations.find? x = some value
  inputs : ∀ k ≤ cycle, ∃ values, t.cycleToConcreteInputValuations.find? k = some values ∧
    ∀ x ∈ p.wholeProgramInputs, ∃ value, values.find? x = some value

end TestCase

def Program.startWith (p : Program) (t : TestCase) : Except String Configuration := do
  let vertex ← p.main.getVertex p.main.entryLabel
  .ok {
    cycle := 0
    vertex := vertex
    callStack := [⟨p.main, p.main.name, p.main.entryLabel⟩]
    store := fun x =>
      if x ∈ p.wholeProgramInputs then t.inputs 0 x
      else (t.initialConcreteStateValuations.find? x).getD (.int 0)
    branches := [] }

/-- The execution of the program from the initial values of the test case on its inputs takes the
side of a branch in the given cycle. -/
def TestCase.Takes (p : Program) (t : TestCase) (cycle : ℕ) (branch : Branch) : Prop :=
  ∃ conf₀ conf conf' branches, p.startWith t = .ok conf₀ ∧ p.Runs t.inputs conf₀ conf ∧
    p.Runs t.inputs conf conf' ∧ conf.cycle = cycle ∧ conf'.cycle = cycle ∧
    conf'.branches = conf.branches ++ branches ∧ branch ∈ branches

/-- The model has a value for every input of every cycle up to the given one. -/
def InterpretsInputs (p : Program) (cycle : ℕ) (model : PartialModel String) : Prop :=
  ∀ k ≤ cycle, ∀ x ∈ p.wholeProgramInputs, ∃ i ∈ model, i.name = contextualized x 0 k

namespace TestSuite

variable {valuations r : OrderedMap String Value} {cycle : ℕ} {names : List String}

theorem lowestValues_total
    (h : ∀ x ∈ names, ∃ v, valuations.find? (contextualized x 0 cycle) = some v) :
    ∃ r, lowestValues valuations cycle names = .ok r := by
  induction names with
  | nil => exact ⟨_, rfl⟩
  | cons x names ih =>
    obtain ⟨v, hv⟩ := h x List.mem_cons_self
    obtain ⟨r, hr⟩ := ih fun y hy => h y (List.mem_cons_of_mem _ hy)
    unfold lowestValues
    rw [hv, hr]
    exact ⟨_, rfl⟩

theorem exists_of_lowestValues (h : lowestValues valuations cycle names = .ok r) :
    ∀ x ∈ names, ∃ v, valuations.find? (contextualized x 0 cycle) = some v := by
  induction names generalizing r with
  | nil => exact fun _ hx => absurd hx List.not_mem_nil
  | cons y names ih =>
    unfold lowestValues at h
    split at h
    · cases h
    · rename_i v hv
      obtain ⟨r', hr', -⟩ := bind_eq_ok h
      intro x hx
      rcases List.mem_cons.mp hx with rfl | hx
      · exact ⟨v, hv⟩
      · exact ih hr' x hx

theorem lowestValues_find? (h : lowestValues valuations cycle names = .ok r) (x : String) :
    r.find? x = if x ∈ names then valuations.find? (contextualized x 0 cycle) else none := by
  induction names generalizing r with
  | nil =>
    cases h
    rfl
  | cons y names ih =>
    unfold lowestValues at h
    split at h
    · cases h
    · rename_i v hv
      obtain ⟨r', hr', h⟩ := bind_eq_ok h
      cases h
      rw [OrderedMap.find?_emplace]
      by_cases hxy : x = y
      · subst hxy
        rw [if_pos rfl, if_pos List.mem_cons_self, ih hr', hv]
        split_ifs <;> rfl
      · rw [if_neg hxy, ih hr']
        simp only [List.mem_cons, hxy, false_or]

theorem inputValues_total {cycles : List ℕ}
    (h : ∀ k ∈ cycles, ∃ r, lowestValues valuations k names = .ok r) :
    ∃ r, inputValues valuations names cycles = .ok r := by
  induction cycles with
  | nil => exact ⟨_, rfl⟩
  | cons k cycles ih =>
    obtain ⟨values, hvalues⟩ := h k List.mem_cons_self
    obtain ⟨r, hr⟩ := ih fun k' hk' => h k' (List.mem_cons_of_mem _ hk')
    unfold inputValues
    rw [hvalues, hr]
    exact ⟨_, rfl⟩

theorem inputValues_find? {cycles : List ℕ} {r : OrderedMap ℕ (OrderedMap String Value)}
    (h : inputValues valuations names cycles = .ok r) :
    (∀ k values, r.find? k = some values → lowestValues valuations k names = .ok values) ∧
      ∀ k ∈ cycles, ∃ values, r.find? k = some values := by
  induction cycles generalizing r with
  | nil =>
    cases h
    exact ⟨fun _ _ hk => absurd hk (Option.some_ne_none _).symm,
      fun _ hk => absurd hk List.not_mem_nil⟩
  | cons k cycles ih =>
    obtain ⟨values, hvalues, h⟩ := bind_eq_ok h
    obtain ⟨rest, hrest, h⟩ := bind_eq_ok h
    cases h
    obtain ⟨hback, hforth⟩ := ih hrest
    constructor
    · intro k' values' hk'
      rw [OrderedMap.find?_emplace] at hk'
      split_ifs at hk' with hkk
      · subst hkk
        cases hfind : rest.find? k' with
        | none =>
          rw [hfind] at hk'
          cases hk'
          exact hvalues
        | some values₀ =>
          rw [hfind] at hk'
          cases hk'
          exact hback k' values' hfind
      · exact hback k' values' hk'
    · intro k' hk'
      rw [OrderedMap.find?_emplace]
      split_ifs with hkk
      · subst hkk
        cases rest.find? k' with
        | none => exact ⟨values, rfl⟩
        | some values₀ => exact ⟨values₀, rfl⟩
      · exact hforth k' ((List.mem_cons.mp hk').resolve_left hkk)

theorem concreteValuations_spec
    (hnames : model.Pairwise fun i j => i.name ≠ j.name)
    (hfresh : ∀ i ∈ model, valuations.find? i.name = none) :
    ∃ r, concreteValuations model valuations = .ok r ∧
      (∀ i ∈ model, r.find? i.name = some (i.sort.value i.value)) ∧
      ∀ n, (∀ i ∈ model, i.name ≠ n) → r.find? n = valuations.find? n := by
  induction model generalizing valuations with
  | nil => exact ⟨_, rfl, fun _ h => absurd h List.not_mem_nil, fun _ _ => rfl⟩
  | cons i model ih =>
    obtain ⟨hi, hnames⟩ := List.pairwise_cons.mp hnames
    have hnone := hfresh i List.mem_cons_self
    obtain ⟨r, hr, hvalues, hothers⟩ := @ih (valuations.emplace i.name (i.sort.value i.value)) hnames
      fun j hj => (OrderedMap.find?_emplace_ne _ _ (hi j hj).symm).trans
        (hfresh j (List.mem_cons_of_mem _ hj))
    refine ⟨r, ?_, ?_, ?_⟩
    · unfold concreteValuations
      rw [hnone]
      exact hr
    · intro j hj
      rcases List.mem_cons.mp hj with rfl | hj
      · rw [hothers _ fun j' hj' => (hi j' hj').symm]
        exact OrderedMap.find?_emplace_self _ hnone
      · exact hvalues j hj
    · intro n hn
      rw [hothers n fun j hj => hn j (List.mem_cons_of_mem _ hj)]
      exact OrderedMap.find?_emplace_ne _ _ (hn i List.mem_cons_self).symm

end TestSuite

theorem SmtSort.exists_ne {s : SmtSort} (a : s.Carrier) : ∃ b : s.Carrier, b ≠ a := by
  cases s with
  | bool => exact ⟨Bool.not a, Bool.not_ne_self a⟩
  | int => exact ⟨Int.succ a, Int.ne_of_gt (Int.lt_succ a)⟩

theorem interprets_of_eq {ts : List (Term String .bool)} {s : SmtSort} {n : String}
    {u : Term String s} (hm : finder.find ts = some model) (hmem : .eq (.constant s n) u ∈ ts)
    (hu : u.occurrences = []) : ∃ i ∈ model, (i.sort, i.name) = (s, n) := by
  by_contra hnone
  have hnot : ∀ i ∈ model, (i.sort, i.name) ≠ (s, n) := fun i hi heq => hnone ⟨i, hi, heq⟩
  -- whatever value the constant is given, it is that of the term
  have hvalue : ∀ M : Model String, M s n = u.eval M := by
    intro M
    have hholds := finder.sound hm (model.orElse M)
      (PartialModel.extends_orElse M (finder.distinct hm)) _ hmem
    have heq := of_decide_eq_true (hholds : decide _ = true)
    rw [Term.eval, PartialModel.orElse_of_notMem M hnot] at heq
    rw [heq]
    apply Term.eval_congr
    intro q hq
    rw [hu] at hq
    cases hq
  let M : Model String := PartialModel.complete []
  obtain ⟨a, ha⟩ := SmtSort.exists_ne (u.eval M)
  let M' : Model String := PartialModel.orElse M [⟨s, n, a⟩]
  have hM' : M' s n = a := dif_pos ⟨rfl, rfl⟩
  apply ha
  rw [← hM', hvalue M']
  apply Term.eval_congr
  intro q hq
  rw [hu] at hq
  cases hq

namespace Context

theorem Invariant.defined (hc : c.Invariant p versions k) {u : Term String .bool}
    (hu : u ∈ c.expressions) {q : SmtSort × String} (hq : q ∈ u.occurrences) :
    ∃ t, c.definitions q.2 = some ⟨q.1, t⟩ := by
  rcases List.mem_append.mp hu with hu | hu
  · exact hc.closed u hu q hq
  · obtain ⟨⟨n, s, t⟩, hn, rfl⟩ := List.mem_map.mp hu
    have hdef : c.definitions n = some ⟨s, t⟩ := (OrderedMap.find?_eq_some_iff _ _ _).mpr hn
    rcases List.mem_cons.mp hq with rfl | hq
    · exact ⟨t, hdef⟩
    · exact hc.acyclic.closed n s t hdef q hq

theorem Invariant.interpreted (hc : c.Invariant p versions k)
    (hm : finder.find c.expressions = some model) {i : Interpretation String} (hi : i ∈ model) :
    ∃ t, c.definitions i.name = some ⟨i.sort, t⟩ := by
  obtain ⟨u, hu, hq⟩ := finder.occurs hm i hi
  exact hc.defined hu hq

theorem Invariant.names_ne (hc : c.Invariant p versions k)
    (hm : finder.find c.expressions = some model) :
    model.Pairwise fun i j => i.name ≠ j.name := by
  refine (finder.distinct hm).imp_of_mem fun {i j} hi hj hne hname => hne ?_
  obtain ⟨t, ht⟩ := hc.interpreted hm hi
  obtain ⟨u, hu⟩ := hc.interpreted hm hj
  rw [hname, hu] at ht
  exact Prod.ext (congrArg Sigma.fst (Option.some.inj ht)).symm hname

theorem Invariant.interpretation (hc : c.Invariant p versions k)
    (hm : finder.find c.expressions = some model) {M : Model String} (hM : model.Extends M)
    {i : Interpretation String} (hi : i ∈ model) {s : SmtSort} {u : Term String s}
    (hdef : c.definitions i.name = some ⟨s, u⟩) : i.sort.value i.value = s.value (M s i.name) := by
  obtain ⟨t, ht⟩ := hc.interpreted hm hi
  rw [hdef] at ht
  cases ht
  rw [← hM i hi]

end Context

theorem Program.Stack.getLast?_eq {frames : List Frame} (h : p.Stack frames) :
    frames.getLast? = some ⟨p.main, p.main.name, p.main.entryLabel⟩ := by
  induction h with
  | main => rfl
  | @call frame frames _ _ ih => rw [List.getLast?_cons, ih]; rfl

namespace TestSuite

theorem initialValuation_total (hp : p.WellSorted) {x : String} {v : Variable}
    (hx : (x, v) ∈ p.main.flattenedInterface.entries) (hinput : x ∉ p.wholeProgramInputs) :
    ∃ e, Engine.initialValuation p.wholeProgramInputs x v = .ok e ∧ e.2.occurrences = [] := by
  obtain ⟨s, hs, -⟩ := hp.sortOf_entry hx
  unfold Engine.initialValuation
  rw [if_neg hinput]
  cases v.initialization with
  | some value => cases value <;> exact ⟨_, rfl, rfl⟩
  | none =>
    unfold Engine.makeDefaultValue
    rw [hs]
    cases s <;> exact ⟨_, rfl, rfl⟩

/-- Where the model of a context interprets the inputs, the test case is complete, the program
starts with it as it starts on its inputs, and the context admits it. -/
theorem testCaseOf_spec (hp : p.WellSorted) (hc : c.Invariant p versions k) (ho : c.Opens p)
    (hstack : p.Stack c.callStack) (hm : finder.find c.expressions = some model)
    (hinterprets : InterpretsInputs p c.cycle model) :
    ∃ t M, testCaseOf finder c = .ok t ∧ t.Complete p c.cycle ∧
      p.startWith t = p.start t.inputs ∧ c.Admits p t.inputs M := by
  let M : Model String := model.orElse (PartialModel.complete [])
  have hextends : model.Extends M := PartialModel.extends_orElse _ (finder.distinct hm)
  obtain ⟨hrespects, hconstraint⟩ := Context.expressions_hold.mp (finder.sound hm M hextends)
  obtain ⟨valuations, hvaluations, hvalues, -⟩ := @concreteValuations_spec _ .empty
    (hc.names_ne hm) fun _ _ => rfl
  -- the values of the inputs are those of the model
  have hinput : ∀ k ≤ c.cycle, ∀ x ∈ p.wholeProgramInputs,
      ∃ v, valuations.find? (contextualized x 0 k) = some v := by
    intro k hk x hx
    obtain ⟨i, hi, hname⟩ := hinterprets k hk x hx
    exact ⟨_, hname ▸ hvalues i hi⟩
  -- the state variables have their initial values
  have hstate : ∀ x ∈ UnitCfg.stateVariables p.main, ∃ v,
      (x, v) ∈ p.main.flattenedInterface.entries ∧ x ∉ p.wholeProgramInputs ∧
        valuations.find? (contextualized x 0 0) =
          some (v.initialization.getD (Program.defaultValue v.dataType)) := by
    intro x hx
    obtain ⟨hkey, hnot⟩ := List.mem_filter.mp hx
    obtain ⟨⟨y, v⟩, hv, rfl⟩ := List.mem_map.mp hkey
    have hnot : y ∉ p.wholeProgramInputs := of_decide_eq_true hnot
    obtain ⟨⟨s, u⟩, he, hu⟩ := initialValuation_total hp hv hnot
    have hdef := ho.initial hv he
    have hmem : Term.eq (.constant s (contextualized y 0 0)) u ∈ c.expressions :=
      List.mem_append_right _
        (List.mem_map_of_mem (f := Executor.equation) ((OrderedMap.find?_eq_some_iff _ _ _).mp hdef))
    obtain ⟨i, hi, hin⟩ := interprets_of_eq hm hmem hu
    have hname : i.name = contextualized y 0 0 := congrArg Prod.snd hin
    have hvalue := hvalues i hi
    rw [hc.interpretation hm hextends hi (hname ▸ hdef), hname, hrespects _ _ _ hdef] at hvalue
    refine ⟨v, hv, hnot, hvalue.trans (congrArg some ?_)⟩
    exact Engine.valueOf_initialValuation M hnot he
  obtain ⟨initial, hinitial⟩ := @lowestValues_total _ 0
    (UnitCfg.stateVariables p.main) fun x hx => by
      obtain ⟨v, -, -, hv⟩ := hstate x hx
      exact ⟨_, hv⟩
  obtain ⟨inputs, hinputs⟩ := @inputValues_total valuations
    p.wholeProgramInputs (List.range (c.cycle + 1)) fun k hk =>
      lowestValues_total fun x hx => hinput k (Nat.lt_succ_iff.mp (List.mem_range.mp hk)) x hx
  have hcycles := (inputValues_find? hinputs).2
  have hinputValue : ∀ k ≤ c.cycle, ∃ values, inputs.find? k = some values ∧
      ∀ x ∈ p.wholeProgramInputs, values.find? x = valuations.find? (contextualized x 0 k) := by
    intro k hk
    obtain ⟨values, hfind⟩ := hcycles k (List.mem_range.mpr (Nat.lt_succ_iff.mpr hk))
    refine ⟨values, hfind, fun x hx => ?_⟩
    rw [lowestValues_find? ((inputValues_find? hinputs).1 k values hfind), if_pos hx]
  refine ⟨⟨initial, inputs⟩, M, ?_, ⟨?_, ?_⟩, ?_, ⟨hrespects, hconstraint, ?_⟩⟩
  · unfold testCaseOf Context.getMainFrame
    rw [hstack.getLast?_eq]
    dsimp only [bind, Except.bind]
    rw [hm]
    dsimp only
    rw [hvaluations]
    dsimp only
    rw [hinitial]
    dsimp only
    have hnames : UnitCfg.inputVariables p.main = p.wholeProgramInputs := rfl
    rw [hnames, hinputs]
  · intro x hx
    obtain ⟨v, -, -, hv⟩ := hstate x hx
    exact ⟨_, by rw [lowestValues_find? hinitial, if_pos hx, hv]⟩
  · intro k hk
    obtain ⟨values, hfind, hvalue⟩ := hinputValue k hk
    refine ⟨values, hfind, fun x hx => ?_⟩
    obtain ⟨v, hv⟩ := hinput k hk x hx
    exact ⟨v, (hvalue x hx).trans hv⟩
  · have hstore : (fun x => if x ∈ p.wholeProgramInputs then
        TestCase.inputs ⟨initial, inputs⟩ 0 x else (initial.find? x).getD (.int 0)) =
        p.initialStore (TestCase.inputs ⟨initial, inputs⟩) := by
      funext x
      unfold Program.initialStore
      split_ifs with hx
      · rfl
      · rw [lowestValues_find? hinitial]
        cases hentry : p.main.flattenedInterface.find? x with
        | none =>
          rw [if_neg]
          · rfl
          · intro hmem
            obtain ⟨v, hv, -⟩ := hstate x hmem
            rw [(OrderedMap.find?_eq_some_iff _ _ _).mpr hv] at hentry
            cases hentry
        | some v =>
          have hkey := (OrderedMap.find?_eq_some_iff _ _ _).mp hentry
          have hmem : x ∈ UnitCfg.stateVariables p.main :=
            List.mem_filter.mpr ⟨List.mem_map_of_mem (f := Prod.fst) hkey, decide_eq_true hx⟩
          obtain ⟨v', hv', -, hvalue⟩ := hstate x hmem
          rw [(OrderedMap.find?_eq_some_iff _ _ _).mpr hv'] at hentry
          cases hentry
          rw [if_pos hmem, hvalue]
          rfl
    unfold Program.startWith Program.start
    dsimp only
    rw [hstore]
  · intro k hk x hx s hs
    obtain ⟨i, hi, hname⟩ := hinterprets k hk x hx
    obtain ⟨values, hfind, hvalue⟩ := hinputValue k hk
    unfold TestCase.inputs
    rw [hfind]
    dsimp only
    rw [hvalue x hx, ← hname, hvalues i hi, Option.getD_some,
      hc.interpretation hm hextends hi (hname ▸ ho.inputs k hk x hx s hs)]

theorem interpretsInputs_of_testCaseOf (hc : c.Invariant p versions k) (hstack : p.Stack c.callStack)
    (hm : finder.find c.expressions = some model) (h : testCaseOf finder c = .ok t) :
    InterpretsInputs p c.cycle model := by
  obtain ⟨valuations, hvaluations, -, hothers⟩ := @concreteValuations_spec _ .empty
    (hc.names_ne hm) fun _ _ => rfl
  unfold testCaseOf Context.getMainFrame at h
  rw [hstack.getLast?_eq] at h
  dsimp only [bind, Except.bind] at h
  rw [hm] at h
  dsimp only at h
  rw [hvaluations] at h
  obtain ⟨initial, -, h⟩ := bind_eq_ok h
  obtain ⟨inputs, hinputs, -⟩ := bind_eq_ok h
  intro k hk x hx
  obtain ⟨values, hvalues⟩ := (inputValues_find? hinputs).2 k
    (List.mem_range.mpr (Nat.lt_succ_iff.mpr hk))
  obtain ⟨v, hv⟩ := exists_of_lowestValues ((inputValues_find? hinputs).1 k values hvalues) x hx
  by_contra hnone
  rw [hothers _ fun i hi hname => hnone ⟨i, hi, hname⟩] at hv
  cases hv

end TestSuite

namespace Coverage

variable {label succeedingLabel l : ℤ} {edges : List Edge} {taken : Bool}
  {statements : OrderedMap ℤ Bool} {branches branches' : OrderedMap ℤ (Bool × Bool)}
  {coverage coverage' : Coverage}

theorem coverEdges_covers (h : coverEdges label succeedingLabel edges branches = .ok branches')
    (hl : (⟨statements, branches'⟩ : Coverage).Covers l taken) :
    (⟨statements, branches⟩ : Coverage).Covers l taken ∨
      (l = label ∧ ∃ edge ∈ edges, edge.targetLabel = succeedingLabel ∧ edge.IsSide taken) := by
  induction edges generalizing branches with
  | nil =>
    cases h
    exact Or.inl hl
  | cons edge edges ih =>
    have hrest : ∀ {P : Prop}, P ∨ (l = label ∧ ∃ edge ∈ edges,
        edge.targetLabel = succeedingLabel ∧ edge.IsSide taken) →
        P ∨ (l = label ∧ ∃ edge' ∈ edge :: edges,
          edge'.targetLabel = succeedingLabel ∧ edge'.IsSide taken) := by
      intro P hor
      refine hor.imp id ?_
      rintro ⟨hlabel, edge', hmem, hedge'⟩
      exact ⟨hlabel, edge', List.mem_cons_of_mem _ hmem, hedge'⟩
    unfold coverEdges at h
    split at h
    · rename_i hcover
      obtain ⟨htarget, hside⟩ := hcover
      split at h
      · cases h
      · rename_i sides hsides
        rcases hrest (ih h) with ⟨sides', hfind, hset⟩ | hor
        · rw [OrderedMap.find?_assign] at hfind
          by_cases hlabel : l = label
          · rw [if_pos hlabel] at hfind
            cases hfind
            by_cases hnew : edge.IsSide taken
            · exact Or.inr ⟨hlabel, edge, List.mem_cons_self, htarget, hnew⟩
            · -- it is the other side that has been covered
              refine Or.inl ⟨sides, hlabel ▸ hsides, ?_⟩
              cases taken with
              | true =>
                have hfalse : ¬ edge.type = .trueBranch := hnew
                rw [if_pos rfl, if_neg hfalse] at hset
                exact hset
              | false =>
                rw [if_neg Bool.false_ne_true, if_pos (hside.resolve_right hnew)] at hset
                exact hset
          · rw [if_neg hlabel] at hfind
            exact Or.inl ⟨sides', hfind, hset⟩
        · exact Or.inr hor
    · exact hrest (ih h)

theorem update_covers {cfg : Cfg} {increased : Bool × Bool}
    (h : update cfg label succeedingLabel coverage = .ok (coverage', increased))
    (hnew : coverage'.Covers l taken) (hold : ¬ coverage.Covers l taken) :
    l = label ∧ ∃ edge ∈ cfg.getOutgoingEdges label,
      edge.targetLabel = succeedingLabel ∧ edge.IsSide taken := by
  unfold update at h
  split at h
  · cases h
  · obtain ⟨branches, hbranches, h⟩ := bind_eq_ok h
    cases h
    obtain ⟨statements, branches₀⟩ := coverage
    have hnew' : (⟨statements, branches⟩ : Coverage).Covers l taken := hnew
    exact (coverEdges_covers hbranches hnew').resolve_left hold

end Coverage

/-- The steps the coverage grows by when a context is executed, from a label to a label of the unit
of a frame, each with the context a test case is derived from. -/
inductive Covering (ex : Executor) (versions : Versions) (c : Context) :
    Frame → ℤ → ℤ → Context → Prop where
  | succeeding {versions' : Versions} {successors : Executor.Successors} {c' : Context}
      {frame : Frame} {frames : List Frame}
      (h : ex.execute versions c = .ok (versions', successors))
      (hc' : c' ∈ successors.contexts ++ successors.forked.toList)
      (hstack : c'.callStack = frame :: frames) :
      Covering ex versions c frame c.state.vertex.label c'.state.vertex.label c'
  | summarized {frame : Frame} {frames : List Frame} {called : Variable} {t₁ t₂ : ℤ}
      {typeName : String} {callee : UnitCfg} {returnEdge : Edge} {next : Vertex}
      {before after : List Summary} {summary : Summary} {versions₁ versions₂ : Versions}
      {cs : List Context} {c' : Context} {l l' : ℤ} (hstack : c.callStack = frame :: frames)
      (hinstruction : c.state.vertex.instruction = some (.callInstruction called t₁ t₂))
      (hdata : called.dataType = .derivedType typeName) (hcallee : ex.getCfg typeName = some callee)
      (hreturn : frame.cfg.getIntraproceduralCallToReturnEdge c.state.vertex.label = .ok returnEdge)
      (hnext : frame.cfg.getVertex returnEdge.targetLabel = .ok next)
      (hfind : ex.findApplicableSummaries
        (Executor.inside frame called callee returnEdge.targetLabel c) =
          .ok (before ++ summary :: after))
      (hbefore : Executor.applySummaries next c.callStack
        (Executor.inside frame called callee returnEdge.targetLabel c) before versions =
          .ok (versions₁, cs))
      (h : Executor.applySummary summary versions₁
        (Executor.inside frame called callee returnEdge.targetLabel c) = .ok (versions₂, c'))
      (hstep : (l, l') ∈ Testing.steps
        (before.foldl (fun l s => Testing.lastLabel l s.assumptionLiterals) c.state.vertex.label)
        summary.assumptionLiterals) :
      Covering ex versions c ⟨callee, frame.scope ++ "." ++ called.name, returnEdge.targetLabel⟩ l l'
        c'

/-- A complete test case is derived from the context, and it takes every branch that is covered for
the first time. -/
def Derives (p : Program) (finder : ModelFinder String) (scope : String)
    (coverage coverage' : Coverage) (c : Context) : Prop :=
  ∃ t, (∀ testCases, ∃ testCases', TestSuite.deriveTestCase finder testCases c = .ok testCases' ∧
      t ∈ testCases') ∧
    t.Complete p c.cycle ∧ ∀ label taken, coverage'.Covers label taken →
      ¬ coverage.Covers label taken → t.Takes p c.cycle ⟨scope, label, taken⟩

namespace Executor

/-- A side of a branch that leads to a succeeding context is the one it has taken. -/
theorem execute_takes {successors : Successors} {frame : Frame} {frames : List Frame} {edge : Edge}
    {taken : Bool} (hp : p.WellFormed) (hplaced : c.Placed p)
    (hkeeps : KeepsReplays p findApplicableSummaries c)
    (h : (Engine.executor p simplifier finder.solver findApplicableSummaries).execute versions c =
      .ok (versions', successors))
    (hc' : c' ∈ successors.contexts ++ successors.forked.toList)
    (hstack : c'.callStack = frame :: frames)
    (hedge : edge ∈ frame.cfg.getOutgoingEdges c.state.vertex.label)
    (htarget : edge.targetLabel = c'.state.vertex.label) (hside : edge.IsSide taken) :
    c'.cycle = c.cycle ∧ (∀ inputs M, c'.Admits p inputs M → c.Admits p inputs M) ∧
      ∀ inputs M conf, c'.Admits p inputs M → Follows p M c conf → ∃ conf' branches,
        p.Runs inputs conf conf' ∧ conf'.cycle = c.cycle ∧
        conf'.branches = conf.branches ++ branches ∧
        ⟨frame.scope, c.state.vertex.label, taken⟩ ∈ branches := by
  have hframe : p.Instance frame.scope frame.cfg :=
    Program.Stack.instance_of_head (hstack ▸ (execute_placed hplaced h c' hc').stack)
  obtain ⟨htype, ⟨e, t₁, t₂, hinstruction⟩, -, honly⟩ := hkeeps.sides hframe edge hedge taken hside
  obtain ⟨frame', frames', hstack', hexecutes⟩ := execute_cases h
  cases hexecutes with
  | branch _ hinstruction' hstep =>
    obtain ⟨l, hl⟩ := hplaced.atVertex frame' frames' hstack'
    have hframe' := (hstack' ▸ hplaced.stack).instance_of_head
    obtain ⟨hcycle, hcallStack, hadmits, taken', edge', hedge', hside', hnext, htakes⟩ :=
      visitIf_takes hstack' htype hinstruction' (hp.sorted hframe' hl hinstruction') hkeeps hstep hc'
    rw [hcallStack, hstack'] at hstack
    obtain ⟨rfl, rfl⟩ := List.cons.inj hstack
    have hlabel := (hkeeps.sides hframe' edge' hedge' taken' hside').2.2.1 _ hnext
    have hsame : taken' = taken := honly edge' hedge' taken' hside' (hlabel.symm.trans htarget.symm)
    subst hsame
    refine ⟨hcycle, hadmits, fun inputs M conf hM hf => ?_⟩
    obtain ⟨conf', hruns, hf', hbranches⟩ := htakes inputs M conf hM hf
    exact ⟨conf', _, hruns, hf'.cycle.trans hcycle, hbranches, List.mem_cons_self⟩
  | move hkind _ =>
    rcases hkind with hkind | ⟨-, hkind⟩
    · rw [htype] at hkind
      cases hkind
    · rw [hinstruction] at hkind
      cases hkind
  | assignment _ hinstruction' _ =>
    rw [hinstruction] at hinstruction'
    cases hinstruction'
  | call _ hinstruction' _ =>
    rw [hinstruction] at hinstruction'
    cases hinstruction'
  | programExit htype' _ =>
    rw [htype] at htype'
    cases htype'
  | functionBlockExit htype' _ =>
    rw [htype] at htype'
    cases htype'

end Executor

/-- Where every newly covered branch is one the context has taken since one that replays, the test
case of the context takes them. -/
theorem derives_iff {scope : String} {coverage coverage' : Coverage} (hp : p.WellSorted)
    (hc : c.Replays p) (hc' : c'.Invariant p versions k) (ho : c'.Opens p)
    (hstack : p.Stack c'.callStack) (hm : finder.find c'.expressions = some model)
    (htakes : ∀ label taken, coverage'.Covers label taken → ¬ coverage.Covers label taken →
      c'.cycle = c.cycle ∧ (∀ inputs M, c'.Admits p inputs M → c.Admits p inputs M) ∧
      ∀ inputs M conf, c'.Admits p inputs M → Follows p M c conf → ∃ conf' branches,
        p.Runs inputs conf conf' ∧ conf'.cycle = c.cycle ∧
        conf'.branches = conf.branches ++ branches ∧ ⟨scope, label, taken⟩ ∈ branches) :
    Derives p finder scope coverage coverage' c' ↔ InterpretsInputs p c'.cycle model := by
  constructor
  · rintro ⟨t, hderive, -⟩
    obtain ⟨testCases, hderive, -⟩ := hderive []
    obtain ⟨t', ht', -⟩ := bind_eq_ok hderive
    exact TestSuite.interpretsInputs_of_testCaseOf hc' hstack hm ht'
  · intro hinterprets
    obtain ⟨t, M, ht, hcomplete, hstart, hM⟩ :=
      TestSuite.testCaseOf_spec hp hc' ho hstack hm hinterprets
    refine ⟨t, fun testCases => ?_, hcomplete, fun label taken hnew hold => ?_⟩
    · unfold TestSuite.deriveTestCase
      rw [ht]
      refine ⟨_, rfl, ?_⟩
      split_ifs with hmem
      · exact hmem
      · exact List.mem_append_right _ List.mem_cons_self
    · obtain ⟨hcycle, hadmits, hruns⟩ := htakes label taken hnew hold
      obtain ⟨conf₀, conf, hconf₀, hruns₀, hf⟩ := hc t.inputs M (hadmits _ _ hM)
      obtain ⟨conf', branches, hruns', hcycle', hbranches, hmem⟩ := hruns _ _ _ hM hf
      exact ⟨conf₀, conf, conf', branches, hstart.trans hconf₀, hruns₀, hruns',
        hf.cycle.trans hcycle.symm, hcycle'.trans hcycle.symm, hbranches, hmem⟩

namespace Engine

/-- In the runs in which every context that is executed keeps standing for executions and no merge
renames a constraint, every context is feasible, and wherever the branch coverage grows a complete
test case that takes the newly covered branches is derived if and only if the model of the solver
interprets the inputs. -/
theorem ReachableUnder.derives {g : Engine} (hp : p.WellFormed)
    (hfits : p.FindsFitting findApplicableSummaries)
    (hg : ReachableUnder p simplifier finder.solver findApplicableSummaries
      (KeepsReplays p findApplicableSummaries) (Merger.KeepsConstraints simplifier) g) :
    (∀ c ∈ g.live, c.Feasible) ∧
    ∀ c ∈ g.explorer, KeepsReplays p findApplicableSummaries c → ∀ frame l l' c',
      Covering (executor p simplifier finder.solver findApplicableSummaries) g.versions c frame l l'
        c' → ∃ model, finder.find c'.expressions = some model ∧
      ∀ coverage coverage' statements,
        coverage.update frame.cfg.toCfg l l' = .ok (coverage', statements, true) →
        (Derives p finder frame.scope coverage coverage' c' ↔ InterpretsInputs p c'.cycle model) := by
  have hreplayed := hg.replayed hp hfits
  have hfind : ∀ {c : Context}, c.Feasible → ∃ model, finder.find c.expressions = some model := by
    rintro c ⟨M, hM⟩
    exact finder.exists_of_holds hM
  constructor
  · intro c hc
    rcases mem_live.mp hc with hc | hc
    · rcases List.mem_append.mp hc with hc | hc
      · exact (hreplayed.keeps.explorer c hc).1.feasible
      · exact (hreplayed.keeps.merger c hc).1.feasible
    · exact (hreplayed.keeps.succeeding c hc).1.feasible
  · intro c hc hkeeps frame l l' c' hcovering
    obtain ⟨hreplayable, hplaced⟩ := hreplayed.keeps.explorer c hc
    have hnone : g.succeedingCycle = none := by
      cases hs : g.succeedingCycle with
      | none => rfl
      | some x =>
        rw [(hreplayed.keeps.succeeding x hs).2.2.1] at hc
        cases hc
    cases hcovering with
    | @succeeding _ _ _ _ _ h hc' hstack =>
      obtain ⟨rest, rest', hexplorer⟩ := List.append_of_mem hc
      have hsuccessor : ∃ versions k, c'.Replayable p versions k := by
        rcases hreplayed.executed hp hfits hnone hexplorer hkeeps h with ⟨-, hcs⟩ | ⟨-, x, rfl, hx⟩
        · exact ⟨_, _, hcs c' hc'⟩
        · obtain rfl := List.mem_singleton.mp (by simpa using hc')
          exact ⟨_, _, hx⟩
      obtain ⟨versions, k, hc₁⟩ := hsuccessor
      obtain ⟨model, hm⟩ := hfind hc₁.feasible
      refine ⟨model, hm, fun coverage coverage' statements hupdate => ?_⟩
      refine derives_iff hp.toWellSorted hreplayable.replays hc₁.invariant hc₁.opens
        (Executor.execute_placed hplaced h c' hc').stack hm fun label taken hnew hold => ?_
      obtain ⟨rfl, edge, hedge, htarget, hside⟩ := Coverage.update_covers hupdate hnew hold
      exact Executor.execute_takes hp hplaced hkeeps h hc' hstack hedge htarget hside
    | @summarized caller frames called t₁ t₂ typeName callee returnEdge next before after summary
        versions₁ versions₂ cs _ _ _ hstack hinstruction hdata hcallee hreturn hnext hfound hbefore h
        hstep =>
      have hfit := hfits _ _ hfound
      have hmem : summary ∈ before ++ summary :: after :=
        List.mem_append_right _ List.mem_cons_self
      have hinside : (Executor.inside caller called callee returnEdge.targetLabel c).Invariant p
          g.versions g.cycle :=
        hreplayable.invariant.of_eq rfl rfl hreplayable.invariant.closed rfl
      have hle := (Executor.applySummaries_invariant
        (fun s hs => hfit s (List.mem_append_left _ hs)) hinside hbefore).1
      have hinvariant := (Executor.applySummary_invariant (hfit summary hmem) (hinside.mono hle) h).1
      have hsummarizes := (hkeeps.summaries hstack hinstruction hfound).1 before summary after rfl
      obtain ⟨hadmits, branches, hsteps, htakes⟩ := Executor.applySummary_takes (hfit summary hmem)
        (hreplayable.invariant.mono hle) hstack hreturn hnext hsummarizes h
      obtain ⟨r, hr⟩ := Executor.applySummary_spec (hfit summary hmem) h
      have hcycle : c'.cycle = c.cycle := hr.cycle
      have hframes : p.Stack c'.callStack := by
        have hcaller := hstack ▸ hplaced.stack
        obtain ⟨label, hlabel⟩ := hplaced.atVertex caller frames hstack
        rw [hr.callStack]
        refine .call (.called hcaller.instance_of_head hlabel hinstruction hdata hcallee) ?_
        exact hplaced.stack
      obtain ⟨I, M, hM, hsuits⟩ := hsummarizes.suits
      obtain ⟨M', hM'⟩ := hr.holds (hfit summary hmem) (hinside.mono hle)
        ⟨hM.reads, hM.pathConstraint⟩ hsuits
      obtain ⟨model, hm⟩ := hfind (Context.feasible_iff.mpr ⟨I, M', hM'⟩)
      refine ⟨model, hm, fun coverage coverage' statements hupdate => ?_⟩
      refine derives_iff hp.toWellSorted hreplayable.replays hinvariant
        (hreplayable.opens.of_extends hcycle hr.keep) hframes hm fun label taken hnew hold => ?_
      obtain ⟨rfl, edge, hedge, htarget, hside⟩ := Coverage.update_covers hupdate hnew hold
      have hbranch := hsteps _ hstep edge hedge htarget taken hside
      refine ⟨hcycle, hadmits, fun inputs M conf hM hf => ?_⟩
      obtain ⟨conf', hruns, hf', hbranches⟩ := htakes inputs M conf hM hf
      exact ⟨conf', branches, hruns, hf'.cycle.trans hcycle, hbranches, hbranch⟩

end Engine

namespace NestedBranch

theorem side_edges : ∀ edge ∈ main.edges, ∀ taken : Bool,
    (edge.type = if taken then .trueBranch else .falseBranch) →
      (edge.sourceLabel = 2 ∧ edge.targetLabel = if taken then 3 else 6) ∨
      (edge.sourceLabel = 3 ∧ edge.targetLabel = if taken then 4 else 5) := by decide

theorem keepsReplays {l : ℤ} (hc : main.labelToVertex.find? l = some c.state.vertex) :
    KeepsReplays program noSummaries c := by
  constructor
  · intro inputs M frame frames e _ _ he
    have hmem := find?_eq_some hc
    simp only [main, List.mem_cons, Prod.mk.injEq, List.not_mem_nil, or_false] at hmem
    rcases hmem with ⟨-, h⟩ | ⟨-, h⟩ | ⟨-, h⟩ | ⟨-, h⟩ | ⟨-, h⟩ | ⟨-, h⟩ | ⟨-, h⟩ <;>
      rw [h] at he <;> cases he <;> rfl
  · intro scope cfg hinstance edge hedge taken hside
    obtain rfl : cfg = main := by
      cases hinstance with
      | main => rfl
      | called _ _ _ _ hcallee => cases hcallee
    obtain ⟨hedge, hsource⟩ := List.mem_filter.mp hedge
    have hsource := of_decide_eq_true hsource
    have hbranch := side_edges edge hedge taken hside
    have hvertex : c.state.vertex.type = .regular ∧
        ∃ e t₁ t₂, c.state.vertex.instruction = some (.ifInstruction e t₁ t₂) := by
      have hmem := find?_eq_some hc
      simp only [main, List.mem_cons, Prod.mk.injEq, List.not_mem_nil, or_false] at hmem
      rcases hmem with ⟨-, h⟩ | ⟨-, h⟩ | ⟨-, h⟩ | ⟨-, h⟩ | ⟨-, h⟩ | ⟨-, h⟩ | ⟨-, h⟩ <;>
        rw [h] at hsource ⊢ <;> dsimp only at hsource
      case inr.inr.inl => exact ⟨rfl, _, _, _, rfl⟩
      case inr.inr.inr.inl => exact ⟨rfl, _, _, _, rfl⟩
      all_goals omega
    refine ⟨hvertex.1, hvertex.2, fun v hv => (wellFormed.labels hv).1, ?_⟩
    intro edge' hedge' taken' hside' htarget
    obtain ⟨hedge', hsource'⟩ := List.mem_filter.mp hedge'
    have hsource' := of_decide_eq_true hsource'
    have hbranch' := side_edges edge' hedge' taken' hside'
    cases taken <;> cases taken' <;>
      simp only [if_true, Bool.false_eq_true, if_false] at hbranch hbranch' ⊢ <;> omega
  · intro frame frames called t₁ t₂ callee returnLabel summaries _ _ hfind
    cases hfind
    refine ⟨fun before summary after h => ?_, fun h => absurd rfl h⟩
    exact absurd h (by simp)

def branching : Engine where
  versions := versionsOf 1 0
  explorer := [exploring 2 []]

theorem reachableUnder_branching {finder : ModelFinder String} :
    Engine.ReachableUnder program (.identity _) finder.solver noSummaries
      (KeepsReplays program noSummaries) (Merger.KeepsConstraints (.identity _)) branching := by
  have h₀ : (Engine.executor program (.identity _) finder.solver noSummaries).execute
      (versionsOf 0 0) (entered 0) = .ok (versionsOf 0 0, ⟨[entered 1], none⟩) := rfl
  have h₁ : (Engine.executor program (.identity _) finder.solver noSummaries).execute
      (versionsOf 0 0) (entered 1) = .ok (versionsOf 1 0, ⟨[exploring 2 []], none⟩) := rfl
  have hentry : Engine.initial program =
      .ok { versions := versionsOf 0 0, explorer := [] ++ entered 0 :: [] } := rfl
  have hk₀ : KeepsReplays program noSummaries (entered 0) := @keepsReplays _ 0 rfl
  have hk₁ : KeepsReplays program noSummaries (entered 1) := @keepsReplays _ 1 rfl
  have hfirst : Engine.ReachableUnder program (.identity _) finder.solver noSummaries
      (KeepsReplays program noSummaries) (Merger.KeepsConstraints (.identity _))
      { versions := versionsOf 0 0, explorer := [] ++ entered 1 :: [] } :=
    .explore (.initial hentry) rfl hk₀ h₀
  exact .explore hfirst rfl hk₁ h₁

def begun : Coverage where
  coveredStatements := ⟨[(0, true), (1, true), (2, false), (3, false), (4, false), (5, false),
    (6, false)], by decide⟩
  coveredBranches := ⟨[(2, false, false), (3, false, false)], by decide⟩

theorem covering_outer {finder : ModelFinder String} :
    Covering (Engine.executor program (.identity _) finder.solver noSummaries) branching.versions
      (exploring 2 []) ⟨main, "P", 0⟩ 2 3 (exploring 3 [taking]) :=
  .succeeding execute_outer List.mem_cons_self rfl

end NestedBranch

open NestedBranch in
/-- The model of the first context behind a branch leaves out the input that is not read yet, and no
test case is derived for the branch. -/
theorem exists_branch_without_test_case :
    ∃ (finder : ModelFinder String) (coverage' : Coverage),
      Engine.Reachable program (.identity _) finder.solver noSummaries branching ∧
      exploring 2 [] ∈ branching.explorer ∧
      Covering (Engine.executor program (.identity _) finder.solver noSummaries)
        branching.versions (exploring 2 []) ⟨main, "P", 0⟩ 2 3 (exploring 3 [taking]) ∧
      begun.update main.toCfg 2 3 = .ok (coverage', true, true) ∧
      ∀ testCases, ∃ e, TestSuite.deriveTestCase finder testCases (exploring 3 [taking]) = .error e := by
  have hreachable := (@reachableUnder_branching (ModelFinder.simplifying String)).reachable
  refine ⟨.simplifying String, _, hreachable, List.mem_cons_self, covering_outer, rfl, ?_⟩
  have hinvariant : (exploring 3 [taking]).Invariant program (versionsOf 1 0) 0 := by
    obtain ⟨g₀, hg₀, hrun⟩ := hreachable
    have hnext : Engine.Reachable program (.identity _) (ModelFinder.simplifying String).solver noSummaries
        { versions := versionsOf 1 0, explorer := [exploring 3 [taking]], merger := [skipping] } :=
      ⟨g₀, hg₀, hrun.tail (explore_first rfl execute_outer rfl)⟩
    exact ((hnext.invariant wellFormed noSummaries_fitting).explorer _ List.mem_cons_self).1
  obtain ⟨found, hm⟩ := @ModelFinder.exists_of_holds _ (.simplifying String)
    (exploring 3 [taking]).expressions (model ["P.x_1__0", "P.a_0__0"]) (by decide +kernel)
  have hunread : ∀ u ∈ (exploring 3 [taking]).expressions.filter (fun u => !ModelFinder.Reflexive u),
      ∀ q ∈ u.occurrences, q.2 ≠ "P.b_0__0" := by decide +kernel
  intro testCases
  unfold TestSuite.deriveTestCase
  cases h : TestSuite.testCaseOf (ModelFinder.simplifying String) (exploring 3 [taking]) with
  | error e => exact ⟨e, rfl⟩
  | ok t =>
    have hinput : "P.b" ∈ program.wholeProgramInputs := by decide
    obtain ⟨i, hi, hname⟩ := TestSuite.interpretsInputs_of_testCaseOf hinvariant .main hm h 0
      le_rfl "P.b" hinput
    obtain ⟨u, hu, hq⟩ := (ModelFinder.classical String).occurs hm i hi
    exact absurd hname (hunread u hu _ hq)

namespace LatchedInput

theorem keepsReplays {l : ℤ} (hc : main.labelToVertex.find? l = some c.state.vertex) :
    KeepsReplays program noSummaries c where
  additions := by
    intro inputs M frame frames e _ _ he
    rcases mem_main hc with ⟨-, h⟩ | ⟨-, h⟩ | ⟨-, h⟩ | ⟨-, h⟩ <;> rw [h] at he <;> cases he <;> rfl
  sides := by
    intro scope cfg hinstance edge hedge taken hside
    obtain ⟨-, rfl⟩ := eq_main hinstance
    have hsides : ∀ e ∈ main.edges, ∀ taken : Bool,
        (e.type = if taken then .trueBranch else .falseBranch) →
          e.sourceLabel = 1 ∧ e.targetLabel = if taken then 2 else 3 := by decide
    obtain ⟨hedge, hsource⟩ := List.mem_filter.mp hedge
    obtain ⟨hone, htarget⟩ := hsides edge hedge taken hside
    have hlabel : c.state.vertex.label = 1 := (of_decide_eq_true hsource).symm.trans hone
    refine ⟨?_, ?_, fun v hv => (wellFormed.labels hv).1, ?_⟩
    · rcases mem_main hc with ⟨-, h⟩ | ⟨-, h⟩ | ⟨-, h⟩ | ⟨-, h⟩ <;> rw [h] at hlabel ⊢ <;> cases hlabel
    · rcases mem_main hc with ⟨-, h⟩ | ⟨-, h⟩ | ⟨-, h⟩ | ⟨-, h⟩ <;> rw [h] at hlabel ⊢ <;> cases hlabel
      exact ⟨_, _, _, rfl⟩
    · intro edge' hedge' taken' hside' hsame
      obtain ⟨hedge', -⟩ := List.mem_filter.mp hedge'
      obtain ⟨-, htarget'⟩ := hsides edge' hedge' taken' hside'
      rw [htarget, htarget'] at hsame
      cases taken <;> cases taken' <;> first | rfl | cases hsame
  summaries _ _ hfind := by
    cases hfind
    exact ⟨fun before summary after h => by simp at h, fun h => absurd rfl h⟩

/-- The engine in front of the branch of the second cycle. -/
def rebranching : Engine := { cycle := 1, versions := versionsAt 0, explorer := [second 1] }

abbrev Runs (finder : ModelFinder String) (g : Engine) : Prop :=
  Engine.ReachableUnder program (.identity _) finder.solver noSummaries
    (KeepsReplays program noSummaries) (Merger.KeepsConstraints (.identity _)) g

theorem Runs.explores {finder : ModelFinder String} {g g' : Engine} {c c' : Context} {l : ℤ}
    {versions : Versions} (hg : Runs finder g) (h : g.explorer = [c])
    (hc : main.labelToVertex.find? l = some c.state.vertex)
    (hexecute : (Engine.executor program (.identity _) finder.solver noSummaries).execute g.versions
      c = .ok (versions, ⟨[c'], none⟩))
    (hg' : Engine.push program { g with versions := versions, explorer := [] } c' = g') :
    Runs finder g' := by
  subst hg'
  have hfront : g.explorer = [] ++ c :: [] := h
  exact .explore hg hfront (keepsReplays hc) hexecute

theorem Runs.merges {finder : ModelFinder String} {g : Engine} {c : Context} (hg : Runs finder g)
    (hexplorer : g.explorer = []) (hmerger : g.merger = [c])
    (hpoint : Merger.mergePointOf c = some (Engine.exitPoint program)) :
    Runs finder { g with explorer := [c], merger := [] } := by
  have hwaiting : g.waiting (Engine.exitPoint program) = [c] := by
    unfold Engine.waiting
    simp [hmerger, hpoint]
  have hrest : g.merger.filter (Merger.mergePointOf · ≠ some (Engine.exitPoint program)) = [] := by
    simp [hmerger, hpoint]
  have hfirst : ∀ y ∈ g.merger, ∀ point', Merger.mergePointOf y = some point' →
      Merger.before point' (Engine.exitPoint program) = false := by
    intro y hy point' hpoint'
    rw [hmerger] at hy
    rw [List.mem_singleton.mp hy, hpoint] at hpoint'
    cases hpoint'
    rfl
  have h : Runs finder { g with
      explorer := [c]
      merger := g.merger.filter (Merger.mergePointOf · ≠ some (Engine.exitPoint program)) } :=
    .merge hg hexplorer hwaiting hfirst trivial rfl
  rwa [hrest] at h

theorem runs_rebranching (finder : ModelFinder String) : Runs finder rebranching := by
  have h₀ : Runs finder { versions := versionsAt 0, explorer := [first 0] } := .initial rfl
  have h₁ : Runs finder { versions := versionsAt 0, explorer := [first 1] } :=
    @h₀.explores _ _ _ _ _ 0 _ rfl rfl rfl rfl
  have h₂ : Runs finder { versions := versionsAt 0, explorer := [taking] } :=
    @h₁.explores _ _ _ _ _ 1 _ rfl rfl (execute_first _) rfl
  have h₃ : Runs finder { versions := versionsAt 1, merger := [leaving] } :=
    @h₂.explores _ _ _ _ _ 2 _ rfl rfl rfl rfl
  have h₄ : Runs finder { versions := versionsAt 1, explorer := [leaving] } := h₃.merges rfl rfl rfl
  have h₅ : Runs finder { versions := versionsAt 0, succeedingCycle := some (second 0) } :=
    @h₄.explores _ _ _ _ _ 3 _ rfl rfl rfl rfl
  have h₆ : Runs finder { cycle := 1, versions := versionsAt 0, explorer := [second 0] } :=
    .nextCycle h₅ rfl rfl rfl
  exact @h₆.explores _ _ _ _ _ 0 _ rfl rfl rfl rfl

def covered : Coverage where
  coveredStatements := ⟨[(0, true), (1, true), (2, true), (3, true)], by decide⟩
  coveredBranches := ⟨[(1, true, false)], by decide⟩

end LatchedInput

open LatchedInput in
/-- With a finder whose models interpret every constant, the side of the branch that only the second
cycle takes gets its test case, with the inputs of both. -/
theorem branching_derives :
    ∃ coverage', covered.update main.toCfg 1 3 = .ok (coverage', false, true) ∧
      Derives program (.classical String) "P" covered coverage' skipping := by
  refine ⟨_, rfl, ?_⟩
  have hcovering : Covering (Engine.executor program (.identity _)
      (ModelFinder.classical String).solver noSummaries) rebranching.versions (second 1)
        ⟨main, "P", 0⟩ 1 3 skipping :=
    .succeeding (execute_second _) (List.mem_cons_of_mem _ List.mem_cons_self) rfl
  obtain ⟨found, hm, hiff⟩ := (Engine.ReachableUnder.derives wellFormed findsFitting
    (runs_rebranching (.classical String))).2 _ List.mem_cons_self (@keepsReplays _ 1 rfl) _ _ _ _
      hcovering
  refine (hiff _ _ _ rfl).mpr fun k hk y hy => ?_
  have hread : ∀ k ∈ [0, 1], ∀ y ∈ program.wholeProgramInputs, ∃ u ∈ skipping.expressions,
      (SmtSort.bool, contextualized y 0 k) ∈ u.occurrences := by decide +kernel
  have hcycles : k ∈ [0, 1] := by
    rcases Nat.le_one_iff_eq_zero_or_eq_one.mp hk with rfl | rfl <;> simp
  obtain ⟨u, hu, hq⟩ := hread k hcycles y hy
  exact ModelFinder.classical_interprets hm hu hq

end Ahorn.Etfa
