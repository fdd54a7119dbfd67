import Ahorn.ChangeAnnotations
import Ahorn.SimulatorEngine

set_option autoImplicit false

/-!
# Simulations of two versions

As long as no change expression is evaluated and nothing is assigned at random, the versions of a
program are simulated alike: the contexts stay the same, but for the values of the inputs between
the cycles, which are random until they are replaced.
-/
namespace Ahorn.Simulator

open Etfa (TestCase)
open ChangeAnnotationCollectionPass (containsChangeExpression)

/-- Valuations with the same names and, but for some of them, the same values. -/
structure SameExcept (P : String → Prop) (m m' : OrderedMap String Value) : Prop where
  isSome : ∀ name, (m'.find? name).isSome = (m.find? name).isSome
  same : ∀ name, ¬P name → m'.find? name = m.find? name

/-- Contexts at the same place with the same values, but for some names. -/
structure Alike (P : String → Prop) (c d : ValuedContext) : Prop where
  control : d.toContext = c.toContext
  valuations : SameExcept P c.concreteValuations d.concreteValuations

/-- The names of the inputs in a cycle. -/
def InputIn (inputs : List String) (cycle : ℕ) (name : String) : Prop :=
  ∃ x ∈ inputs, name = contextualizedName x cycle

section Alike

variable {P Q : String → Prop} {m m' : OrderedMap String Value} {c c' d : ValuedContext}
  {name : String} {value value' : Value}

theorem Alike.mono (h : Alike P c d) (hPQ : ∀ name, P name → Q name) : Alike Q c d :=
  ⟨h.control, h.valuations.isSome, fun name hname => h.valuations.same name fun hP =>
    hname (hPQ name hP)⟩

theorem SameExcept.assign (h : SameExcept P m m') :
    SameExcept (fun x => P x ∧ x ≠ name) (m.assign name value) (m'.assign name value) := by
  constructor
  · intro x
    rw [OrderedMap.find?_assign, OrderedMap.find?_assign]
    split_ifs
    · rfl
    · exact h.isSome x
  · intro x hx
    rw [OrderedMap.find?_assign, OrderedMap.find?_assign]
    split_ifs with hname
    · rfl
    · exact h.same x fun hP => hx ⟨hP, hname⟩

theorem find?_emplace_new {k : String} (hk : m.find? k = none) (x : String) :
    (m.emplace k value).find? x = if x = k then some value else m.find? x := by
  rw [OrderedMap.find?_emplace]
  split_ifs
  · rw [hk]
    rfl
  · rfl

theorem SameExcept.emplace (h : SameExcept P m m') (hname : m.find? name = none)
    (hname' : m'.find? name = none) (hP : value' = value ∨ P name) :
    SameExcept P (m.emplace name value) (m'.emplace name value') := by
  constructor
  · intro x
    rw [find?_emplace_new hname, find?_emplace_new hname']
    split_ifs
    · rfl
    · exact h.isSome x
  · intro x hx
    rw [find?_emplace_new hname, find?_emplace_new hname']
    split_ifs with heq
    · rcases hP with rfl | hP
      · rfl
      · rw [← heq] at hP
        exact absurd hP hx
    · exact h.same x hx

theorem Alike.get (h : Alike P c d) (hname : ¬P name) :
    d.getConcreteValuation name = c.getConcreteValuation name := by
  unfold ValuedContext.getConcreteValuation
  rw [h.valuations.same name hname]

theorem Alike.update (h : Alike P c d) (hc : c.updateConcreteValuation name value = .ok c') :
    ∃ d', d.updateConcreteValuation name value = .ok d' ∧
      Alike (fun x => P x ∧ x ≠ name) c' d' := by
  obtain ⟨hsome, rfl⟩ := update_cases hc
  have hd : ∃ v, d.concreteValuations.find? name = some v :=
    Option.isSome_iff_exists.mp ((h.valuations.isSome name).trans hsome)
  obtain ⟨v, hv⟩ := hd
  refine ⟨{ d with concreteValuations := d.concreteValuations.assign name value }, ?_, h.control,
    h.valuations.assign⟩
  unfold ValuedContext.updateConcreteValuation
  rw [hv]

theorem Alike.set (h : Alike P c d) (hc : c.setConcreteValuation name value = .ok c')
    (value' : Value) (hP : value' = value ∨ P name) :
    ∃ d', d.setConcreteValuation name value' = .ok d' ∧ Alike P c' d' := by
  obtain ⟨hnone, rfl⟩ := set_cases hc
  have hd : d.concreteValuations.find? name = none := by
    have hsome := h.valuations.isSome name
    rw [hnone] at hsome
    exact Option.isNone_iff_eq_none.mp (by simpa using hsome)
  refine ⟨{ d with concreteValuations := d.concreteValuations.emplace name value' }, ?_, h.control,
    h.valuations.emplace hnone hd hP⟩
  unfold ValuedContext.setConcreteValuation
  rw [hd]

theorem Alike.proceed {f : Context → Except String Context} (h : Alike P c d)
    (hc : c.proceed f = .ok c') : ∃ d', d.proceed f = .ok d' ∧ Alike P c' d' := by
  obtain ⟨hf, hvaluations, -⟩ := proceed_cases hc
  refine ⟨{ d with toContext := c'.toContext }, ?_, rfl, ?_⟩
  · unfold ValuedContext.proceed
    rw [h.control, hf]
    rfl
  · rw [hvaluations]
    exact h.valuations

end Alike

section Steps

variable {ex ex' : Executor} {P : String → Prop} {c c' d : ValuedContext}

theorem evaluate_unchanged {mode mode' : ShadowProcessingMode}
    {access access' : VariableReference → Except String Value} (haccess : ∀ r, access' r = access r)
    {e : Expression} (he : ChangeAnnotationCollectionPass.visit e = .ok false) :
    Evaluator.evaluate mode' access' e = Evaluator.evaluate mode access e := by
  induction e with
  | booleanConstant _ | integerConstant _ | timeConstant _ | enumeratedValue _
  | nondeterministicConstant _ | booleanToInteger _ | integerToBoolean _ => rfl
  | reference r => exact haccess r
  | unary op e ih =>
    unfold Evaluator.evaluate
    rw [ih he]
  | binary op l r ihl ihr =>
    obtain ⟨right, hright, he⟩ := bind_eq_ok he
    obtain ⟨left, hleft, he⟩ := bind_eq_ok he
    have hboth := Except.ok.inj he
    rw [Bool.or_eq_false_iff] at hboth
    obtain ⟨rfl, rfl⟩ := hboth
    unfold Evaluator.evaluate
    rw [ihl hleft, ihr hright]
  | change old new => cases he

theorem Alike.evaluate {mode mode' : ShadowProcessingMode} (h : Alike P c d)
    (hP : ∀ name, ¬P name) {e : Expression}
    (he : ChangeAnnotationCollectionPass.visit e = .ok false) :
    d.evaluate mode' e = c.evaluate mode e := by
  refine evaluate_unchanged (fun r => ?_) he
  have hname : d.nameOf r = c.nameOf r := by
    unfold ValuedContext.nameOf
    rw [h.control]
  rw [hname]
  exact h.get (hP _)

/-- The next cycle is prepared alike, but for its inputs. -/
theorem Alike.prepareCycle (hinputs : ex'.wholeProgramInputs = ex.wholeProgramInputs)
    {entries : List (String × Variable)}
    (h : Alike (InputIn ex.wholeProgramInputs (c.cycle + 1)) c d)
    (hc : ex.prepareCycle entries c = .ok c') :
    ∃ d', ex'.prepareCycle entries d = .ok d' ∧
      Alike (InputIn ex.wholeProgramInputs (c.cycle + 1)) c' d' := by
  induction entries generalizing c d with
  | nil =>
    cases hc
    exact ⟨d, rfl, h⟩
  | cons e entries ih =>
    have hcycle : d.cycle = c.cycle := congrArg Context.cycle h.control
    unfold Executor.prepareCycle at hc ⊢
    rw [hinputs, hcycle]
    by_cases hinput : e.1 ∈ ex.wholeProgramInputs
    · rw [if_pos hinput] at hc ⊢
      obtain ⟨⟨value, drawn⟩, hrandom, hc⟩ := bind_eq_ok hc
      obtain ⟨c₁, hset, hc⟩ := bind_eq_ok hc
      -- which values a type has does not depend on the numbers
      have hrandom' : ∃ value' drawn', makeRandomValue ex'.random d.drawn e.2.dataType =
          .ok (value', drawn') := by
        cases htype : e.2.dataType <;> rw [htype] at hrandom <;> cases hrandom <;>
          exact ⟨_, _, rfl⟩
      obtain ⟨value', drawn', hrandom'⟩ := hrandom'
      have hdrawn : Alike (InputIn ex.wholeProgramInputs (c.cycle + 1)) { c with drawn := drawn }
          { d with drawn := drawn' } := ⟨h.control, h.valuations⟩
      obtain ⟨d₁, hset', hd₁⟩ := hdrawn.set hset value' (Or.inr ⟨e.1, hinput, rfl⟩)
      have hcycle₁ : c₁.cycle = c.cycle := by
        rw [(set_cases hset).2]
      rw [hrandom']
      have hrest := @ih c₁ d₁ (by rwa [hcycle₁]) hc
      rw [hcycle₁] at hrest
      obtain ⟨d', hd', halike⟩ := hrest
      refine ⟨d', ?_, halike⟩
      dsimp only [bind, Except.bind]
      rw [hset']
      exact hd'
    · rw [if_neg hinput] at hc ⊢
      obtain ⟨value, hget, hc⟩ := bind_eq_ok hc
      obtain ⟨c₁, hset, hc⟩ := bind_eq_ok hc
      have hname : ¬InputIn ex.wholeProgramInputs (c.cycle + 1) (contextualizedName e.1 c.cycle) := by
        rintro ⟨x, -, heq⟩
        have hcycles := (contextualizedName_injective heq).2
        omega
      obtain ⟨d₁, hset', hd₁⟩ := h.set hset value (Or.inl rfl)
      have hcycle₁ : c₁.cycle = c.cycle := by
        rw [(set_cases hset).2]
      have hrest := @ih c₁ d₁ (by rwa [hcycle₁]) hc
      rw [hcycle₁] at hrest
      obtain ⟨d', hd', halike⟩ := hrest
      refine ⟨d', ?_, halike⟩
      rw [h.get hname, hget]
      dsimp only [bind, Except.bind]
      rw [hset']
      exact hd'

/-- The vertex at a label holds no instruction whose execution the versions or the random numbers
make a difference for. -/
def Harmless (main : CallTree UnitCfg) (l : ℤ) : Prop :=
  ∀ t v i, main.Reaches t → t.root.labelToVertex.find? l = some v → v.type = .regular →
    v.instruction = some i → containsChangeExpression i = .ok false ∧
      ∀ r, i ≠ .havocInstruction r

/-- A harmless vertex is executed alike; if the cycle ends there, the inputs of the next one may
differ. -/
theorem Alike.execute {main : CallTree UnitCfg}
    (hinputs : ex'.wholeProgramInputs = ex.wholeProgramInputs) (h : Alike P c d)
    (hP : ∀ name, ¬P name) (hunit : main.Reaches c.frame.unit) (hlabel : Harmless main c.label)
    (hc : ex.execute c = .ok c') :
    ∃ d', ex'.execute d = .ok d' ∧
      Alike (fun x => c'.cycle ≠ c.cycle ∧ InputIn ex.wholeProgramInputs c'.cycle x) c' d' := by
  obtain ⟨vertex, hvertex, hc⟩ := bind_eq_ok hc
  have hfind : c.frame.unit.root.labelToVertex.find? c.label = some vertex := by
    unfold Cfg.getVertex at hvertex
    cases hfind : c.frame.cfg.labelToVertex.find? c.label with
    | none =>
      rw [hfind] at hvertex
      cases hvertex
    | some v =>
      rw [hfind] at hvertex
      cases hvertex
      exact hfind
  have hexecute : ex'.execute d = ex'.handleVertex d vertex := by
    unfold Executor.execute
    rw [h.control, hvertex]
    rfl
  rw [hexecute]
  have hnothing : ∀ {Q : String → Prop} {c' d' : ValuedContext}, Alike (fun x => P x ∧ Q x) c' d' →
      Alike (fun x => c'.cycle ≠ c.cycle ∧ InputIn ex.wholeProgramInputs c'.cycle x) c' d' :=
    fun halike => halike.mono fun name hname => absurd hname.1 (hP name)
  have hproceed : ∀ {f : Context → Except String Context}, c.proceed f = .ok c' →
      ∃ d', d.proceed f = .ok d' ∧
        Alike (fun x => c'.cycle ≠ c.cycle ∧ InputIn ex.wholeProgramInputs c'.cycle x) c' d' := by
    intro f hf
    obtain ⟨d', hd', halike⟩ := h.proceed hf
    exact ⟨d', hd', halike.mono fun name hname => absurd hname (hP name)⟩
  unfold Executor.handleVertex at hc ⊢
  cases htype : vertex.type with
  | entry =>
    rw [htype] at hc
    exact hproceed hc
  | exit =>
    rw [htype] at hc
    dsimp only at hc ⊢
    unfold Executor.handleExitVertex at hc ⊢
    rw [h.control]
    cases hkind : c.frame.unit.root.type with
    | functionBlock | function =>
      rw [hkind] at hc
      exact hproceed hc
    | program =>
      rw [hkind] at hc
      obtain ⟨c₁, hprepare, hc⟩ := bind_eq_ok hc
      have hstart := h.mono (Q := InputIn ex.wholeProgramInputs (c.cycle + 1)) fun name hname =>
        absurd hname (hP name)
      obtain ⟨d₁, hprepare', hd₁⟩ := hstart.prepareCycle hinputs hprepare
      obtain ⟨d', hd', halike⟩ := hd₁.proceed hc
      have hcycle : c'.cycle = c.cycle + 1 := by
        have hexit := (proceed_cases hc).1
        rw [Executor.prepareCycle_control hprepare] at hexit
        unfold handleExitVertex at hexit
        rw [hkind] at hexit
        rw [moveTo_eq hexit]
      refine ⟨d', ?_, halike.mono fun name hname => ⟨by omega, by rwa [hcycle]⟩⟩
      dsimp only
      rw [hprepare']
      exact hd'
  | regular =>
    rw [htype] at hc
    cases hinstruction : vertex.instruction with
    | none =>
      rw [hinstruction] at hc
      cases hc
    | some i =>
      rw [hinstruction] at hc
      obtain ⟨hunchanged, hhavoc⟩ := hlabel _ _ _ hunit hfind htype hinstruction
      cases i with
      | assignmentInstruction type r e =>
        obtain ⟨value, hvalue, hc⟩ := bind_eq_ok hc
        obtain ⟨c₁, hupdate, hc⟩ := bind_eq_ok hc
        obtain ⟨d₁, hupdate', hd₁⟩ := h.update hupdate
        obtain ⟨d', hd', halike⟩ := hd₁.proceed hc
        have hname : d.nameOf r = c.nameOf r := by
          unfold ValuedContext.nameOf
          rw [h.control]
        refine ⟨d', ?_, hnothing halike⟩
        change ex'.visitAssignment r e d = _
        unfold Executor.visitAssignment
        rw [@Alike.evaluate _ _ _ ex.mode _ h hP _ hunchanged, hvalue, hname]
        dsimp only [bind, Except.bind]
        rw [hupdate']
        exact hd'
      | callInstruction called l₁ l₂ => exact hproceed hc
      | ifInstruction e l₁ l₂ =>
        obtain ⟨value, hvalue, hc⟩ := bind_eq_ok hc
        cases value with
        | int i => cases hc
        | bool condition =>
          obtain ⟨d', hd', halike⟩ := hproceed hc
          refine ⟨d', ?_, halike⟩
          change ex'.visitIf e d = _
          unfold Executor.visitIf
          rw [@Alike.evaluate _ _ _ ex.mode _ h hP _ hunchanged, hvalue]
          exact hd'
      | havocInstruction r => exact absurd rfl (hhavoc r)
      | whileInstruction e l₁ l₂ => cases hc
      | gotoInstruction l => cases hc

end Steps

section Histories

def flattenedLabels (history : History) : List ℤ :=
  history.entries.flatMap fun e => e.2.flatMap Stretch.labels

theorem mem_flattenedLabels {history : History} {l : ℤ} : l ∈ flattenedLabels history ↔
    ∃ cycle ss, history.find? cycle = some ss ∧ l ∈ ss.flatMap Stretch.labels := by
  unfold flattenedLabels
  rw [List.mem_flatMap]
  constructor
  · rintro ⟨e, he, hl⟩
    exact ⟨e.1, e.2, (history.find?_eq_some_iff e.1 e.2).mpr he, hl⟩
  · rintro ⟨cycle, ss, hfind, hl⟩
    exact ⟨(cycle, ss), (history.find?_eq_some_iff cycle ss).mp hfind, hl⟩

theorem mem_extend {c : Context} {ss : List Stretch} {l : ℤ} :
    l ∈ (extend c ss).flatMap Stretch.labels ↔ l = c.label ∨ l ∈ ss.flatMap Stretch.labels := by
  induction ss with
  | nil => simp [extend, Stretch.of]
  | cons s ss ih =>
    cases ss with
    | nil =>
      unfold extend
      split_ifs
      · simp [or_comm]
      · simp [Stretch.of, or_comm]
    | cons s' ss =>
      change l ∈ (s :: extend c (s' :: ss)).flatMap Stretch.labels ↔ _
      rw [List.flatMap_cons, List.mem_append, ih, List.flatMap_cons (x := s), List.mem_append]
      tauto

theorem mem_flattenedLabels_record {history : History} {c : Context} {l : ℤ} :
    l ∈ flattenedLabels (record history c) ↔ l = c.label ∨ l ∈ flattenedLabels history := by
  rw [mem_flattenedLabels, mem_flattenedLabels]
  constructor
  · rintro ⟨cycle, ss, hfind, hl⟩
    rw [find?_record] at hfind
    split_ifs at hfind with hcycle
    · cases hfind
      rw [mem_extend] at hl
      refine hl.imp_right fun hl => ?_
      cases hold : history.find? cycle with
      | none =>
        rw [hold] at hl
        cases hl
      | some ss =>
        rw [hold] at hl
        exact ⟨cycle, ss, hold, hl⟩
    · exact Or.inr ⟨cycle, ss, hfind, hl⟩
  · rintro (rfl | ⟨cycle, ss, hfind, hl⟩)
    · refine ⟨c.cycle, extend c ((history.find? c.cycle).getD []), ?_, mem_extend.mpr (Or.inl rfl)⟩
      rw [find?_record, if_pos rfl]
    · by_cases hcycle : cycle = c.cycle
      · refine ⟨cycle, extend c ss, ?_, mem_extend.mpr (Or.inr hl)⟩
        rw [find?_record, if_pos hcycle, hfind]
        rfl
      · refine ⟨cycle, ss, ?_, hl⟩
        rw [find?_record, if_neg hcycle, hfind]

end Histories

section Runs

/-- Simulations that have covered and recorded the same, in contexts that are alike. -/
structure AlikeRecorded (P : String → Prop) (s s' : RecordedSimulation) : Prop where
  context : Alike P s.context s'.context
  coverage : s'.coverage = s.coverage
  history : s'.history = s.history

namespace Engine

variable {g g' : Engine} {P : String → Prop} {s s₁ s' : RecordedSimulation}

theorem advanceRecording_cases (h : g.advanceRecording s = .ok s₁) :
    g.executor.execute s.context = .ok s₁.context ∧
      s₁.history = record s.history s.context.toContext := by
  obtain ⟨simulation, hadvance, h⟩ := bind_eq_ok h
  cases h
  obtain ⟨context, hcontext, hadvance⟩ := bind_eq_ok hadvance
  obtain ⟨covered, -, hadvance⟩ := bind_eq_ok hadvance
  cases hadvance
  exact ⟨hcontext, rfl⟩

theorem advanceRecording_alike (hmain : g'.main = g.main) (h : AlikeRecorded P s s')
    (hP : ∀ name, ¬P name) (hunit : g.main.Reaches s.context.frame.unit)
    (hlabel : Harmless g.main s.context.label) (hs : g.advanceRecording s = .ok s₁) :
    ∃ s₁', g'.advanceRecording s' = .ok s₁' ∧
      AlikeRecorded (fun x => s₁.context.cycle ≠ s.context.cycle ∧
        InputIn g.executor.wholeProgramInputs s₁.context.cycle x) s₁ s₁' := by
  obtain ⟨simulation, hadvance, hs⟩ := bind_eq_ok hs
  cases hs
  obtain ⟨context, hcontext, hadvance⟩ := bind_eq_ok hadvance
  obtain ⟨⟨coverage, increased⟩, hcovered, hadvance⟩ := bind_eq_ok hadvance
  cases hadvance
  have hinputs : g'.executor.wholeProgramInputs = g.executor.wholeProgramInputs := by
    unfold executor
    rw [hmain]
  obtain ⟨context', hcontext', halike⟩ := h.context.execute hinputs hP hunit hlabel hcontext
  refine ⟨⟨⟨context', coverage⟩, record s.history s.context.toContext⟩, ?_, halike, rfl, rfl⟩
  unfold advanceRecording advance
  rw [hcontext', h.coverage, h.context.control, h.history]
  dsimp only [bind, Except.bind]
  rw [halike.control, hcovered]

theorem stepRecording_cycle {fuel cycle : ℕ} (hcycle : s.context.cycle = cycle)
    (h : g.stepRecording fuel cycle s = .ok s₁) : s₁.context.cycle = cycle + 1 := by
  obtain ⟨visits, hvisits, -⟩ := Loop.exists_visits h
  have hend := hvisits.not_continues
  rw [decide_eq_false_iff_not] at hend
  have hnear := (hvisits.keeps (P := fun v => v.context.cycle = cycle ∨
    v.context.cycle = cycle + 1) (fun v v' hcontinues _ hstep => ?_) (Or.inl hcycle)).2
  · omega
  · rw [decide_eq_true_eq] at hcontinues
    obtain ⟨condition, hcontrol⟩ := Executor.execute_control (advanceRecording_cases hstep).1
    cases execute_moves hcontrol with
    | within _ _ hsame => omega
    | call _ hsame _ _ _ => omega
    | back hsame _ => omega

theorem stepRecording_placed {fuel cycle : ℕ} (hplaced : Placed g.main s.context.toContext)
    (h : g.stepRecording fuel cycle s = .ok s₁) : Placed g.main s₁.context.toContext := by
  obtain ⟨visits, hvisits, -⟩ := Loop.exists_visits h
  refine (hvisits.keeps (P := fun v => Placed g.main v.context.toContext)
    (fun v v' _ hv hstep => ?_) hplaced).2
  obtain ⟨condition, hcontrol⟩ := Executor.execute_control (advanceRecording_cases hstep).1
  exact hv.execute hcontrol

theorem stepRecording_history {fuel cycle : ℕ} (h : g.stepRecording fuel cycle s = .ok s₁) :
    flattenedLabels s.history ⊆ flattenedLabels s₁.history := by
  obtain ⟨visits, hvisits, -⟩ := Loop.exists_visits h
  refine (hvisits.keeps (P := fun v => flattenedLabels s.history ⊆ flattenedLabels v.history)
    (fun v v' _ hv hstep => ?_) (List.Subset.refl _)).2
  rw [(advanceRecording_cases hstep).2]
  exact fun l hl => mem_flattenedLabels_record.mpr (Or.inr (hv hl))

theorem stepRecording_alike {fuel cycle : ℕ} (hmain : g'.main = g.main)
    (h : AlikeRecorded P s s') (hP : ∀ name, ¬P name) (hplaced : Placed g.main s.context.toContext)
    (hs : g.stepRecording fuel cycle s = .ok s₁)
    (hlabels : ∀ l ∈ flattenedLabels s₁.history, Harmless g.main l) :
    ∃ s₁', g'.stepRecording fuel cycle s' = .ok s₁' ∧
      AlikeRecorded (InputIn g.executor.wholeProgramInputs s₁.context.cycle) s₁ s₁' := by
  obtain ⟨visits, hvisits, hlength⟩ := Loop.exists_visits hs
  have hcontinues := hvisits.of_mem
  obtain ⟨hplaceds, -⟩ := hvisits.keeps (P := fun v => Placed g.main v.context.toContext)
    (fun v v' _ hv hstep => by
      obtain ⟨condition, hcontrol⟩ := Executor.execute_control (advanceRecording_cases hstep).1
      exact hv.execute hcontrol) hplaced
  have hrecorded := hvisits.leads
    (Q := fun u v => u.context.label ∈ flattenedLabels v.history)
    (fun v v' _ hstep => by
      rw [(advanceRecording_cases hstep).2]
      exact mem_flattenedLabels_record.mpr (Or.inl rfl))
    (fun u v v' hu hstep => by
      rw [(advanceRecording_cases hstep).2]
      exact mem_flattenedLabels_record.mpr (Or.inr hu))
  let R : RecordedSimulation → RecordedSimulation → Prop := fun v w =>
    AlikeRecorded (fun x => v.context.cycle ≠ cycle ∧
      InputIn g.executor.wholeProgramInputs v.context.cycle x) v w
  have hcontrol : ∀ v w, R v w → decide (v.context.cycle = cycle) = decide (w.context.cycle = cycle) := by
    intro v w hvw
    rw [hvw.context.control]
  have hsteps : ∀ v ∈ visits, ∀ v' w, R v w → g.advanceRecording v = .ok v' →
      ∃ w', g'.advanceRecording w = .ok w' ∧ R v' w' := by
    intro v hv v' w hvw hstep
    have hcycle := of_decide_eq_true (hcontinues v hv)
    obtain ⟨w', hw', halike⟩ := advanceRecording_alike hmain hvw (fun _ hname => hname.1 hcycle)
      ((hplaceds v hv).reached _ List.mem_cons_self) (hlabels _ (hrecorded v hv)) hstep
    rw [hcycle] at halike
    exact ⟨w', hw', halike⟩
  have hstart : R s s' := ⟨h.context.mono fun name hname => absurd hname (hP name), h.coverage,
    h.history⟩
  obtain ⟨visits', s₁', hvisits', hall, hfinal⟩ := hvisits.simulates hcontrol hsteps hstart
  refine ⟨s₁', hvisits'.run_eq (hall.length_eq ▸ hlength), ?_, hfinal.coverage, hfinal.history⟩
  exact hfinal.context.mono fun name hname => hname.2

theorem updateInputs_alike {cycle : ℕ} {valuations : List (String × Value)} {c c₁ d : ValuedContext}
    (h : Alike P c d) (hc : updateInputs cycle valuations c = .ok c₁) :
    ∃ d₁, updateInputs cycle valuations d = .ok d₁ ∧
      Alike (fun x => P x ∧ ∀ e ∈ valuations, x ≠ contextualizedName e.1 cycle) c₁ d₁ ∧
      c₁.toContext = c.toContext := by
  induction valuations generalizing P c d with
  | nil =>
    cases hc
    exact ⟨d, rfl, h.mono fun name hname => ⟨hname, fun e he => absurd he List.not_mem_nil⟩, rfl⟩
  | cons e valuations ih =>
    obtain ⟨c₂, hupdate, hc⟩ := bind_eq_ok hc
    obtain ⟨d₂, hupdate', hd₂⟩ := h.update hupdate
    obtain ⟨d₁, hd₁, halike, hcontrol⟩ := ih hd₂ hc
    refine ⟨d₁, ?_, halike.mono fun name hname => ⟨hname.1.1,
      List.forall_mem_cons.mpr ⟨hname.1.2, hname.2⟩⟩, ?_⟩
    · unfold updateInputs
      rw [hupdate']
      exact hd₁
    · rw [hcontrol, (update_cases hupdate).2]

theorem stateValuations_alike {cycle : ℕ} {names : List String} {c d : ValuedContext}
    (h : Alike P c d) (hP : ∀ x ∈ names, ¬P (contextualizedName x cycle)) :
    stateValuations cycle d names = stateValuations cycle c names := by
  induction names with
  | nil => rfl
  | cons x names ih =>
    obtain ⟨hx, hnames⟩ := List.forall_mem_cons.mp hP
    unfold stateValuations
    rw [h.get hx, ih hnames]

/-- Recordings that agree in front of a cycle, but for the inputs of the cycle. -/
structure AlikeRecording (inputs : List String) (r r' : Recording) : Prop where
  cycle : r'.cycle = r.cycle
  simulation : AlikeRecorded (InputIn inputs r.cycle) r.simulation r'.simulation
  valuations : r'.cycleToConcreteStateValuations = r.cycleToConcreteStateValuations
  atCycle : r.simulation.context.cycle = r.cycle

/-- The inputs of a program have values in a cycle. -/
def Supplies (inputs : List String) (cycle : ℕ) (input : ℕ × OrderedMap String Value) : Prop :=
  input.1 = cycle ∧ ∀ x ∈ inputs, ∃ value, input.2.find? x = some value

variable {fuel : ℕ} {r r₁ r' : Recording}

theorem recordCycle_history {input : ℕ × OrderedMap String Value}
    (h : g.recordCycle fuel r input = .ok r₁) :
    flattenedLabels r.simulation.history ⊆ flattenedLabels r₁.simulation.history := by
  obtain ⟨context, -, h⟩ := bind_eq_ok h
  obtain ⟨simulation, hstep, h⟩ := bind_eq_ok h
  obtain ⟨valuations, -, h⟩ := bind_eq_ok h
  cases h
  have hsubset := stepRecording_history hstep
  exact hsubset

/-- A cycle of a test case whose labels are harmless is simulated alike. -/
theorem recordCycle_alike {input : ℕ × OrderedMap String Value} (hmain : g'.main = g.main)
    (h : AlikeRecording g.executor.wholeProgramInputs r r')
    (hplaced : Placed g.main r.simulation.context.toContext)
    (hsupplied : g.executor.wholeProgramInputs = [] ∨
      Supplies g.executor.wholeProgramInputs r.cycle input)
    (hr : g.recordCycle fuel r input = .ok r₁)
    (hlabels : ∀ l ∈ flattenedLabels r₁.simulation.history, Harmless g.main l) :
    Placed g.main r₁.simulation.context.toContext ∧ r₁.cycle = r.cycle + 1 ∧
      ∃ r₁', g'.recordCycle fuel r' input = .ok r₁' ∧
        AlikeRecording g.executor.wholeProgramInputs r₁ r₁' := by
  obtain ⟨context, hcontext, hr⟩ := bind_eq_ok hr
  obtain ⟨simulation, hstep, hr⟩ := bind_eq_ok hr
  obtain ⟨valuations, hvaluations, hr⟩ := bind_eq_ok hr
  cases hr
  obtain ⟨context', hcontext', halike, hcontrol⟩ :=
    updateInputs_alike h.simulation.context hcontext
  have hnone : ∀ name, ¬(InputIn g.executor.wholeProgramInputs r.cycle name ∧
      ∀ e ∈ input.2.entries, name ≠ contextualizedName e.1 input.1) := by
    rintro name ⟨⟨x, hx, rfl⟩, hne⟩
    rcases hsupplied with hnil | ⟨hkey, hvalues⟩
    · rw [hnil] at hx
      cases hx
    · obtain ⟨value, hvalue⟩ := hvalues x hx
      refine hne (x, value) ((input.2.find?_eq_some_iff x value).mp hvalue) ?_
      rw [hkey]
  have hplaced' : Placed g.main context.toContext := by
    rw [hcontrol]
    exact hplaced
  have hcycle : context.cycle = r.cycle := (congrArg Context.cycle hcontrol).trans h.atCycle
  have hstart : AlikeRecorded _ { r.simulation with context := context }
      { r'.simulation with context := context' } :=
    ⟨halike, h.simulation.coverage, h.simulation.history⟩
  obtain ⟨simulation', hstep', hsimulation⟩ :=
    stepRecording_alike hmain hstart hnone hplaced' hstep hlabels
  have hnext := stepRecording_cycle hcycle hstep
  have hstate : ∀ x ∈ g.stateVariables, ¬InputIn g.executor.wholeProgramInputs
      simulation.context.cycle (contextualizedName x input.1) := by
    rintro x hx ⟨y, hy, heq⟩
    rw [(contextualizedName_injective heq).1] at hx
    have hnot := (List.mem_filter.mp hx).2
    simp only [decide_eq_true_eq] at hnot
    exact hnot hy
  refine ⟨stepRecording_placed hplaced' hstep, rfl, ?_⟩
  refine ⟨⟨r.cycle + 1, simulation', r.cycleToConcreteStateValuations.emplace input.1 valuations⟩, ?_,
    rfl, ?_, rfl, hnext⟩
  · unfold recordCycle
    rw [hcontext', h.cycle, h.valuations]
    dsimp only [bind, Except.bind]
    have hstate' : g'.stateVariables = g.stateVariables := by
      unfold stateVariables
      rw [hmain]
    rw [hstep', hstate']
    dsimp only
    rw [stateValuations_alike hsimulation.context hstate, hvaluations]
  · rw [← hnext]
    exact hsimulation

end Engine

end Runs

end Ahorn.Simulator
