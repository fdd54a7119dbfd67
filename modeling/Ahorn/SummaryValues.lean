import Ahorn.NoMergeAgreement

set_option autoImplicit false

/-!
# The values of a summary

Before the assumptions of a summary are examined its hard constraints are evaluated in the order of
the names, beginning with the concrete values of the interface. Where every definition comes behind
the definitions it uses, no evaluation fails and all hard constraints hold afterwards.
-/
namespace Ahorn.EtfaNoMerge

open Etfa

namespace Summarizer

variable {p : Program} {c : Context} {frame : Frame} {summary : Summary}
variable {simplifier : Simplifier String}

/-- Every elementary variable of the interface is a flattened variable of the program, under a name
the engines can read back. -/
def Flattens (p : Program) (frame : Frame) : Prop :=
  ∀ v ∈ frame.cfg.interface, isDerived v = false →
    Plain (frame.scope ++ "." ++ v.name) ∧ ∃ s, p.sortOf (frame.scope ++ "." ++ v.name) = some s

/-- The constant is version 0 of an elementary variable of the interface. -/
def Known (p : Program) (frame : Frame) (k : SmtSort × String) : Prop :=
  ∃ v ∈ frame.cfg.interface, isDerived v = false ∧
    k.2 = versioned (frame.scope ++ "." ++ v.name) 0 ∧
    p.sortOf (frame.scope ++ "." ++ v.name) = some k.1

/-- In the order of the names every definition comes behind the definitions it uses; what else is
used is version 0 of the interface, which only itself may define. -/
structure InOrder (p : Program) (frame : Frame) (summary : Summary) : Prop where
  defined : ∀ n s t, summary.hardConstraints.find? n = some ⟨s, t⟩ → t = .constant s n ∨
    ∀ k ∈ t.occurrences, Known p frame k ∨
      ∃ t', summary.hardConstraints.find? k.2 = some ⟨k.1, t'⟩ ∧ k.2 < n
  assumed : ∀ t ∈ summary.assumptions, ∀ k ∈ t.occurrences, Known p frame k ∨
    ∃ t', summary.hardConstraints.find? k.2 = some ⟨k.1, t'⟩
  entry : ∀ f s t, summary.hardConstraints.find? (versioned f 0) = some ⟨s, t⟩ →
    Known p frame (s, versioned f 0) ∧ t = .constant s (versioned f 0)

def assign (M : Model String) (entry : String × SortedTerm String) : Model String :=
  PartialModel.update M ⟨entry.2.1, entry.1, entry.2.2.eval M⟩

/-- The hard constraints assigned one after the other. -/
def evaluated (M : Model String) (summary : Summary) : Model String :=
  summary.hardConstraints.entries.foldl assign M

def interpretationOf (n : String) : Value → Interpretation String
  | .bool b => ⟨.bool, n, b⟩
  | .int i => ⟨.int, n, i⟩

/-- The concrete values of the variables at version 0. -/
def entryValues (frame : Frame) (c : Context) : List Variable → Model String
  | [] => PartialModel.complete []
  | v :: rest =>
    if isDerived v then entryValues frame c rest
    else PartialModel.update (entryValues frame c rest)
      (interpretationOf (versioned (frame.scope ++ "." ++ v.name) 0)
        (c.values (frame.scope ++ "." ++ v.name)))

theorem assign_of_self (M : Model String) (s : SmtSort) (n : String) :
    assign M (n, ⟨s, .constant s n⟩) = M := by
  funext s' n'
  by_cases h : (s, n) = (s', n')
  · cases h
    exact PartialModel.update_self M ⟨s, n, M s n⟩
  · exact PartialModel.update_of_ne (i := ⟨s, n, M s n⟩) h

theorem assign_of_ne {M : Model String} {entry : String × SortedTerm String}
    {k : SmtSort × String} (h : (entry.2.1, entry.1) ≠ k) :
    assign M entry k.1 k.2 = M k.1 k.2 :=
  PartialModel.update_of_ne h

theorem foldl_assign_of_notMem {entries : List (String × SortedTerm String)} {M : Model String}
    {k : SmtSort × String}
    (h : ∀ e ∈ entries, e.2.2 = .constant e.2.1 e.1 ∨ (e.2.1, e.1) ≠ k) :
    entries.foldl assign M k.1 k.2 = M k.1 k.2 := by
  induction entries generalizing M with
  | nil => rfl
  | cons e entries ih =>
    obtain ⟨hhead, htail⟩ := List.forall_mem_cons.mp h
    rw [List.foldl_cons, ih htail]
    obtain ⟨n, s, t⟩ := e
    change t = .constant s n ∨ (s, n) ≠ k at hhead
    rcases hhead with rfl | hne
    · rw [assign_of_self]
    · exact assign_of_ne hne

theorem InOrder.self_or_ne (h : InOrder p frame summary) {k : SmtSort × String}
    (hk : Known p frame k) :
    ∀ e ∈ summary.hardConstraints.entries, e.2.2 = .constant e.2.1 e.1 ∨ (e.2.1, e.1) ≠ k := by
  rintro ⟨n, s, t⟩ he
  obtain ⟨v, -, -, hname, -⟩ := hk
  by_cases hn : n = k.2
  · left
    have hfind := (OrderedMap.find?_eq_some_iff _ _ _).mpr he
    rw [hn, hname] at hfind
    obtain ⟨-, ht⟩ := h.entry _ s t hfind
    rw [← hname, ← hn] at ht
    exact ht
  · right
    intro heq
    exact hn (congrArg Prod.snd heq)

theorem evaluated_known (h : InOrder p frame summary) {k : SmtSort × String}
    (hk : Known p frame k) (M : Model String) : evaluated M summary k.1 k.2 = M k.1 k.2 :=
  foldl_assign_of_notMem (h.self_or_ne hk)

theorem foldl_evaluated_known {summaries : List Summary}
    (h : ∀ s ∈ summaries, InOrder p frame s) {k : SmtSort × String} (hk : Known p frame k)
    (M : Model String) : summaries.foldl evaluated M k.1 k.2 = M k.1 k.2 := by
  induction summaries generalizing M with
  | nil => rfl
  | cons s summaries ih =>
    rw [List.forall_mem_cons] at h
    rw [List.foldl_cons, ih h.2, evaluated_known h.1 hk]

/-- Assigned in order, all hard constraints hold. -/
theorem evaluated_respects (h : InOrder p frame summary) (M : Model String) :
    Definitions.Respects summary.hardConstraints.find? (evaluated M summary) := by
  intro n s t hn
  rcases h.defined n s t hn with rfl | hoccurs
  · rfl
  · obtain ⟨left, right, hsplit⟩ :=
      List.append_of_mem ((OrderedMap.find?_eq_some_iff _ _ _).mp hn)
    have hsorted := summary.hardConstraints.sorted
    rw [hsplit] at hsorted
    have hbehind : ∀ e ∈ right, n < e.1 := fun e he =>
      List.rel_of_pairwise_cons (List.pairwise_append.mp hsorted).2.1 he
    have hmem : ∀ e ∈ (n, (⟨s, t⟩ : SortedTerm String)) :: right,
        e ∈ summary.hardConstraints.entries := fun e he =>
      hsplit ▸ List.mem_append_right left he
    have hvalue : evaluated M summary s n = t.eval (left.foldl assign M) := by
      unfold evaluated
      rw [hsplit, List.foldl_append, List.foldl_cons]
      refine (foldl_assign_of_notMem (k := (s, n)) fun e he => Or.inr fun heq => ?_).trans ?_
      · have hname : e.1 = n := congrArg Prod.snd heq
        exact (hbehind e he).ne hname.symm
      · exact PartialModel.update_self _ ⟨s, n, t.eval (left.foldl assign M)⟩
    rw [hvalue]
    apply Term.eval_congr
    intro k hk
    unfold evaluated
    rw [hsplit, List.foldl_append]
    refine (foldl_assign_of_notMem fun e he => ?_).symm
    rcases hoccurs k hk with hknown | ⟨t', -, hless⟩
    · exact h.self_or_ne hknown e (hmem e he)
    · right
      intro heq
      have hname : e.1 = k.2 := congrArg Prod.snd heq
      rcases List.mem_cons.mp he with rfl | he
      · exact hless.ne hname.symm
      · exact (hless.trans (hbehind e he)).ne hname.symm

theorem InOrder.interprets (h : InOrder p frame summary) {model : PartialModel String}
    {left right : List (String × SortedTerm String)} {n : String} {s : SmtSort}
    {t : Term String s} (hsplit : summary.hardConstraints.entries = left ++ (n, ⟨s, t⟩) :: right)
    (hknown : ∀ k, Known p frame k → model.Interprets k)
    (hleft : ∀ e ∈ left, model.Interprets (e.2.1, e.1)) :
    t = .constant s n ∨ ∀ k ∈ t.occurrences, model.Interprets k := by
  have hmem : (n, (⟨s, t⟩ : SortedTerm String)) ∈ summary.hardConstraints.entries := by
    rw [hsplit]
    exact List.mem_append_right _ List.mem_cons_self
  refine (h.defined n s t ((OrderedMap.find?_eq_some_iff _ _ _).mpr hmem)).imp id ?_
  intro hoccurs k hk
  rcases hoccurs k hk with hk | ⟨t', ht', hless⟩
  · exact hknown k hk
  · have hentry := (OrderedMap.find?_eq_some_iff _ _ _).mp ht'
    have hsorted := summary.hardConstraints.sorted
    rw [hsplit] at hentry hsorted
    rcases List.mem_append.mp hentry with hentry | hentry
    · exact hleft _ hentry
    · exfalso
      rcases List.mem_cons.mp hentry with heq | hentry
      · exact hless.ne (congrArg Prod.fst heq)
      · exact hless.asymm
          (List.rel_of_pairwise_cons (List.pairwise_append.mp hsorted).2.1 hentry)

/-- No evaluation fails, and the model gets the values of the definitions. -/
theorem evaluateHardConstraints_ok (hsimplifier : PartialModel.Reduces simplifier)
    (h : InOrder p frame summary) {left right : List (String × SortedTerm String)}
    {model : PartialModel String} (hsplit : summary.hardConstraints.entries = left ++ right)
    (hknown : ∀ k, Known p frame k → model.Interprets k)
    (hleft : ∀ e ∈ left, model.Interprets (e.2.1, e.1)) :
    ∃ model', evaluateHardConstraints simplifier right model = .ok model' ∧
      model'.complete = right.foldl assign model.complete ∧
      ∀ k, Known p frame k → model'.Interprets k := by
  induction right generalizing left model with
  | nil => exact ⟨model, rfl, rfl, hknown⟩
  | cons entry right ih =>
    obtain ⟨n, s, t⟩ := entry
    have hstep : ∀ v : s.Carrier, t.eval model.complete = v →
        ∃ model', evaluateHardConstraints simplifier right (model.interpret ⟨s, n, v⟩) =
            .ok model' ∧
          model'.complete = ((n, (⟨s, t⟩ : SortedTerm String)) :: right).foldl assign
            model.complete ∧ ∀ k, Known p frame k → model'.Interprets k := by
      rintro v rfl
      have hkeep : ∀ k, model.Interprets k →
          (model.interpret ⟨s, n, t.eval model.complete⟩).Interprets k := fun k hk =>
        PartialModel.interprets_interpret.mpr (Or.inr hk)
      have hsplit' : summary.hardConstraints.entries = (left ++ [(n, ⟨s, t⟩)]) ++ right := by
        rw [hsplit, List.append_assoc]
        rfl
      have hleft' : ∀ e ∈ left ++ [(n, (⟨s, t⟩ : SortedTerm String))],
          (model.interpret ⟨s, n, t.eval model.complete⟩).Interprets (e.2.1, e.1) := by
        intro e he
        rcases List.mem_append.mp he with he | he
        · exact hkeep _ (hleft e he)
        · rw [List.mem_singleton.mp he]
          exact PartialModel.interprets_interpret.mpr (Or.inl rfl)
      obtain ⟨model', hmodel', hcomplete, hknown'⟩ :=
        ih hsplit' (fun k hk => hkeep k (hknown k hk)) hleft'
      refine ⟨model', hmodel', ?_, hknown'⟩
      rw [hcomplete, PartialModel.complete_interpret]
      rfl
    unfold evaluateHardConstraints
    cases heval : model.eval? simplifier t with
    | some v => exact hstep v (PartialModel.eval?_complete heval)
    | none =>
      have hnone : ¬ ∀ k ∈ t.occurrences, model.Interprets k := by
        intro hall
        obtain ⟨v, hv⟩ := PartialModel.eval?_of_interprets hsimplifier hall
        rw [heval] at hv
        cases hv
      obtain rfl := (h.interprets hsplit hknown hleft).resolve_right hnone
      dsimp only
      rw [if_pos rfl]
      apply hstep
      refine PartialModel.orElse_of_notMem _ fun i hi hik => hnone fun k hk => ?_
      rw [List.mem_singleton.mp hk]
      exact ⟨i, hi, hik⟩

theorem current_value (hw : c.WellDefined p) (hc : c.Agrees) {f : String} {s : SmtSort}
    (hf : p.sortOf f = some s) : ∃ v, c.state.flattenedNameToVersion.find? f = some v ∧
      c.concreteValuations.find? (contextualized f v c.cycle) =
        some (s.value (c.concreteModel s (contextualized f v c.cycle))) ∧
      c.values f = s.value (c.concreteModel s (contextualized f v c.cycle)) := by
  obtain ⟨v, hv, t, ht⟩ := hw.current hf
  have hvalue := hc.valuations _ _ ht
  have hmodel : c.concreteModel s (contextualized f v c.cycle) = t.eval c.concreteModel :=
    modelOf_eq hvalue
  have hfind : c.concreteValuations.find? (contextualized f v c.cycle) =
      some (s.value (c.concreteModel s (contextualized f v c.cycle))) := by
    rw [hmodel]
    exact hvalue
  refine ⟨v, hv, hfind, ?_⟩
  unfold Context.values
  rw [hv]
  dsimp only
  rw [hfind, Option.getD_some]

theorem interpretationOf_value (n : String) {s : SmtSort} (x : s.Carrier) :
    interpretationOf n (s.value x) = ⟨s, n, x⟩ := by
  cases s <;> rfl

/-- The model begins with the concrete values of the interface. -/
theorem reversionedConcreteValuations_ok (hw : c.WellDefined p) (hc : c.Agrees)
    {vars : List Variable} (hvars : ∀ v ∈ vars, isDerived v = false →
      ∃ s, p.sortOf (frame.scope ++ "." ++ v.name) = some s) :
    ∃ model, reversionedConcreteValuations frame c vars = .ok model ∧
      model.complete = entryValues frame c vars ∧
      ∀ v ∈ vars, isDerived v = false → ∀ s, p.sortOf (frame.scope ++ "." ++ v.name) = some s →
        model.Interprets (s, versioned (frame.scope ++ "." ++ v.name) 0) := by
  induction vars with
  | nil => exact ⟨[], rfl, rfl, nofun⟩
  | cons v vars ih =>
    rw [List.forall_mem_cons] at hvars
    obtain ⟨model, hmodel, hcomplete, hinterprets⟩ := ih hvars.2
    by_cases hderived : isDerived v = true
    · refine ⟨model, ?_, ?_, ?_⟩
      · unfold reversionedConcreteValuations
        rw [if_pos hderived]
        exact hmodel
      · unfold entryValues
        rw [if_pos hderived]
        exact hcomplete
      · intro w hw' hnot
        rcases List.mem_cons.mp hw' with rfl | hw'
        · rw [hderived] at hnot
          cases hnot
        · exact hinterprets w hw' hnot
    · obtain ⟨s, hs⟩ := hvars.1 (Bool.eq_false_iff.mpr hderived)
      obtain ⟨version, hversion, hfind, hvalues⟩ := current_value hw hc hs
      generalize c.concreteModel s (contextualized _ version c.cycle) = x at hfind hvalues
      refine ⟨⟨s, versioned (frame.scope ++ "." ++ v.name) 0, x⟩ :: model, ?_, ?_, ?_⟩
      · unfold reversionedConcreteValuations
        rw [if_neg hderived]
        dsimp only [State.getVersion, Context.getConcreteValuation]
        rw [hversion]
        dsimp only [bind, Except.bind]
        rw [hfind]
        dsimp only
        rw [hmodel]
        cases s <;> rfl
      · unfold entryValues
        rw [if_neg hderived, ← hcomplete, hvalues, interpretationOf_value]
        rfl
      · intro w hw' hnot s' hs'
        rcases List.mem_cons.mp hw' with rfl | hw'
        · rw [hs] at hs'
          cases hs'
          exact ⟨_, List.mem_cons_self, rfl⟩
        · obtain ⟨i, hi, hik⟩ := hinterprets w hw' hnot s' hs'
          exact ⟨i, List.mem_cons_of_mem _ hi, hik⟩

/-- A known constant has the concrete value of its variable. -/
theorem entryValues_eq (hw : c.WellDefined p) (hc : c.Agrees) {vars : List Variable} {v : Variable}
    (hv : v ∈ vars) (hderived : isDerived v = false) {s : SmtSort} {version : ℕ}
    (hs : p.sortOf (frame.scope ++ "." ++ v.name) = some s)
    (hversion : c.state.flattenedNameToVersion.find? (frame.scope ++ "." ++ v.name) =
      some version) :
    entryValues frame c vars s (versioned (frame.scope ++ "." ++ v.name) 0) =
      c.concreteModel s (contextualized (frame.scope ++ "." ++ v.name) version c.cycle) := by
  obtain ⟨version', hversion', -, hvalues⟩ := current_value hw hc hs
  rw [hversion] at hversion'
  cases hversion'
  induction vars with
  | nil => exact absurd hv List.not_mem_nil
  | cons w vars ih =>
    unfold entryValues
    by_cases hname : isDerived w = false ∧ w.name = v.name
    · rw [if_neg (by simp [hname.1]), hname.2, hvalues, interpretationOf_value]
      exact PartialModel.update_self _ ⟨s, _, _⟩
    · have hrest : v ∈ vars := by
        refine (List.mem_cons.mp hv).resolve_left ?_
        rintro rfl
        exact hname ⟨hderived, rfl⟩
      split_ifs with hw'
      · exact ih hrest
      · refine (PartialModel.update_of_ne fun heq => hname ⟨Bool.eq_false_iff.mpr hw', ?_⟩).trans
          (ih hrest)
        have hnames : (interpretationOf (versioned (frame.scope ++ "." ++ w.name) 0)
            (c.values (frame.scope ++ "." ++ w.name))).name =
            versioned (frame.scope ++ "." ++ v.name) 0 := congrArg Prod.snd heq
        have hname' : versioned (frame.scope ++ "." ++ w.name) 0 =
            versioned (frame.scope ++ "." ++ v.name) 0 := by
          rw [← hnames]
          unfold interpretationOf
          split <;> rfl
        exact (String.append_right_inj _).mp (versioned_injective hname').1

end Summarizer

end Ahorn.EtfaNoMerge
