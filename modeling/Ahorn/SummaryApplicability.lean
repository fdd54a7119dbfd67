import Ahorn.SummaryValues

set_option autoImplicit false

/-!
# Concretely applicable summaries

At a call the summaries of the callee are tried one after the other, in one model for all of them.
Where the assumptions are not true under the concrete values, the solver is asked for other inputs.
-/
namespace Ahorn.EtfaNoMerge

open Etfa

namespace Summarizer

variable {p : Program} {c : Context} {frame : Frame} {frames : List Frame} {summary : Summary}
variable {simplifier : Simplifier String} {finder : ModelFinder String}

/-- The summary reads the values its variables have in the context. -/
def EntersWith (c : Context) (summary : Summary) (M N : Model String) : Prop :=
  ∀ k ∈ summary.occurrences, ∀ f v, k.2 = versioned f 0 →
    c.state.flattenedNameToVersion.find? f = some v →
    N k.1 k.2 = M k.1 (contextualized f v c.cycle)

/-- Some values of the symbolic valuations meet the assumptions under the hard constraints. -/
def Consistent (c : Context) (summary : Summary) : Prop :=
  ∃ M N : Model String, c.definitions.Respects M ∧ EntersWith c summary M N ∧
    Definitions.Respects summary.hardConstraints.find? N ∧ ∀ t ∈ summary.assumptions, t.Holds N

/-- So do values that satisfy the path constraint too. -/
def Feasible (c : Context) (summary : Summary) : Prop :=
  ∃ M N : Model String, (∀ t ∈ c.state.pathConstraint, t.Holds M) ∧ c.definitions.Respects M ∧
    EntersWith c summary M N ∧ Definitions.Respects summary.hardConstraints.find? N ∧
    ∀ t ∈ summary.assumptions, t.Holds N

theorem Feasible.consistent (h : Feasible c summary) : Consistent c summary := by
  obtain ⟨M, N, -, hM, hN, hhard, hassumptions⟩ := h
  exact ⟨M, N, hM, hN, hhard, hassumptions⟩

/-- The feasible summaries are returned, each with values for its hard constraints. -/
structure Decides (c : Context) (summaries : List Summary)
    (applicable : List (Summary × PartialModel String)) : Prop where
  sublist : (applicable.map Prod.fst).Sublist summaries
  mem_iff : ∀ s ∈ summaries, s ∈ applicable.map Prod.fst ↔ Feasible c s
  values : ∀ x ∈ applicable, ∀ n s t, x.1.hardConstraints.find? n = some ⟨s, t⟩ →
    x.2.complete s n = t.eval x.2.complete

/-- Behind the hard constraints of all summaries those hold whose assumptions were true. -/
def Keeps (summaries : List Summary) (M : Model String) : Prop :=
  ∀ left s right, summaries = left ++ s :: right →
    (∀ t ∈ s.assumptions, t.Holds (evaluated (left.foldl evaluated M) s)) →
    Definitions.Respects s.hardConstraints.find? (summaries.foldl evaluated M)

/-! ## The question to the solver -/

def literals (summary : Summary) : List (Term String .bool) :=
  (List.range summary.assumptions.length).map fun index =>
    Term.constant SmtSort.bool ("b" ++ toString index)

def question (c : Context) (reversioned : List (String × SortedTerm String)) (summary : Summary) :
    List (Term String .bool) :=
  (reversioned ++ c.state.symbolicValuations.entries).map Etfa.Executor.equation ++
    ((literals summary).zip summary.assumptions).map
      (fun x => Term.connective .implies x.1 x.2) ++
    summary.hardConstraints.entries.map Etfa.Executor.equation ++ literals summary

theorem isSymbolicallyApplicable_eq {reversioned : List (String × SortedTerm String)}
    (h : reversionedSymbolicValuations frame c frame.cfg.interface = .ok reversioned) :
    isSymbolicallyApplicable finder frame c summary =
      .ok (finder.find (question c reversioned summary)) := by
  unfold isSymbolicallyApplicable
  rw [h]
  rfl

theorem holds_equation (M : Model String) (n : String) (s : SmtSort) (t : Term String s) :
    (Etfa.Executor.equation (n, ⟨s, t⟩)).Holds M ↔ M s n = t.eval M := decide_eq_true_iff

theorem holds_equations {M : Model String} {m : OrderedMap String (SortedTerm String)} :
    (∀ t ∈ m.entries.map Etfa.Executor.equation, t.Holds M) ↔ Definitions.Respects m.find? M := by
  rw [List.forall_mem_map]
  constructor
  · intro h n s t hn
    exact (holds_equation M n s t).mp (h _ ((OrderedMap.find?_eq_some_iff _ _ _).mp hn))
  · rintro h ⟨n, s, t⟩ hn
    exact (holds_equation M n s t).mpr (h n s t ((OrderedMap.find?_eq_some_iff _ _ _).mpr hn))

theorem holds_implies {M : Model String} {a b : Term String .bool} (ha : a.Holds M) :
    (Term.connective .implies a b).Holds M ↔ b.Holds M := by
  change (!a.eval M || b.eval M) = true ↔ b.eval M = true
  rw [show a.eval M = true from ha]
  exact Iff.rfl

theorem holds_assumptions {M : Model String} (hliterals : ∀ t ∈ literals summary, t.Holds M) :
    (∀ t ∈ ((literals summary).zip summary.assumptions).map
      (fun x => Term.connective .implies x.1 x.2), t.Holds M) ↔
      ∀ t ∈ summary.assumptions, t.Holds M := by
  have hlength : (literals summary).length = summary.assumptions.length := by simp [literals]
  rw [List.forall_mem_map]
  constructor
  · intro h t ht
    rw [← List.map_snd_zip (Nat.le_of_eq hlength.symm)] at ht
    obtain ⟨x, hx, rfl⟩ := List.mem_map.mp ht
    exact (holds_implies (hliterals _ (List.of_mem_zip hx).1)).mp (h x hx)
  · intro h x hx
    exact (holds_implies (hliterals _ (List.of_mem_zip hx).1)).mpr (h _ (List.of_mem_zip hx).2)

theorem holds_question {reversioned : List (String × SortedTerm String)} {M : Model String} :
    (∀ t ∈ question c reversioned summary, t.Holds M) ↔
      ((∀ n s t, (n, (⟨s, t⟩ : SortedTerm String)) ∈ reversioned → M s n = t.eval M) ∧
        c.definitions.Respects M ∧ Definitions.Respects summary.hardConstraints.find? M ∧
        (∀ t ∈ summary.assumptions, t.Holds M)) ∧ ∀ t ∈ literals summary, t.Holds M := by
  unfold question
  rw [List.map_append]
  simp only [List.forall_mem_append, holds_equations]
  constructor
  · rintro ⟨⟨⟨⟨hreversioned, hdefinitions⟩, himplies⟩, hhard⟩, hliterals⟩
    refine ⟨⟨fun n s t hn => ?_, hdefinitions, hhard, (holds_assumptions hliterals).mp himplies⟩,
      hliterals⟩
    exact (holds_equation M n s t).mp (hreversioned _ (List.mem_map_of_mem hn))
  · rintro ⟨⟨hreversioned, hdefinitions, hhard, hassumptions⟩, hliterals⟩
    refine ⟨⟨⟨⟨?_, hdefinitions⟩, (holds_assumptions hliterals).mpr hassumptions⟩, hhard⟩,
      hliterals⟩
    rw [List.forall_mem_map]
    rintro ⟨n, s, t⟩ hn
    exact (holds_equation M n s t).mpr (hreversioned n s t hn)

theorem reversionedSymbolicValuations_ok (hw : c.WellDefined p) {vars : List Variable}
    (hvars : ∀ v ∈ vars, isDerived v = false →
      ∃ s, p.sortOf (frame.scope ++ "." ++ v.name) = some s) :
    ∃ reversioned, reversionedSymbolicValuations frame c vars = .ok reversioned ∧
      ∀ n e, (n, e) ∈ reversioned ↔ ∃ v ∈ vars, isDerived v = false ∧
        n = versioned (frame.scope ++ "." ++ v.name) 0 ∧ ∃ version,
          c.state.flattenedNameToVersion.find? (frame.scope ++ "." ++ v.name) = some version ∧
          c.definitions (contextualized (frame.scope ++ "." ++ v.name) version c.cycle) =
            some e := by
  induction vars with
  | nil => exact ⟨[], rfl, by simp⟩
  | cons v vars ih =>
    rw [List.forall_mem_cons] at hvars
    obtain ⟨reversioned, hreversioned, hmem⟩ := ih hvars.2
    by_cases hderived : isDerived v = true
    · refine ⟨reversioned, ?_, ?_⟩
      · unfold reversionedSymbolicValuations
        rw [if_pos hderived]
        exact hreversioned
      · intro n e
        rw [hmem, List.exists_mem_cons_iff, hderived]
        simp
    · obtain ⟨s, hs⟩ := hvars.1 (Bool.eq_false_iff.mpr hderived)
      obtain ⟨version, hversion, t, ht⟩ := hw.current hs
      refine ⟨(versioned (frame.scope ++ "." ++ v.name) 0, ⟨s, t⟩) :: reversioned, ?_, ?_⟩
      · unfold reversionedSymbolicValuations
        rw [if_neg hderived]
        dsimp only [State.getVersion, State.getSymbolicValuation]
        rw [hversion]
        dsimp only [bind, Except.bind]
        have ht' : c.state.symbolicValuations.find?
            (contextualized (frame.scope ++ "." ++ v.name) version c.cycle) = some ⟨s, t⟩ := ht
        rw [ht']
        dsimp only
        rw [hreversioned]
      · intro n e
        rw [List.mem_cons, hmem, List.exists_mem_cons_iff]
        refine or_congr ?_ Iff.rfl
        constructor
        · intro heq
          obtain ⟨rfl, rfl⟩ := Prod.mk.inj heq
          exact ⟨Bool.eq_false_iff.mpr hderived, rfl, version, hversion, ht⟩
        · rintro ⟨-, rfl, version', hversion', he⟩
          rw [hversion] at hversion'
          cases hversion'
          rw [ht] at he
          cases he
          rfl

theorem InOrder.known_of_occurs (h : InOrder p frame summary) {k : SmtSort × String}
    (hk : k ∈ summary.occurrences) {f : String} (hname : k.2 = versioned f 0) :
    Known p frame k := by
  have hkey : ∀ t', summary.hardConstraints.find? k.2 = some ⟨k.1, t'⟩ → Known p frame k := by
    intro t' ht'
    obtain ⟨s, n⟩ := k
    subst hname
    exact (h.entry f s t' ht').1
  rcases List.mem_append.mp hk with hk | hk
  · obtain ⟨⟨n, s, t⟩, he, hkt⟩ := List.mem_flatMap.mp hk
    have hfind := (OrderedMap.find?_eq_some_iff _ _ _).mpr he
    rcases h.defined n s t hfind with rfl | hoccurs
    · obtain rfl := List.mem_singleton.mp hkt
      exact hkey _ hfind
    · rcases hoccurs k hkt with hknown | ⟨t', ht', -⟩
      · exact hknown
      · exact hkey t' ht'
  · obtain ⟨t, ht, hkt⟩ := List.mem_flatMap.mp hk
    rcases h.assumed t ht k hkt with hknown | ⟨t', ht'⟩
    · exact hknown
    · exact hkey t' ht'

section Combination

open Classical

/-- Values for the names of the context and for those of a summary at once. -/
noncomputable def combined (c : Context) (M N : Model String) : Model String := fun s n =>
  if ∃ e, c.definitions n = some e then M s n
  else if h : ∃ f v, n = versioned f 0 ∧ c.state.flattenedNameToVersion.find? f = some v then
    M s (contextualized h.choose h.choose_spec.choose c.cycle)
  else if ∃ index : ℕ, n = "b" ++ toString index then
    match s with
    | .bool => true
    | .int => (0 : ℤ)
  else N s n

theorem not_defined {n : String} (h : c.definitions n = none) :
    ¬ ∃ e, c.definitions n = some e := by
  rintro ⟨e, he⟩
  rw [h] at he
  cases he

theorem combined_defined {M N : Model String} {n : String} {e : SortedTerm String} (s : SmtSort)
    (h : c.definitions n = some e) : combined c M N s n = M s n := if_pos ⟨e, h⟩

theorem combined_entry {M N : Model String} {f : String} {v : ℕ} (s : SmtSort)
    (hnone : c.definitions (versioned f 0) = none)
    (hv : c.state.flattenedNameToVersion.find? f = some v) :
    combined c M N s (versioned f 0) = M s (contextualized f v c.cycle) := by
  have h : ∃ g w, versioned f 0 = versioned g 0 ∧
      c.state.flattenedNameToVersion.find? g = some w := ⟨f, v, rfl, hv⟩
  unfold combined
  rw [if_neg (not_defined hnone), dif_pos h]
  have hunique : ∀ g w, versioned f 0 = versioned g 0 →
      c.state.flattenedNameToVersion.find? g = some w →
      M s (contextualized g w c.cycle) = M s (contextualized f v c.cycle) := by
    intro g w hname hw
    obtain ⟨rfl, -⟩ := versioned_injective hname
    rw [hv] at hw
    rw [Option.some.inj hw]
  exact hunique _ _ h.choose_spec.choose_spec.1 h.choose_spec.choose_spec.2

theorem combined_of_not_entry {M N : Model String} {n : String} (s : SmtSort)
    (hnone : c.definitions n = none) (hentry : ∀ f v, n = versioned f 0 →
      c.state.flattenedNameToVersion.find? f ≠ some v)
    (hliteral : ∀ index : ℕ, n ≠ "b" ++ toString index) : combined c M N s n = N s n := by
  unfold combined
  rw [if_neg (not_defined hnone), dif_neg, if_neg]
  · rintro ⟨index, hindex⟩
    exact hliteral index hindex
  · rintro ⟨f, v, hn, hv⟩
    exact hentry f v hn hv

theorem underscore_mem_versioned (f : String) (v : ℕ) : '_' ∈ (versioned f v).toList := by
  rw [toList_versioned]
  exact List.mem_append_right _ List.mem_cons_self

theorem literal_ne_versioned (index : ℕ) (f : String) (v : ℕ) :
    "b" ++ toString index ≠ versioned f v := by
  intro h
  have hmem := underscore_mem_versioned f v
  rw [← h, String.toList_append] at hmem
  rcases List.mem_append.mp hmem with hmem | hmem
  · exact absurd hmem (by decide)
  · exact underscore_notMem_toString index hmem

theorem combined_literal {M N : Model String} (index : ℕ)
    (hnone : c.definitions ("b" ++ toString index) = none) :
    combined c M N .bool ("b" ++ toString index) = true := by
  unfold combined
  rw [if_neg (not_defined hnone), dif_neg, if_pos ⟨index, rfl⟩]
  rintro ⟨f, v, hn, -⟩
  exact literal_ne_versioned index f 0 hn

end Combination

/-- The names of the context are versions in a cycle. -/
def Contextual (c : Context) : Prop :=
  ∀ n e, c.definitions n = some e → ∃ f v k, n = contextualized f v k

theorem Contextual.find?_versioned (h : Contextual c) {f : String} (hf : Plain f) (v : ℕ) :
    c.definitions (versioned f v) = none := by
  cases hn : c.definitions (versioned f v) with
  | none => rfl
  | some e =>
    obtain ⟨g, w, k, hname⟩ := h _ e hn
    exact absurd hname.symm (contextualized_ne_versioned hf w v k)

theorem Contextual.find?_literal (h : Contextual c) (index : ℕ) :
    c.definitions ("b" ++ toString index) = none := by
  cases hn : c.definitions ("b" ++ toString index) with
  | none => rfl
  | some e =>
    obtain ⟨g, w, k, hname⟩ := h _ e hn
    rw [contextualized_eq_versioned] at hname
    exact absurd hname (literal_ne_versioned _ _ _)

theorem combined_summary {M N : Model String} (hnames : Contextual c)
    (hN : EntersWith c summary M N) {k : SmtSort × String}
    (hname : ∃ f v, k.2 = versioned f v ∧ Plain f)
    (hk : k ∈ summary.occurrences ∨ ∀ f, k.2 ≠ versioned f 0) :
    combined c M N k.1 k.2 = N k.1 k.2 := by
  obtain ⟨f, v, hkf, hplain⟩ := hname
  have hnone : c.definitions k.2 = none := hkf ▸ hnames.find?_versioned hplain v
  by_cases hentry : ∃ g w, k.2 = versioned g 0 ∧ c.state.flattenedNameToVersion.find? g = some w
  · obtain ⟨g, w, hkg, hw⟩ := hentry
    have hoccurs := hk.resolve_right fun hnot => hnot g hkg
    rw [hN k hoccurs g w hkg hw]
    obtain ⟨s, n⟩ := k
    subst hkg
    exact combined_entry s hnone hw
  · refine combined_of_not_entry k.1 hnone (fun g w hkg hw => hentry ⟨g, w, hkg, hw⟩) ?_
    intro index hindex
    exact literal_ne_versioned index f v (hindex.symm.trans hkf)

/-- The current valuations of the interface at version 0. -/
def Reversions (c : Context) (frame : Frame) (reversioned : List (String × SortedTerm String)) :
    Prop :=
  ∀ n e, (n, e) ∈ reversioned ↔ ∃ v ∈ frame.cfg.interface, isDerived v = false ∧
    n = versioned (frame.scope ++ "." ++ v.name) 0 ∧ ∃ version,
      c.state.flattenedNameToVersion.find? (frame.scope ++ "." ++ v.name) = some version ∧
      c.definitions (contextualized (frame.scope ++ "." ++ v.name) version c.cycle) = some e

theorem entersWith_of_question {reversioned : List (String × SortedTerm String)}
    {M : Model String} (hw : c.WellDefined p) (horder : InOrder p frame summary)
    (hreversions : Reversions c frame reversioned) (hdefinitions : c.definitions.Respects M)
    (h : ∀ n s t, (n, (⟨s, t⟩ : SortedTerm String)) ∈ reversioned → M s n = t.eval M) :
    EntersWith c summary M M := by
  rintro ⟨s, n⟩ hk f v hname hv
  obtain ⟨x, hx, hderived, hn, hs⟩ := horder.known_of_occurs hk hname
  change n = versioned f 0 at hname
  change n = versioned _ 0 at hn
  obtain ⟨hf, -⟩ := versioned_injective (hname.symm.trans hn)
  rw [← hf] at hs
  obtain ⟨t, ht⟩ := hw.currentVersion hs hv
  change M s n = M s (contextualized f v c.cycle)
  rw [hdefinitions _ s t ht]
  apply h
  exact (hreversions n ⟨s, t⟩).mpr ⟨x, hx, hderived, hn, v, hf ▸ hv, hf ▸ ht⟩

/-- Values of the context and of the summary that fit together answer the question. -/
theorem combined_answers {reversioned : List (String × SortedTerm String)} {M N : Model String}
    (hw : c.WellDefined p) (hnames : Contextual c) (hflattens : Flattens p frame)
    (hfits : p.Fits summary) (horder : InOrder p frame summary)
    (hreversions : Reversions c frame reversioned) (hM : c.definitions.Respects M)
    (hN : EntersWith c summary M N)
    (hhard : Definitions.Respects summary.hardConstraints.find? N)
    (hassumptions : ∀ t ∈ summary.assumptions, t.Holds N) :
    ∀ t ∈ question c reversioned summary, t.Holds (combined c M N) := by
  have hread : ∀ k ∈ summary.occurrences, combined c M N k.1 k.2 = N k.1 k.2 := by
    intro k hk
    obtain ⟨f, v, hkf, hplain, -⟩ := hfits.read k hk
    exact combined_summary hnames hN ⟨f, v, hkf, hplain⟩ (Or.inl hk)
  have hcontext : ∀ {s : SmtSort} (t : Term String s), c.definitions.Closed t →
      t.eval (combined c M N) = t.eval M := by
    intro s t ht
    apply Term.eval_congr
    intro k hk
    obtain ⟨t', ht'⟩ := ht k hk
    exact combined_defined k.1 ht'
  rw [holds_question]
  refine ⟨⟨?_, ?_, ?_, ?_⟩, ?_⟩
  · intro n s t hn
    obtain ⟨v, hv, hderived, rfl, version, hversion, ht⟩ := (hreversions n ⟨s, t⟩).mp hn
    obtain ⟨hplain, -⟩ := hflattens v hv hderived
    rw [combined_entry s (hnames.find?_versioned hplain 0) hversion, hM _ s t ht,
      hcontext t (hw.acyclic.closed _ s t ht)]
  · intro n s t hn
    rw [combined_defined s hn, hM n s t hn, hcontext t (hw.acyclic.closed n s t hn)]
  · intro n s t hn
    have hmem : ∀ k ∈ t.occurrences, k ∈ summary.occurrences := fun k hk =>
      List.mem_append_left _
        (List.mem_flatMap.mpr ⟨_, (OrderedMap.find?_eq_some_iff _ _ _).mp hn, hk⟩)
    have hkey : combined c M N s n = N s n := by
      obtain ⟨f, v, hf, hplain, -⟩ := hfits.written hn
      refine combined_summary (k := (s, n)) hnames hN ⟨f, v, hf, hplain⟩ ?_
      by_cases hentry : ∃ g, n = versioned g 0
      · obtain ⟨g, rfl⟩ := hentry
        obtain ⟨-, rfl⟩ := horder.entry g s t hn
        exact Or.inl (hmem _ (List.mem_singleton_self _))
      · exact Or.inr (not_exists.mp hentry)
    rw [hkey, hhard n s t hn]
    exact (Term.eval_congr t fun k hk => hread k (hmem k hk)).symm
  · intro t ht
    have hvalue : t.eval (combined c M N) = t.eval N := Term.eval_congr t fun k hk =>
      hread k (List.mem_append_right _ (List.mem_flatMap.mpr ⟨t, ht, hk⟩))
    exact hvalue.trans (hassumptions t ht)
  · intro t ht
    obtain ⟨index, -, rfl⟩ := List.mem_map.mp ht
    exact combined_literal index (hnames.find?_literal index)

theorem exists_find_iff {reversioned : List (String × SortedTerm String)}
    (finder : ModelFinder String) (hw : c.WellDefined p) (hnames : Contextual c)
    (hflattens : Flattens p frame) (hfits : p.Fits summary) (horder : InOrder p frame summary)
    (hreversions : Reversions c frame reversioned) :
    (∃ own, finder.find (question c reversioned summary) = some own) ↔ Consistent c summary := by
  constructor
  · rintro ⟨own, hown⟩
    have hholds := finder.sound hown (own.orElse own.complete)
      (PartialModel.extends_orElse _ (finder.distinct hown))
    obtain ⟨⟨hreversioned, hdefinitions, hhard, hassumptions⟩, -⟩ := holds_question.mp hholds
    exact ⟨_, _, hdefinitions,
      entersWith_of_question hw horder hreversions hdefinitions hreversioned, hhard, hassumptions⟩
  · rintro ⟨M, N, hM, hN, hhard, hassumptions⟩
    exact finder.exists_of_holds
      (combined_answers hw hnames hflattens hfits horder hreversions hM hN hhard hassumptions)

theorem find_respects {reversioned : List (String × SortedTerm String)} {own : PartialModel String}
    (hown : finder.find (question c reversioned summary) = some own) :
    Definitions.Respects summary.hardConstraints.find? own.complete := by
  have hholds := finder.sound hown own.complete
    (PartialModel.extends_orElse _ (finder.distinct hown))
  obtain ⟨⟨-, -, hhard, -⟩, -⟩ := holds_question.mp hholds
  exact hhard

/-! ## The summaries one after the other -/

/-- The applicable summaries, those of the concrete valuations without a model of their own. -/
def answers (finder : ModelFinder String) (c : Context)
    (reversioned : List (String × SortedTerm String)) :
    List Summary → Model String → List (Summary × Option (PartialModel String))
  | [], _ => []
  | s :: summaries, M =>
    let rest := answers finder c reversioned summaries (evaluated M s)
    if s.assumptions.all fun t => t.eval (evaluated M s) then (s, none) :: rest
    else
      match finder.find (question c reversioned s) with
      | some own => (s, some own) :: rest
      | none => rest

theorem checkSummaries_ok (finder : ModelFinder String)
    {reversioned : List (String × SortedTerm String)} (hsimplifier : PartialModel.Reduces simplifier)
    (hreversioned : reversionedSymbolicValuations frame c frame.cfg.interface = .ok reversioned)
    {summaries : List Summary} (horder : ∀ s ∈ summaries, InOrder p frame s)
    {model : PartialModel String} (hknown : ∀ k, Known p frame k → model.Interprets k) :
    ∃ last, checkSummaries simplifier finder frame c summaries model =
        .ok (answers finder c reversioned summaries model.complete, last) ∧
      last.complete = summaries.foldl evaluated model.complete := by
  induction summaries generalizing model with
  | nil => exact ⟨model, rfl, rfl⟩
  | cons s summaries ih =>
    rw [List.forall_mem_cons] at horder
    obtain ⟨model', hmodel', hcomplete, hknown'⟩ := evaluateHardConstraints_ok hsimplifier
      horder.1 (List.nil_append _).symm hknown (fun e he => absurd he List.not_mem_nil)
    obtain ⟨last, hlast, hfinal⟩ := ih horder.2 hknown'
    have hvalues : model'.complete = evaluated model.complete s := hcomplete
    rw [hvalues] at hlast hfinal
    refine ⟨last, ?_, hfinal⟩
    unfold checkSummaries answers
    rw [hmodel']
    dsimp only [bind, Except.bind]
    rw [hvalues]
    split_ifs
    · rw [hlast]
    · rw [isSymbolicallyApplicable_eq hreversioned]
      dsimp only
      rw [hlast]
      cases finder.find (question c reversioned s) <;> rfl

/-- How a summary comes to be applicable under the values that its hard constraints were given. -/
def Answered (finder : ModelFinder String) (c : Context)
    (reversioned : List (String × SortedTerm String)) (M : Model String)
    (x : Summary × Option (PartialModel String)) : Prop :=
  (∀ t ∈ x.1.assumptions, t.Holds M) ∧ x.2 = none ∨
    (¬ ∀ t ∈ x.1.assumptions, t.Holds M) ∧
      ∃ own, x.2 = some own ∧ finder.find (question c reversioned x.1) = some own

theorem mem_answers_cons {reversioned : List (String × SortedTerm String)} {s : Summary}
    {summaries : List Summary} {M : Model String} {x : Summary × Option (PartialModel String)} :
    x ∈ answers finder c reversioned (s :: summaries) M ↔
      (x.1 = s ∧ Answered finder c reversioned (evaluated M s) x) ∨
        x ∈ answers finder c reversioned summaries (evaluated M s) := by
  obtain ⟨s', own⟩ := x
  have hall : (s.assumptions.all fun t => t.eval (evaluated M s)) = true ↔
      ∀ t ∈ s.assumptions, t.Holds (evaluated M s) := List.all_eq_true
  rw [answers]
  dsimp only
  split_ifs with happlies
  · rw [hall] at happlies
    rw [List.mem_cons]
    refine or_congr ?_ Iff.rfl
    constructor
    · rintro heq
      cases heq
      exact ⟨rfl, Or.inl ⟨happlies, rfl⟩⟩
    · rintro ⟨rfl, ⟨-, rfl⟩ | ⟨hnot, -⟩⟩
      · rfl
      · exact absurd happlies hnot
  · rw [hall] at happlies
    cases hfind : finder.find (question c reversioned s) with
    | none =>
      dsimp only
      refine ⟨Or.inr, fun h => h.resolve_left ?_⟩
      rintro ⟨rfl, ⟨hholds, -⟩ | ⟨-, own', -, hown'⟩⟩
      · exact happlies hholds
      · rw [hfind] at hown'
        cases hown'
    | some own' =>
      dsimp only
      rw [List.mem_cons]
      refine or_congr ?_ Iff.rfl
      constructor
      · intro heq
        cases heq
        exact ⟨rfl, Or.inr ⟨happlies, own', rfl, hfind⟩⟩
      · rintro ⟨rfl, ⟨hholds, -⟩ | ⟨-, own'', rfl, hown''⟩⟩
        · exact absurd hholds happlies
        · rw [hfind] at hown''
          cases hown''
          rfl

theorem mem_answers {reversioned : List (String × SortedTerm String)} {summaries : List Summary}
    {M : Model String} {x : Summary × Option (PartialModel String)} :
    x ∈ answers finder c reversioned summaries M ↔
      ∃ left right, summaries = left ++ x.1 :: right ∧
        Answered finder c reversioned (evaluated (left.foldl evaluated M) x.1) x := by
  induction summaries generalizing M with
  | nil =>
    refine iff_of_false List.not_mem_nil ?_
    rintro ⟨left, right, h, -⟩
    exact List.append_ne_nil_of_right_ne_nil left (List.cons_ne_nil _ _) h.symm
  | cons s summaries ih =>
    rw [mem_answers_cons, ih]
    constructor
    · rintro (⟨rfl, hanswered⟩ | ⟨left, right, rfl, hanswered⟩)
      · exact ⟨[], summaries, rfl, hanswered⟩
      · exact ⟨s :: left, right, rfl, hanswered⟩
    · rintro ⟨left, right, hsplit, hanswered⟩
      cases left with
      | nil =>
        obtain ⟨rfl, rfl⟩ := List.cons.inj hsplit
        exact Or.inl ⟨rfl, hanswered⟩
      | cons s' left =>
        obtain ⟨rfl, rfl⟩ := List.cons.inj hsplit
        exact Or.inr ⟨left, right, rfl, hanswered⟩

theorem answers_sublist {reversioned : List (String × SortedTerm String)}
    {summaries : List Summary} {M : Model String} :
    ((answers finder c reversioned summaries M).map Prod.fst).Sublist summaries := by
  induction summaries generalizing M with
  | nil => exact List.Sublist.slnil
  | cons s summaries ih =>
    unfold answers
    dsimp only
    split_ifs
    · exact ih.cons_cons s
    · cases finder.find (question c reversioned s) with
      | some own => exact ih.cons_cons s
      | none => exact ih.cons s

section Decision

variable (getSummaries : String → List Summary)

theorem findConcretelyApplicableSummaries_ok (finder : ModelFinder String)
    (hsimplifier : PartialModel.Reduces simplifier) (hw : c.WellDefined p) (hc : c.Agrees)
    (hstack : c.callStack = frame :: frames) (hflattens : Flattens p frame)
    (horder : ∀ s ∈ getSummaries frame.cfg.name, InOrder p frame s) :
    ∃ reversioned last, Reversions c frame reversioned ∧
      findConcretelyApplicableSummaries simplifier finder getSummaries c =
        .ok ((answers finder c reversioned (getSummaries frame.cfg.name)
          (entryValues frame c frame.cfg.interface)).map fun x => (x.1, x.2.getD last)) ∧
      last.complete = (getSummaries frame.cfg.name).foldl evaluated
        (entryValues frame c frame.cfg.interface) := by
  have hvars : ∀ v ∈ frame.cfg.interface, isDerived v = false →
      ∃ s, p.sortOf (frame.scope ++ "." ++ v.name) = some s := fun v hv hderived =>
    (hflattens v hv hderived).2
  obtain ⟨reversioned, hreversioned, hreversions⟩ := reversionedSymbolicValuations_ok hw hvars
  obtain ⟨model, hmodel, hcomplete, hinterprets⟩ := reversionedConcreteValuations_ok hw hc hvars
  have hknown : ∀ k, Known p frame k → model.Interprets k := by
    rintro ⟨s, n⟩ ⟨v, hv, hderived, hname, hs⟩
    obtain rfl : n = _ := hname
    exact hinterprets v hv hderived s hs
  obtain ⟨last, hlast, hfinal⟩ := checkSummaries_ok finder hsimplifier hreversioned horder
    hknown
  rw [hcomplete] at hlast hfinal
  refine ⟨reversioned, last, hreversions, ?_, hfinal⟩
  unfold findConcretelyApplicableSummaries Etfa.Context.getFrame
  rw [hstack]
  dsimp only [bind, Except.bind]
  cases hsummaries : getSummaries frame.cfg.name with
  | nil => rfl
  | cons s summaries =>
    rw [hsummaries] at hlast
    dsimp only
    rw [hmodel]
    dsimp only
    rw [hlast]

theorem feasible_of_holds (hw : c.WellDefined p) (hc : c.Agrees) {left : List Summary}
    (hleft : ∀ s ∈ left, InOrder p frame s) (horder : InOrder p frame summary)
    (h : ∀ t ∈ summary.assumptions, t.Holds
      (evaluated (left.foldl evaluated (entryValues frame c frame.cfg.interface)) summary)) :
    Feasible c summary := by
  refine ⟨c.concreteModel, _, hc.pathConstraint, hc.respects, ?_, evaluated_respects horder _, h⟩
  rintro ⟨s, n⟩ hk f version hname hversion
  have hknown := horder.known_of_occurs hk hname
  obtain ⟨v, hv, hderived, hn, hs⟩ := id hknown
  change n = versioned f 0 at hname
  change n = versioned _ 0 at hn
  obtain ⟨rfl, -⟩ := versioned_injective (hname.symm.trans hn)
  change evaluated _ summary s n = _
  rw [evaluated_known horder hknown, foldl_evaluated_known hleft hknown]
  change entryValues frame c frame.cfg.interface s n = _
  rw [hname]
  exact entryValues_eq hw hc hv hderived hs hversion

/-- Where the definitions are in order, the feasible summaries are found exactly if none is feasible
only without the path constraint, and none found with the concrete valuations has its values
overwritten by a later one. -/
theorem findConcretelyApplicableSummaries_decides_iff
    (hsimplifier : PartialModel.Reduces simplifier) (hw : c.WellDefined p)
    (hnames : Contextual c) (hc : c.Agrees) (hstack : c.callStack = frame :: frames)
    (hflattens : Flattens p frame)
    (hfits : ∀ s ∈ getSummaries frame.cfg.name, p.Fits s)
    (horder : ∀ s ∈ getSummaries frame.cfg.name, InOrder p frame s) :
    (∃ applicable, findConcretelyApplicableSummaries simplifier finder getSummaries c =
        .ok applicable ∧ Decides c (getSummaries frame.cfg.name) applicable) ↔
      (∀ s ∈ getSummaries frame.cfg.name, Consistent c s → Feasible c s) ∧
        Keeps (getSummaries frame.cfg.name) (entryValues frame c frame.cfg.interface) := by
  obtain ⟨reversioned, last, hreversions, hfind, hfinal⟩ :=
    findConcretelyApplicableSummaries_ok getSummaries finder hsimplifier hw hc hstack hflattens
      horder
  have hsolver : ∀ s ∈ getSummaries frame.cfg.name,
      (∃ own, finder.find (question c reversioned s) = some own) ↔ Consistent c s := fun s hs =>
    exists_find_iff finder hw hnames hflattens (hfits s hs) (horder s hs) hreversions
  rw [hfind]
  generalize getSummaries frame.cfg.name = summaries at hfits horder hfinal hsolver ⊢
  generalize hentry : entryValues frame c frame.cfg.interface = entry at hfinal ⊢
  have hmem : ∀ s ∈ summaries, Consistent c s →
      s ∈ ((answers finder c reversioned summaries entry).map fun x =>
        (x.1, x.2.getD last)).map Prod.fst := by
    intro s hs hconsistent
    obtain ⟨left, right, hsplit⟩ := List.append_of_mem hs
    have hanswered : ∃ own, (s, own) ∈ answers finder c reversioned summaries entry := by
      by_cases h : ∀ t ∈ s.assumptions, t.Holds (evaluated (left.foldl evaluated entry) s)
      · exact ⟨none, mem_answers.mpr ⟨left, right, hsplit, Or.inl ⟨h, rfl⟩⟩⟩
      · obtain ⟨own, hown⟩ := (hsolver s hs).mpr hconsistent
        exact ⟨some own, mem_answers.mpr ⟨left, right, hsplit, Or.inr ⟨h, own, rfl, hown⟩⟩⟩
    obtain ⟨own, hown⟩ := hanswered
    exact List.mem_map_of_mem (List.mem_map_of_mem hown)
  constructor
  · rintro ⟨applicable, heq, hdecides⟩
    cases heq
    refine ⟨fun s hs hconsistent => (hdecides.mem_iff s hs).mp (hmem s hs hconsistent), ?_⟩
    intro left s right hsplit hholds n sort t hn
    have hanswer : (s, none) ∈ answers finder c reversioned summaries entry :=
      mem_answers.mpr ⟨left, right, hsplit, Or.inl ⟨hholds, rfl⟩⟩
    have hvalue := hdecides.values _ (List.mem_map_of_mem hanswer) n sort t hn
    rwa [← hfinal]
  · rintro ⟨hfeasible, hkeeps⟩
    refine ⟨_, rfl, ?_, ?_, ?_⟩
    · rw [List.map_map]
      exact answers_sublist
    · intro s hs
      refine ⟨fun h => ?_, fun h => hmem s hs h.consistent⟩
      rw [List.map_map] at h
      obtain ⟨⟨s', own⟩, hx, rfl⟩ := List.mem_map.mp h
      obtain ⟨left, right, hsplit, hanswered⟩ := mem_answers.mp hx
      rcases hanswered with ⟨hholds, -⟩ | ⟨-, own', -, hown'⟩
      · have hleft : ∀ s ∈ left, InOrder p frame s := fun s hs' =>
          horder s (hsplit ▸ List.mem_append_left _ hs')
        exact feasible_of_holds hw hc hleft (horder _ hs) (hentry ▸ hholds)
      · exact hfeasible _ hs ((hsolver _ hs).mp ⟨own', hown'⟩)
    · intro x hx n sort t hn
      obtain ⟨⟨s, own⟩, hanswer, rfl⟩ := List.mem_map.mp hx
      obtain ⟨left, right, hsplit, ⟨hholds, hnone⟩ | ⟨-, own', hsome, hown'⟩⟩ :=
        mem_answers.mp hanswer
      · obtain rfl : own = none := hnone
        change last.complete sort n = t.eval last.complete
        rw [hfinal]
        exact hkeeps left s right hsplit hholds n sort t hn
      · obtain rfl : own = some own' := hsome
        exact find_respects hown' n sort t hn

end Decision

end Summarizer

/-! ## The names of the contexts -/

theorem Executor.execute_contextual {p : Program} {ex : Executor} {random : String → ℤ}
    {versions versions' : Versions} {c : Context} {successors : Executor.Successors}
    (hfits : ∀ typeName, ∀ s ∈ ex.getSummaries typeName, p.Fits s)
    (hc : Summarizer.Contextual c)
    (h : ex.execute random versions c = .ok (versions', successors)) :
    ∀ c' ∈ successors.contexts ++ successors.forked.toList, Summarizer.Contextual c' := by
  obtain ⟨frame, frames, -, hexecutes⟩ := execute_cases h
  intro c' hc'
  cases hexecutes with
  | move _ _ =>
    rw [mem_single hc']
    exact hc
  | assignment _ _ hstep =>
    rw [mem_single hc']
    obtain ⟨_, _, -, hassign, -⟩ := visitAssignment_cases hstep
    obtain ⟨u, w, _, _, -, -, -, -, -, -, heq⟩ := Etfa.Executor.visitAssignment_cases hassign
    intro n e hn
    unfold Etfa.Context.definitions at hn
    rw [heq] at hn
    dsimp only at hn
    rw [OrderedMap.find?_emplace] at hn
    split_ifs at hn with hname
    · exact ⟨_, _, _, hname⟩
    · exact hc n e hn
  | @call called _ _ _ _ _ _ hstep =>
    obtain ⟨typeName, callee, edge, _, applicable, -, -, -, -, happlicable, hor⟩ :=
      visitCall_cases hstep
    rcases hor with ⟨-, -, next, -, rfl⟩ | ⟨-, next, cs, -, happly, rfl⟩
    · rw [mem_single hc']
      exact hc
    · have hfound := findApplicable_fits hfits happlicable
      obtain ⟨x, hx, _, _, c₁, -, h₁, rfl⟩ :=
        mem_applySummaries hfound happly (by simpa using hc')
      obtain ⟨_, _, _, -, -, -, -, happly₁, -⟩ := applySummaryConcretely_cases h₁
      obtain ⟨r, hr⟩ := Etfa.Executor.applySummary_spec (hfound x hx) happly₁
      intro n e hn
      rcases hr.back n e hn with hold | ⟨m, _, _, -, rfl, -⟩
      · exact hc n e hold
      · exact ⟨_, _, _, rfl⟩
  | branch _ _ hstep =>
    obtain ⟨_, t, -, -, hsides⟩ := visitIf_cases hstep
    obtain ⟨taken, edge, next, -, -, hor⟩ := hsides c' hc'
    rcases hor with ⟨-, rfl⟩ | ⟨_, _, -, -, rfl⟩ <;> exact hc
  | programExit _ _ hstep =>
    rw [mem_single hc']
    obtain ⟨-, hexit, -⟩ := handleProgramExitVertex_cases hstep
    obtain ⟨-, st₁, st₂, next, hcarry, hreset, -, heq⟩ :=
      Etfa.Executor.handleProgramExitVertex_cases hexit
    obtain ⟨-, -, hback, -⟩ := Etfa.Executor.carryOver_names hcarry
    obtain ⟨hvaluations, -, -⟩ := Etfa.Executor.resetVersions_spec hreset
    intro n e hn
    unfold Etfa.Context.definitions at hn
    rw [heq] at hn
    dsimp only at hn
    rw [hvaluations] at hn
    rcases hback n e hn with hold | ⟨x, v, -, hname⟩
    · exact hc n e hold
    · exact ⟨_, _, _, hname⟩
  | functionBlockExit _ _ hstep =>
    rw [mem_single hc']
    obtain ⟨_, _, _, next, -, -, rfl⟩ := Etfa.Executor.handleFunctionBlockExitVertex_returns hstep
    exact hc

namespace Engine

theorem Reachable.contextual {p : Program} {ex : Executor} {P : Versions → Context → Prop}
    {g : Engine} (hfits : ∀ typeName, ∀ s ∈ ex.getSummaries typeName, p.Fits s)
    (hg : Reachable p ex P g) : ∀ c ∈ g.live, Summarizer.Contextual c := by
  refine Reachable.induction Summarizer.Contextual ?_ ?_ hg
  · intro g hinitial c hc
    obtain ⟨g₀, c₀, concreteValuations, hg₀, hc₀, -, hlive⟩ := initial_cases hinitial
    rw [hlive] at hc
    rw [List.mem_singleton.mp hc]
    obtain ⟨vertex, -, hg₀⟩ := bind_eq_ok hg₀
    obtain ⟨⟨versions, st⟩, hst, hg₀⟩ := bind_eq_ok hg₀
    cases hg₀
    obtain rfl := List.singleton_injective hc₀
    intro n e hn
    rcases Etfa.Engine.initialState_values hst hn with hold | ⟨x, v, -, hname, -⟩
    · cases hold
    · exact ⟨_, _, _, hname⟩
  · intro random versions c versions' successors hc _ hexecute
    exact Executor.execute_contextual hfits hc hexecute

end Engine

namespace SummarizedCall

def frameOfCallee : Frame := ⟨callee, "P.f", 3⟩

theorem calling_agreeing :
    calling.toContext.Placed program ∧ calling.WellDefined program ∧ calling.Agrees :=
  Engine.Reachable.agreeing wellSorted rfl (fits_all (List.subset_cons_self taken [skipped]))
    (reachable_calling (keepsStores_entry [skipped]) (keepsStores_parameter [skipped])) calling
    List.mem_cons_self

theorem inCallee_wellDefined : inCallee.WellDefined program :=
  calling_agreeing.2.1.of_eq rfl rfl calling_agreeing.2.1.closed rfl

theorem inCallee_agrees : inCallee.Agrees :=
  ⟨calling_agreeing.2.2.pathConstraint, calling_agreeing.2.2.valuations⟩

theorem inCallee_contextual : Summarizer.Contextual inCallee := by
  have hreachable : Engine.Reachable program (executor [skipped]) (fun _ _ => True) _ :=
    reachable_calling trivial trivial
  exact hreachable.contextual (fits_all (List.subset_cons_self taken [skipped])) calling
    List.mem_cons_self

theorem flattens : Summarizer.Flattens program frameOfCallee := by
  intro v hv _
  have hv : v ∈ [i, x] := hv
  rcases List.mem_cons.mp hv with rfl | hv
  · exact ⟨by unfold Plain; decide, .bool, rfl⟩
  · obtain rfl := List.mem_singleton.mp hv
    exact ⟨by unfold Plain; decide, .bool, rfl⟩

theorem known_input : Summarizer.Known program frameOfCallee (.bool, "P.f.i_0") :=
  ⟨i, List.mem_cons_self, rfl, rfl, rfl⟩

theorem inOrder {assumption : Term String .bool} {b : Bool}
    (h : assumption.occurrences = [(.bool, "P.f.i_0")]) : Summarizer.InOrder program frameOfCallee
      { assumptions := [assumption]
        hardConstraints := ⟨[("P.f.x_1", ⟨.bool, .booleanValue b⟩)], List.pairwise_singleton _ _⟩ } where
  defined := by
    intro n s t hn
    cases List.mem_singleton.mp (find?_eq_some hn)
    exact Or.inr fun k hk => absurd hk List.not_mem_nil
  assumed := by
    intro t ht k hk
    rw [List.mem_singleton.mp ht, h] at hk
    rw [List.mem_singleton.mp hk]
    exact Or.inl known_input
  entry := by
    intro f s t hn
    have hname : versioned f 0 = versioned "P.f.x" 1 :=
      congrArg Prod.fst (List.mem_singleton.mp (find?_eq_some hn))
    exact absurd (versioned_injective hname).2 (by decide)

theorem inOrder_all {summaries : List Summary} (h : summaries ⊆ [skipped, taken]) :
    ∀ s ∈ summaries, Summarizer.InOrder program frameOfCallee s := by
  intro s hs
  rcases List.mem_cons.mp (h hs) with rfl | hs
  · exact inOrder rfl
  · rw [List.mem_singleton.mp hs]
    exact inOrder rfl

/-- The summary that is true of the concrete input comes first, the other one overwrites its model. -/
theorem skipped_overwritten : inCallee.WellDefined program ∧ inCallee.Agrees ∧
    (∀ s ∈ [skipped, taken], program.Fits s) ∧ ¬ ∃ applicable,
      Summarizer.findConcretelyApplicableSummaries (PartialModel.folding String)
        (.classical String) (fun name => if name = "F" then [skipped, taken] else []) inCallee =
          .ok applicable ∧ Summarizer.Decides inCallee [skipped, taken] applicable := by
  refine ⟨inCallee_wellDefined, inCallee_agrees, ?_, ?_⟩
  · intro s hs
    rcases List.mem_cons.mp hs with rfl | hs
    · exact fits rfl
    · rw [List.mem_singleton.mp hs]
      exact fits rfl
  obtain ⟨reversioned, last, -, hfind, hfinal⟩ :=
    Summarizer.findConcretelyApplicableSummaries_ok
      (fun name => if name = "F" then [skipped, taken] else []) (ModelFinder.classical String)
      (PartialModel.reduces_folding String) inCallee_wellDefined inCallee_agrees
      (rfl : inCallee.callStack = frameOfCallee :: calling.callStack) flattens
      (inOrder_all (List.Subset.refl _))
  rintro ⟨applicable, heq, hdecides⟩
  rw [hfind] at heq
  cases heq
  have hanswer : (skipped, none) ∈ Summarizer.answers (.classical String) inCallee reversioned
      [skipped, taken] (Summarizer.entryValues frameOfCallee inCallee [i, x]) := by
    refine Summarizer.mem_answers.mpr ⟨[], [taken], rfl, Or.inl ⟨?_, rfl⟩⟩
    intro t ht
    rw [List.mem_singleton.mp ht]
    decide +kernel
  have hvalue := hdecides.values _ (List.mem_map_of_mem hanswer) "P.f.x_1" .bool
    (.booleanValue false) rfl
  change last.complete .bool "P.f.x_1" = false at hvalue
  rw [hfinal] at hvalue
  have htrue : [skipped, taken].foldl Summarizer.evaluated
      (Summarizer.entryValues frameOfCallee inCallee [i, x]) .bool "P.f.x_1" = true := rfl
  exact Bool.false_ne_true (hvalue.symm.trans htrue)

/-- The other way around, the summary of the concrete input keeps its own values. -/
theorem skipped_decided : ∃ applicable,
    Summarizer.findConcretelyApplicableSummaries (PartialModel.folding String) (.classical String)
      (fun name => if name = "F" then [taken, skipped] else []) inCallee = .ok applicable ∧
    Summarizer.Decides inCallee [taken, skipped] applicable := by
  refine (Summarizer.findConcretelyApplicableSummaries_decides_iff
    (fun name => if name = "F" then [taken, skipped] else []) (PartialModel.reduces_folding String)
    inCallee_wellDefined inCallee_contextual inCallee_agrees
    (rfl : inCallee.callStack = frameOfCallee :: calling.callStack) flattens ?_ ?_).mpr ⟨?_, ?_⟩
  · exact fits_all (List.Subset.refl _) "F"
  · exact inOrder_all (List.Perm.subset (List.Perm.swap _ _ _))
  · rintro s - ⟨M, N, hM, hN, hhard, hassumptions⟩
    refine ⟨M, N, ?_, hM, hN, hhard, hassumptions⟩
    intro t ht
    rw [List.mem_singleton.mp ht]
    rfl
  · intro left s right hsplit hholds n sort t hn
    have hboth : [taken, skipped] = left ++ s :: right := hsplit
    cases left with
    | nil =>
      -- the assumption of the first summary is false
      obtain ⟨rfl, rfl⟩ := List.cons.inj hboth
      exact absurd (hholds (constant "P.f.i_0") List.mem_cons_self) (by decide +kernel)
    | cons first left =>
      obtain ⟨rfl, hlast⟩ := List.cons.inj hboth
      cases left with
      | nil =>
        obtain ⟨rfl, rfl⟩ := List.cons.inj hlast
        cases List.mem_singleton.mp (find?_eq_some hn)
        rfl
      | cons second left => simp at hlast

end SummarizedCall

end Ahorn.EtfaNoMerge
