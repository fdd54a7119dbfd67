import Ahorn.PartialModels
import Ahorn.Partitions
import Ahorn.SummarizedPaths

set_option autoImplicit false

/-!
# How paths share the inputs of a unit

A context admits the stores that some model of what it has filed reads. Behind a branch, the stores
are shared among the sides, for the solver is asked about exactly these models. So every store stays
with one context.
-/
namespace Ahorn.Summarization

open Etfa (Frame)

variable {p : Etfa.Program} {callee : Frame} {versions versions' : Versions} {c c' : Context}
variable {simplifier : Simplifier String} {solver : Solver String} {σ : Valuation}
variable {M M' : Model String} {D : Definitions String}

/-- The store is one the path is taken from. -/
def Admits (p : Etfa.Program) (c : Context) (σ : Valuation) : Prop :=
  ∃ M, c.state.IsModel M ∧ ReadsStore p σ M

/-- The model satisfies the definitions, but perhaps not what is assumed. -/
def State.Defined (st : State) (M : Model String) : Prop :=
  ∀ l n e, st.Defines l n e → M e.1 n = e.2.eval M

section Values

theorem Valued.reads (hD : Valued p c D) (hM : c.state.Defined M) (hread : ReadsStore p σ M)
    (hM' : ReadsStore p σ M') : D.Reads M' M where
  respects := by
    intro n s t hn
    rcases (hD.gives n ⟨s, t⟩).mp hn with ⟨l, hl⟩ | ⟨x, s', -, -, heq⟩
    · exact hM l n ⟨s, t⟩ hl
    · cases heq
      rfl
  inputs := by
    intro n s hn
    obtain ⟨x, hx, rfl⟩ := hD.inputs n s hn
    exact SmtSort.value_injective ((hread x s hx).symm.trans (hM' x s hx))

theorem Valued.eval_unique (hD : Valued p c D) (hM : c.state.Defined M) (hread : ReadsStore p σ M)
    (hM' : c.state.Defined M') (hread' : ReadsStore p σ M') {s : SmtSort} {t : Term String s}
    (ht : D.Closed t) : t.eval M = t.eval M' :=
  hD.acyclic.eval_unique (hD.reads hM hread hread') (hD.reads hM' hread' hread') ht

theorem exists_readsStore (hσ : p.SortsStore σ) : ∃ M, ReadsStore p σ M := by
  have hvalue : ∀ s n, ∃ a : SmtSort.Carrier s, ∀ x, p.sortOf x = some s → n = versioned x 0 →
      σ x = s.value a := by
    intro s n
    by_cases h : ∃ x, p.sortOf x = some s ∧ n = versioned x 0
    · obtain ⟨x, hx, rfl⟩ := h
      obtain ⟨a, ha⟩ := hσ x s hx
      refine ⟨a, fun y _ hname => ?_⟩
      obtain ⟨rfl, -⟩ := versioned_injective hname
      exact ha
    · cases s with
      | bool => exact ⟨false, fun x hx hname => absurd ⟨x, hx, hname⟩ h⟩
      | int => exact ⟨(0 : ℤ), fun x hx hname => absurd ⟨x, hx, hname⟩ h⟩
  choose M hM using hvalue
  exact ⟨M, fun x s hx => hM s _ x hx rfl⟩

theorem Valued.exists_defined (hD : Valued p c D) (hσ : p.SortsStore σ) :
    ∃ M, c.state.Defined M ∧ ReadsStore p σ M := by
  obtain ⟨I, hI⟩ := exists_readsStore hσ
  obtain ⟨M, hM⟩ := hD.acyclic.exists_reads I
  refine ⟨M, fun l n e hn => ?_, fun x s hx => ?_⟩
  · exact hM.respects n e.1 e.2 ((hD.gives n e).mpr (Or.inl ⟨l, hn⟩))
  · rw [hM.inputs _ s ((hD.gives _ _).mpr (Or.inr ⟨x, s, hx, rfl, rfl⟩))]
    exact hI x s hx

end Values

section Realizable

variable {m : OrderedMap String (List (Term String .bool))} {first : String} {trail : List String}
variable {side : Term String .bool}

theorem holds_implies_iff {a b : Term String .bool} :
    (Term.connective .implies a b).Holds M ↔ (a.Holds M → b.Holds M) := by
  change (!a.eval M || b.eval M) = true ↔ (a.eval M = true → b.eval M = true)
  cases a.eval M with
  | false => exact ⟨fun _ ha => absurd ha Bool.false_ne_true, fun _ => rfl⟩
  | true => exact ⟨fun hb _ => hb, fun hb => hb rfl⟩

theorem Trail.preceding (h : Trail m first trail) : ∀ l ∈ trail,
    l = first ∨ ∃ l' ∈ trail, m.find? l = some [.constant .bool l'] := by
  induction h with
  | single _ => exact fun l hl => Or.inl (List.mem_singleton.mp hl)
  | @cons l l' trail hl _ _ ih =>
    rw [List.forall_mem_cons]
    refine ⟨Or.inr ⟨l', List.mem_cons_of_mem _ List.mem_cons_self, hl⟩, fun k hk => ?_⟩
    rcases ih k hk with hk | ⟨k', hk', hfind⟩
    · exact Or.inl hk
    · exact Or.inr ⟨k', List.mem_cons_of_mem _ hk', hfind⟩

theorem Trail.forall_mem {P : String → Prop} {l : String} (h : Trail m first (l :: trail))
    (hl : P l) (hpreceding : ∀ k k', m.find? k = some [.constant .bool k'] → P k → P k') :
    ∀ k ∈ l :: trail, P k := by
  generalize hk : l :: trail = literals at h
  induction h generalizing l trail with
  | single _ =>
    cases hk
    exact fun k hk => List.mem_singleton.mp hk ▸ hl
  | cons hfind _ _ ih =>
    cases hk
    rw [List.forall_mem_cons]
    exact ⟨hl, ih (hpreceding _ _ hfind hl) rfl⟩

theorem versioned_ne_literalName {f : String} (hplain : Plain f) (hdot : '.' ∈ f.toList) (v : ℕ)
    (scope : String) (label : ℤ) : versioned f v ≠ literalName scope label := by
  intro h
  have hname : decontextualize (literalName scope label) = "b" := by
    unfold decontextualize literalName
    rw [String.toList_append, String.toList_append, String.toList_append]
    rfl
  rw [← h, decontextualize_versioned hplain] at hname
  rw [hname] at hdot
  exact absurd hdot (by decide)

theorem holds_encoding {st : State} : (∀ t ∈ st.encoding simplifier, t.Holds M) ↔
    (∀ l ts, st.assumptionLiterals.find? l = some ts → M .bool l = true → ∃ t ∈ ts, t.Holds M) ∧
    (∀ l t, st.Assumes l t → M .bool l = true → t.Holds M) ∧
    ∀ l n e, st.Defines l n e → M .bool l = true → M e.1 n = e.2.eval M := by
  have hliteral : ∀ l, (Term.constant .bool l : Term String .bool).Holds M ↔ M .bool l = true :=
    fun _ => Iff.rfl
  have hsimplify : ∀ t : Term String .bool, (simplifier.simplify t).Holds M ↔ t.Holds M := by
    intro t
    unfold Term.Holds
    rw [simplifier.eval_simplify]
  unfold State.encoding
  simp only [List.forall_mem_append, List.forall_mem_map, holds_implies_iff, hliteral, hsimplify,
    Term.holds_disjunction, Term.holds_conjunction, Prod.forall, ← OrderedMap.find?_eq_some_iff,
    and_assoc]
  refine and_congr_right' (and_congr ⟨fun h l t ht hl => ?_, fun h l ts hts hl t ht => ?_⟩
    ⟨fun h l n e hn hl => ?_, fun h l m hm hl n e hn => ?_⟩)
  · unfold State.Assumes at ht
    cases hfind : st.assumptions.find? l with
    | none =>
      rw [hfind] at ht
      cases ht
    | some ts =>
      rw [hfind] at ht
      exact h l ts hfind hl t ht
  · exact h l t (by rw [State.Assumes, hts]; exact ht) hl
  · unfold State.Defines at hn
    cases hfind : st.hardConstraints.find? l with
    | none =>
      rw [hfind] at hn
      cases hn
    | some m =>
      rw [hfind] at hn
      exact of_decide_eq_true (h l m hfind hl n e hn)
  · exact decide_eq_true (h l n e (by rw [State.Defines, hm]; exact hn) hl)

noncomputable def withLiterals (scope : String) (M : Model String) : Model String
  | .bool, n => open Classical in if ∃ label, n = literalName scope label then true else M .bool n
  | .int, n => M .int n

theorem withLiterals_literal (scope : String) (label : ℤ) :
    withLiterals scope M .bool (literalName scope label) = true := if_pos ⟨label, rfl⟩

theorem withLiterals_of_ne {scope n : String} (h : ∀ label, n ≠ literalName scope label)
    (s : SmtSort) : withLiterals scope M s n = M s n := by
  cases s with
  | bool => exact if_neg fun ⟨label, hl⟩ => h label hl
  | int => rfl

theorem Explored.ne_literalName (hcallee : Summarizable p callee) (h : Explored p callee versions c)
    {f : String} (hf : (c.state.flattenedNameToVersion.find? f).isSome) (v : ℕ) (label : ℤ) :
    versioned f v ≠ literalName callee.scope label := by
  obtain ⟨u, hu⟩ := Option.isSome_iff_exists.mp hf
  obtain ⟨x, hx, rfl⟩ := h.domain f u hu
  refine versioned_ne_literalName (hcallee.plain x hx) ?_ v _ _
  simp

theorem Explored.eval_withLiterals (hcallee : Summarizable p callee)
    (h : Explored p callee versions c) {s : SmtSort} {t : Term String s}
    (ht : ∀ k ∈ t.occurrences, ∃ f v, k.2 = versioned f v ∧
      (c.state.flattenedNameToVersion.find? f).isSome) :
    t.eval (withLiterals callee.scope M) = t.eval M := by
  refine Term.eval_congr t fun k hk => ?_
  obtain ⟨f, v, hkey, hf⟩ := ht k hk
  refine withLiterals_of_ne (fun label => ?_) k.1
  rw [hkey]
  exact h.ne_literalName hcallee hf v label

/-- The solver is asked whether the side holds in some model of the path. -/
theorem Explored.realizable_iff (hcallee : Summarizable p callee)
    (h : Explored p callee versions c) (label : ℤ)
    (hside : ∀ k ∈ side.occurrences, ∃ f v, c.state.flattenedNameToVersion.find? f = some v ∧
      p.sortOf f = some k.1 ∧ k.2 = versioned f v) :
    (executor simplifier solver).realizable c.state (literalName callee.scope label) side = true ↔
      ∃ M, c.state.IsModel M ∧ side.Holds M := by
  obtain ⟨trail, ⟨hchain, hfiled⟩, hfirst, hkeys, hnames⟩ := h.labelled
  unfold Executor.realizable
  refine (solver.check_iff _).trans ?_
  simp only [List.forall_mem_append, List.forall_mem_cons, List.not_mem_nil, false_imp_iff,
    implies_true, and_true, holds_implies_iff]
  constructor
  · rintro ⟨M, hencoding, hcurrent, hM, hliteral⟩
    obtain ⟨hliterals, hassumes, hdefines⟩ := holds_encoding.mp hencoding
    have htrue : ∀ l ∈ c.state.assumptionLiteral :: trail, M .bool l = true := by
      refine hchain.forall_mem (hcurrent hliteral) fun k k' hk htrue => ?_
      obtain ⟨t, ht, hholds⟩ := hliterals k _ hk htrue
      rw [List.mem_singleton.mp ht] at hholds
      exact hholds
    exact ⟨M, ⟨fun l n e hn => hdefines l n e hn (htrue l (hfiled l hn.filedUnder)),
      fun l t ht => hassumes l t ht (htrue l (hfiled l ht.filedUnder))⟩, hM hliteral⟩
  · rintro ⟨M, hM, hholds⟩
    have htrue : ∀ l ∈ c.state.assumptionLiteral :: trail,
        withLiterals callee.scope M .bool l = true := by
      intro l hl
      obtain ⟨label, rfl⟩ := hnames l hl
      exact withLiterals_literal _ _
    have heval : ∀ e, c.state.Files e → e.2.eval (withLiterals callee.scope M) = e.2.eval M := by
      intro e he
      refine h.eval_withLiterals hcallee fun k hk => ?_
      obtain ⟨f, v, -, hkey, hf, -⟩ := h.mentioned k.2 (Or.inr ⟨e, he, k.1, hk⟩)
      exact ⟨f, v, hkey, hf⟩
    refine ⟨withLiterals callee.scope M, holds_encoding.mpr ⟨fun l ts hts _ => ?_,
      fun l t ht _ => ?_, fun l n e hn _ => ?_⟩, fun _ => htrue _ List.mem_cons_self, fun _ => ?_,
      withLiterals_literal _ _⟩
    · have hl := hkeys l (by rw [hts]; rfl)
      rcases hchain.preceding l hl with rfl | ⟨l', hl', hfind⟩
      · rw [hfirst] at hts
        cases hts
        exact ⟨_, List.mem_singleton_self _, rfl⟩
      · rw [hfind] at hts
        cases hts
        exact ⟨_, List.mem_singleton_self _, htrue l' hl'⟩
    · unfold Term.Holds
      rw [heval ⟨.bool, t⟩ (Or.inl ⟨l, t, ht, rfl⟩)]
      exact hM.assumptions l t ht
    · obtain ⟨f, v, -, hkey, hf, -⟩ := h.mentioned n (Or.inl ⟨l, e, hn⟩)
      rw [heval e (Or.inr ⟨l, n, hn⟩), hkey, withLiterals_of_ne (h.ne_literalName hcallee hf v),
        ← hkey]
      exact hM.hardConstraints l n e hn
    · unfold Term.Holds
      rw [h.eval_withLiterals hcallee fun k hk => ?_]
      · exact hholds
      · obtain ⟨f, v, hv, -, hkey⟩ := hside k hk
        exact ⟨f, v, hkey, by rw [hv]; rfl⟩

end Realizable

section Parting

variable {st st' : State} {l : String} {trail : List String} {ts : List (Term String .bool)}
variable {t u : Term String .bool}

/-- What is assumed from the entry on, in its order. -/
def assumed (callee : Frame) (st : State) : List (Term String .bool) :=
  match flattenAssumptionLiterals callee st with
  | .ok literals => literals.flatMap fun l => (st.assumptions.find? l).getD []
  | .error _ => []

theorem Traced.assumed_eq
    (h : Traced (literalName callee.scope callee.cfg.entryLabel) st trail) :
    assumed callee st = (st.assumptionLiteral :: trail).reverse.flatMap fun l =>
      (st.assumptions.find? l).getD [] := by
  unfold assumed
  rw [h.flatten]

theorem Traced.not_filed {first : String} (h : Traced first st trail)
    (hnew : st.assumptionLiterals.find? l = none) : (st.assumptions.find? l).getD [] = [] := by
  cases hfind : st.assumptions.find? l with
  | none => rfl
  | some ts =>
    have hsome := h.chain.isSome l (h.filed l (Or.inl (by rw [hfind]; rfl)))
    rw [hnew] at hsome
    cases hsome

theorem Traced.assumed_push (h : Traced (literalName callee.scope callee.cfg.entryLabel) st trail)
    (st' : State) (ts : List (Term String .bool))
    (h' : Traced (literalName callee.scope callee.cfg.entryLabel) st' (st.assumptionLiteral :: trail))
    (hnew : st.assumptionLiterals.find? st'.assumptionLiteral = none)
    (hassumptions : ∀ k, (st'.assumptions.find? k).getD [] =
      (st.assumptions.find? k).getD [] ++ if k = st'.assumptionLiteral then ts else []) :
    assumed callee st' = assumed callee st ++ ts := by
  rw [h.assumed_eq, h'.assumed_eq, List.reverse_cons, List.flatMap_append, List.flatMap_singleton,
    hassumptions, if_pos rfl, h.not_filed hnew, List.nil_append]
  congr 1
  refine List.flatMap_congr fun k hk => ?_
  have hne : k ≠ st'.assumptionLiteral := by
    rintro rfl
    have hsome := h.chain.isSome _ (List.mem_reverse.mp hk)
    rw [hnew] at hsome
    cases hsome
  rw [hassumptions, if_neg hne, List.append_nil]

theorem Traced.assumed_prefix
    (h : Traced (literalName callee.scope callee.cfg.entryLabel) st trail)
    (h' : Traced (literalName callee.scope callee.cfg.entryLabel) st' (st.assumptionLiteral :: trail))
    (hnew : st.assumptionLiterals.find? st'.assumptionLiteral = none)
    (hassumptions : st'.assumptions = st.assumptions) :
    assumed callee st <+: assumed callee st' := by
  rw [h.assumed_push st' [] h' hnew fun k => by rw [hassumptions, ite_self, List.append_nil],
    List.append_nil]

theorem mem_assumed (h : Explored p callee versions c) (ht : t ∈ assumed callee c.state) :
    c.state.Files ⟨.bool, t⟩ := by
  obtain ⟨trail, hlabelled⟩ := h.labelled
  rw [hlabelled.traced.assumed_eq] at ht
  obtain ⟨l, -, ht⟩ := List.mem_flatMap.mp ht
  exact Or.inl ⟨l, t, ht, rfl⟩

/-- A context on the way of another one: it assumes more, and writes versions above all others. -/
structure Extends (callee : Frame) (versions : Versions) (c c' : Context) : Prop where
  assumed : assumed callee c.state <+: assumed callee c'.state
  keeps : ∀ n, c.state.Writes n → c'.state.Writes n
  news : ∀ f v, c'.state.Writes (versioned f v) → c.state.Writes (versioned f v) ∨
    ∀ w, versions.find? f = some w → w < v

/-- Two paths have parted at a branch: what one assumes there is the contrary of what the other one
does, over versions that both know. -/
structure Parted (callee : Frame) (c c' : Context) (ts : List (Term String .bool))
    (t u : Term String .bool) : Prop where
  left : ts ++ [t] <+: assumed callee c.state
  right : ts ++ [u] <+: assumed callee c'.state
  occurrences : u.occurrences ⊆ t.occurrences
  contrary : ∀ M : Model String, u.eval M ≠ t.eval M
  alike : ∀ f v s, (s, versioned f v) ∈ t.occurrences → ∀ w ≤ v,
    c.state.Writes (versioned f w) ↔ c'.state.Writes (versioned f w)

/-- The paths of the contexts have parted. -/
def Apart (callee : Frame) (c c' : Context) : Prop :=
  ∃ ts t u, Parted callee c c' ts t u ∨ Parted callee c' c ts t u

theorem Apart.symm (h : Apart callee c c') : Apart callee c' c := by
  obtain ⟨ts, t, u, h⟩ := h
  exact ⟨ts, t, u, h.symm⟩

theorem Explored.le_of_mentions (h : Explored p callee versions c) {f : String} {v : ℕ}
    (hv : c.state.Mentions (versioned f v)) : ∃ w, versions.find? f = some w ∧ v ≤ w := by
  obtain ⟨f', v', s, hname, hf, hs⟩ := h.mentioned _ hv
  obtain ⟨rfl, rfl⟩ := versioned_injective hname
  obtain ⟨u, hu⟩ := Option.isSome_iff_exists.mp hf
  obtain ⟨w, hw, hle⟩ := h.bounded f u s hu hs
  refine ⟨w, hw, ?_⟩
  rcases h.path.versioning.settled hv with rfl | hwrites
  · exact Nat.zero_le w
  · obtain ⟨g, v', u', hname, -, hu', hle'⟩ := h.written _ hwrites
    obtain ⟨rfl, rfl⟩ := versioned_injective hname
    rw [hu] at hu'
    cases hu'
    omega

theorem Extends.refl (callee : Frame) (versions : Versions) (c : Context) :
    Extends callee versions c c :=
  ⟨List.prefix_rfl, fun _ h => h, fun _ _ h => Or.inl h⟩

theorem Parted.extend {c₁ c₁' : Context} (h : Parted callee c c' ts t u)
    (hc : Explored p callee versions c) (hext : Extends callee versions c c₁)
    (hext' : Extends callee versions c' c₁') : Parted callee c₁ c₁' ts t u := by
  refine ⟨h.left.trans hext.assumed, h.right.trans hext'.assumed, h.occurrences, h.contrary,
    fun f v s hk w hw => ?_⟩
  have hmem : t ∈ assumed callee c.state :=
    h.left.subset (List.mem_append_right _ (List.mem_singleton_self t))
  obtain ⟨b, hb, hle⟩ := hc.le_of_mentions (Or.inr ⟨_, mem_assumed hc hmem, s, hk⟩)
  have hold : ∀ {d d' : Context}, Extends callee versions d d' →
      (d'.state.Writes (versioned f w) ↔ d.state.Writes (versioned f w)) := by
    intro d d' hd
    refine ⟨fun hwrites => (hd.news f w hwrites).resolve_right fun hnew => ?_, hd.keeps _⟩
    have hlt := hnew b hb
    omega
  rw [hold hext, hold hext']
  exact h.alike f v s hk w hw

theorem Apart.extend {c₁ c₁' : Context} (h : Apart callee c c') (hc : Explored p callee versions c)
    (hc' : Explored p callee versions c') (hext : Extends callee versions c c₁)
    (hext' : Extends callee versions c' c₁') : Apart callee c₁ c₁' := by
  obtain ⟨ts, t, u, h | h⟩ := h
  · exact ⟨ts, t, u, Or.inl (h.extend hc hext hext')⟩
  · exact ⟨ts, t, u, Or.inr (h.extend hc' hext' hext)⟩

end Parting

section Steps

variable {label : ℤ} {vertex : Vertex} {st : State} {side t u : Term String .bool}

/-- The contexts a step leads to share the stores of the context in front of it. -/
structure Succeeds (p : Etfa.Program) (callee : Frame) (versions versions' : Versions) (c : Context)
    (cs : List Context) : Prop where
  le : versions.Le versions'
  explored : ∀ c' ∈ cs, Explored p callee versions' c'
  extended : ∀ c' ∈ cs, Extends callee versions c c'
  apart : cs.Pairwise (Apart callee)
  splits : Partition.Splits (Admits p) c cs

theorem Succeeds.single (hle : versions.Le versions') (hc' : Explored p callee versions' c')
    (hext : Extends callee versions c c') (hadmits : ∀ σ, Admits p c' σ ↔ Admits p c σ) :
    Succeeds p callee versions versions' c [c'] := by
  refine ⟨hle, ?_, ?_, List.pairwise_singleton _ _, .single hadmits⟩
  · exact fun d hd => List.mem_singleton.mp hd ▸ hc'
  · exact fun d hd => List.mem_singleton.mp hd ▸ hext

theorem Explored.extends_enter (h : Explored p callee versions c)
    (hst : c.state.enter false (literalName callee.scope label) vertex = .ok st) :
    Extends callee versions c { c with state := st } := by
  obtain ⟨st', hst', hst⟩ := bind_eq_ok hst
  obtain ⟨hnew, rfl⟩ := pushAssumptionLiteral_eq hst'
  cases hst
  obtain ⟨trail, hlabelled⟩ := h.labelled
  exact ⟨hlabelled.traced.assumed_prefix
    (hlabelled.traced.push hnew rfl rfl fun _ hk => Or.inl hk) hnew rfl, fun _ hn => hn,
    fun _ _ hn => Or.inl hn⟩

theorem Explored.enter_succeeds (h : Explored p callee versions c)
    (hst : c.state.enter false (literalName callee.scope label) vertex = .ok st)
    (hplace : ∃ l, callee.cfg.labelToVertex.find? l = some vertex)
    (hstep : ∀ inputs conf returnLabel frames, conf.vertex = c.state.vertex →
      conf.callStack = ⟨callee.cfg, callee.scope, returnLabel⟩ :: frames →
      p.step inputs conf = .ok (conf.moveTo vertex)) :
    Succeeds p callee versions versions c [{ c with state := st }] := by
  refine .single (.refl versions) (h.enter hst hplace hstep) (h.extends_enter hst) fun σ => ?_
  obtain ⟨st', hst', hst⟩ := bind_eq_ok hst
  obtain ⟨-, rfl⟩ := pushAssumptionLiteral_eq hst'
  cases hst
  exact exists_congr fun M => and_congr_left' ⟨fun hM => hM.of_eq rfl rfl, fun hM => hM.of_eq rfl rfl⟩

theorem Explored.take_adds (h : Explored p callee versions c)
    (hc' : (executor simplifier solver).take (literalName callee.scope label) vertex side c =
      .ok c') : assumed callee c'.state = assumed callee c.state ++ [side] ∧
      (∀ n, c'.state.Writes n ↔ c.state.Writes n) ∧
      ∀ M, c'.state.IsModel M ↔ c.state.IsModel M ∧ side.Holds M := by
  obtain ⟨hnew, rfl⟩ := take_eq hc'
  obtain ⟨trail, hlabelled⟩ := h.labelled
  have hconstraints : (c.state.pushAssumption (literalName callee.scope label) side).hardConstraints =
      c.state.hardConstraints := by
    unfold State.pushAssumption
    split <;> rfl
  refine ⟨?_, fun n => Iff.rfl, fun M => ?_⟩
  · refine hlabelled.traced.assumed_push _ _
      (hlabelled.traced.push hnew rfl rfl fun k hk => ?_) hnew fun k => ?_
    · rcases hk with hk | hk
      · exact State.FiledUnder.of_pushAssumption (Or.inl hk)
      · exact Or.inl (Or.inr hk)
    · dsimp only
      rw [assumptions_push]
      split_ifs with hk
      · rw [hk]
      · rw [List.append_nil]
  · rw [← isModel_pushAssumption]
    exact ⟨fun hM => hM.of_eq rfl hconstraints.symm, fun hM => hM.of_eq rfl hconstraints⟩

/-- A branch is taken to the side whose condition holds. -/
theorem Reaches.branch {inputs : Etfa.Inputs} {branches : List Etfa.Branch}
    {conf conf' : Etfa.Configuration} {e : Expression} {t₁ t₂ returnLabel : ℤ} {frames : List Frame}
    {edge : Edge} {taken : Bool} (hcallee : Summarizable p callee)
    (hplace : ∃ l, callee.cfg.labelToVertex.find? l = some c.state.vertex)
    (hrefs : ∀ q ∈ e.references, p.Resolves callee.scope q)
    (htype : c.state.vertex.type = .regular)
    (hinstruction : c.state.vertex.instruction = some (.ifInstruction e t₁ t₂))
    (ht : (executor simplifier solver).encode callee c e = .ok ⟨.bool, t⟩) (htaken : t.eval M = taken)
    (hedge : callee.cfg.getEdgeOfType (if taken then .trueBranch else .falseBranch)
      c.state.vertex.label = .ok edge)
    (hnext : callee.cfg.getVertex edge.targetLabel = .ok vertex)
    (hstack : conf'.callStack = ⟨callee.cfg, callee.scope, returnLabel⟩ :: frames)
    (h : Reaches p inputs M c branches conf conf') :
    p.step inputs conf' = .ok { conf'.moveTo vertex with
      branches := conf'.branches ++ [⟨callee.scope, c.state.vertex.label, taken⟩] } := by
  obtain ⟨l, hl⟩ := hplace
  have hvalue : e.eval (conf'.valuation callee.scope) = .bool taken :=
    (encode_eval hcallee hl (by rw [Vertex.expression?, hinstruction]) hrefs ht h.store).symm.trans
      (congrArg Value.bool htaken)
  have hbranch : Etfa.Program.branch ⟨callee.cfg, callee.scope, returnLabel⟩ e conf' =
      .ok { conf'.moveTo vertex with
        branches := conf'.branches ++ [⟨callee.scope, c.state.vertex.label, taken⟩] } := by
    unfold Etfa.Program.branch
    rw [hvalue, h.vertex]
    dsimp only [Value.toBool]
    rw [hedge]
    dsimp only [bind, Except.bind]
    rw [hnext]
  unfold Etfa.Program.step
  rw [hstack]
  dsimp only
  unfold Etfa.Program.stepIn
  rw [h.vertex, htype, hinstruction]
  exact hbranch

theorem admits_iff_of_models (hmodels : ∀ M, c'.state.IsModel M ↔ c.state.IsModel M ∧ side.Holds M) :
    Admits p c' σ ↔ ∃ M, c.state.IsModel M ∧ ReadsStore p σ M ∧ side.Holds M := by
  unfold Admits
  simp only [hmodels, and_assoc, and_comm (a := side.Holds _)]

theorem Explored.admits_whole (h : Explored p callee versions c)
    (hc' : (executor simplifier solver).take (literalName callee.scope label) vertex side c =
      .ok c') (hside : ∀ M, c.state.IsModel M → side.Holds M) : Admits p c' σ ↔ Admits p c σ := by
  rw [admits_iff_of_models (h.take_adds hc').2.2]
  exact exists_congr fun M => and_congr_right fun hM => and_iff_left (hside M hM)

/-- The sides of a branch share the stores. -/
theorem Explored.visitIf (hp : p.WellSorted) (hcallee : Summarizable p callee)
    (h : Explored p callee versions c) {e : Expression} {t₁ t₂ : ℤ} {cs : List Context}
    (htype : c.state.vertex.type = .regular)
    (hinstruction : c.state.vertex.instruction = some (.ifInstruction e t₁ t₂))
    (hcs : (executor simplifier solver).visitIf callee e c = .ok cs) :
    Succeeds p callee versions versions c cs := by
  obtain ⟨l, hl⟩ := h.place
  have hrefs := hp.sorted hcallee.isInstance hl hinstruction
  obtain ⟨⟨s, t⟩, ht, hcs⟩ := bind_eq_ok hcs
  cases s with
  | int => cases hcs
  | bool =>
    have hoccurs := encode_occurrences hrefs ht
    have hoccursNot : ∀ k ∈ (Term.not t).occurrences, ∃ f v,
        c.state.flattenedNameToVersion.find? f = some v ∧ p.sortOf f = some k.1 ∧
          k.2 = versioned f v := hoccurs
    obtain ⟨D, hD⟩ := h.valued
    have hclosed := hD.encode_closed hrefs ht
    have hside : ∀ (taken : Bool) (edge : Edge) (next : Vertex) (u : Term String .bool) (c₁ : Context),
        callee.cfg.getEdgeOfType (if taken then .trueBranch else .falseBranch)
          c.state.vertex.label = .ok edge →
        callee.cfg.getVertex edge.targetLabel = .ok next → u.occurrences ⊆ t.occurrences →
        (∀ M, u.Holds M ↔ t.eval M = taken) →
        (executor simplifier solver).take (literalName callee.scope edge.targetLabel) next u c =
          .ok c₁ → Explored p callee versions c₁ ∧ Extends callee versions c c₁ := by
      intro taken edge next u c₁ hedge hnext hsubset hu hc₁
      obtain ⟨hassumed, hwrites, -⟩ := h.take_adds hc₁
      refine ⟨h.take (fun k hk => hoccurs k (hsubset hk)) hc₁ ⟨_, Etfa.Executor.getVertex_eq hnext⟩
        fun inputs M conf conf' branches returnLabel frames hM hstack hreaches =>
          hreaches.branch hcallee ⟨l, hl⟩ hrefs htype hinstruction ht ((hu M).mp hM) hedge hnext hstack,
        hassumed ▸ List.prefix_append _ _, fun n hn => (hwrites n).mpr hn,
        fun f v hn => Or.inl ((hwrites _).mp hn)⟩
    have hnegated : ∀ M, (simplifier.simplify (.not t)).Holds M ↔ t.eval M = false := by
      intro M
      unfold Term.Holds
      rw [simplifier.eval_simplify]
      exact Bool.not_eq_eq_eq_not
    have hsimplify : (simplifier.simplify (.not t)).occurrences ⊆ t.occurrences :=
      simplifier.occurrences_simplify (.not t)
    obtain ⟨trueEdge, htrue, hcs⟩ := bind_eq_ok hcs
    obtain ⟨positive, hpositive, hcs⟩ := bind_eq_ok hcs
    obtain ⟨falseEdge, hfalse, hcs⟩ := bind_eq_ok hcs
    obtain ⟨negative, hnegative, hcs⟩ := bind_eq_ok hcs
    dsimp only at hcs
    -- whatever model a store has, the condition has the same value in it
    have hsame : ∀ σ M, c.state.IsModel M → ReadsStore p σ M →
        (t.Holds M ↔ ∀ M', c.state.IsModel M' → ReadsStore p σ M' → t.Holds M') := by
      intro σ M hM hread
      refine ⟨fun hholds M' hM' hread' => ?_, fun hall => hall M hM hread⟩
      unfold Term.Holds
      rw [← hD.eval_unique hM.hardConstraints hread hM'.hardConstraints hread' hclosed]
      exact hholds
    split_ifs at hcs with hpositiveCheck hnegativeCheck
    · obtain ⟨c₁, hc₁, hcs⟩ := bind_eq_ok hcs
      obtain ⟨c₂, hc₂, hcs⟩ := bind_eq_ok hcs
      cases hcs
      obtain ⟨hassumed₁, hwrites₁, hmodels₁⟩ := h.take_adds hc₁
      obtain ⟨hassumed₂, hwrites₂, hmodels₂⟩ := h.take_adds hc₂
      have h₁ := hside true trueEdge positive t c₁ htrue hpositive (List.Subset.refl _)
        (fun M => Iff.rfl) hc₁
      have h₂ := hside false falseEdge negative _ c₂ hfalse hnegative hsimplify hnegated hc₂
      have hparted : Parted callee c₁ c₂ (assumed callee c.state) t
          (simplifier.simplify (.not t)) := by
        refine ⟨hassumed₁ ▸ List.prefix_rfl, hassumed₂ ▸ List.prefix_rfl, hsimplify, fun M => ?_,
          fun f v s _ w _ => (hwrites₁ _).trans (hwrites₂ _).symm⟩
        rw [simplifier.eval_simplify]
        exact Bool.not_ne_self _
      refine ⟨.refl versions, ?_, ?_, ?_, .pair (P := fun σ => ∀ M, c.state.IsModel M →
        ReadsStore p σ M → t.Holds M) (fun σ => ?_) fun σ => ?_⟩
      · simp only [List.forall_mem_cons]
        exact ⟨h₁.1, h₂.1, fun _ hd => absurd hd List.not_mem_nil⟩
      · simp only [List.forall_mem_cons]
        exact ⟨h₁.2, h₂.2, fun _ hd => absurd hd List.not_mem_nil⟩
      · refine List.pairwise_pair.mpr ⟨_, _, _, Or.inl hparted⟩
      · rw [admits_iff_of_models hmodels₁]
        constructor
        · rintro ⟨M, hM, hread, hholds⟩
          exact ⟨⟨M, hM, hread⟩, (hsame σ M hM hread).mp hholds⟩
        · rintro ⟨⟨M, hM, hread⟩, hall⟩
          exact ⟨M, hM, hread, hall M hM hread⟩
      · rw [admits_iff_of_models hmodels₂]
        constructor
        · rintro ⟨M, hM, hread, hholds⟩
          refine ⟨⟨M, hM, hread⟩, fun hall => ?_⟩
          exact Bool.eq_false_iff.mp ((hnegated M).mp hholds) (hall M hM hread)
        · rintro ⟨⟨M, hM, hread⟩, hnot⟩
          refine ⟨M, hM, hread, (hnegated M).mpr (Bool.eq_false_iff.mpr fun hholds => hnot ?_)⟩
          exact (hsame σ M hM hread).mp hholds
    · obtain ⟨c₁, hc₁, hcs⟩ := bind_eq_ok hcs
      cases hcs
      have hall : ∀ M, c.state.IsModel M → t.Holds M := by
        intro M hM
        by_contra hnot
        have hcontrary : (Term.not t).Holds M := congrArg (!·) (Bool.eq_false_iff.mpr hnot)
        exact hnegativeCheck ((h.realizable_iff hcallee _ hoccursNot).mpr ⟨M, hM, hcontrary⟩)
      have h₁ := hside true trueEdge positive t c₁ htrue hpositive (List.Subset.refl _)
        (fun M => Iff.rfl) hc₁
      exact .single (.refl versions) h₁.1 h₁.2 fun σ => h.admits_whole hc₁ hall
    · obtain ⟨c₁, hc₁, hcs⟩ := bind_eq_ok hcs
      cases hcs
      have hnot : ∀ M, (Term.not t).Holds M ↔ t.eval M = false := fun M => Bool.not_eq_eq_eq_not
      have hall : ∀ M, c.state.IsModel M → (Term.not t).Holds M := by
        intro M hM
        refine (hnot M).mpr (Bool.eq_false_iff.mpr fun hholds => hpositiveCheck ?_)
        exact (h.realizable_iff hcallee _ hoccurs).mpr ⟨M, hM, hholds⟩
      have h₁ := hside false falseEdge negative (.not t) c₁ hfalse hnegative (List.Subset.refl _)
        hnot hc₁
      exact .single (.refl versions) h₁.1 h₁.2 fun σ => h.admits_whole hc₁ hall

theorem exists_model_at {st : State} {n : String} {s : SmtSort} (hn : ¬ st.Mentions n)
    (hM : st.IsModel M) (a : s.Carrier) :
    ∃ M', st.IsModel M' ∧ M' s n = a ∧ ∀ s' n', n' ≠ n → M' s' n' = M s' n' := by
  refine ⟨PartialModel.update M ⟨s, n, a⟩, hM.congr fun s' n' hn' => ?_,
    PartialModel.update_self M ⟨s, n, a⟩, fun s' n' hne => ?_⟩
  · refine PartialModel.update_of_ne fun heq => hn ?_
    cases heq
    exact hn'
  · exact PartialModel.update_of_ne fun heq => hne (congrArg Prod.snd heq).symm

/-- An assignment keeps the stores. -/
theorem Explored.visitAssignment (hp : p.WellSorted) (hcallee : Summarizable p callee)
    (h : Explored p callee versions c) {type : AssignmentType} {r : VariableReference}
    {e : Expression} (htype : c.state.vertex.type = .regular)
    (hinstruction : c.state.vertex.instruction = some (.assignmentInstruction type r e))
    (hc' : (executor simplifier solver).visitAssignment callee r e versions c =
      .ok (versions', c')) : Succeeds p callee versions versions' c [c'] := by
  obtain ⟨hexplored, hle⟩ := h.assign hp hcallee htype hinstruction hc'
  obtain ⟨l, hl⟩ := h.place
  obtain ⟨hrefs, hsort⟩ := hp.sorted hcallee.isInstance hl hinstruction
  obtain ⟨u, hu, hc'⟩ := bind_eq_ok hc'
  obtain ⟨w, hw, hwrite⟩ := bind_eq_ok hc'
  have hw : versions.find? (callee.scope ++ "." ++ r.getName) = some w := Etfa.Executor.getVersion_eq hw
  rw [← encode_sort hu] at hsort
  have hoccurs := encode_occurrences hrefs hu
  have hnew := h.fresh hsort hw
  have hmentions : ¬ c.state.Mentions (versioned (callee.scope ++ "." ++ r.getName) (w + 1)) := by
    intro hmentions
    obtain ⟨w', hw', hle'⟩ := h.le_of_mentions hmentions
    rw [hw] at hw'
    cases hw'
    omega
  obtain ⟨edge, next, v, -, -, -, hliteral, rfl, rfl⟩ := write_eq hwrite
  obtain ⟨trail, hlabelled⟩ := h.labelled
  have hassumptions : (c.state.pushHardConstraint c.state.assumptionLiteral
      (versioned (callee.scope ++ "." ++ r.getName) (w + 1)) u).assumptions =
        c.state.assumptions := by
    unfold State.pushHardConstraint
    split <;> rfl
  refine .single hle hexplored ⟨?_, ?_, ?_⟩ fun σ => ?_
  · exact hlabelled.traced.assumed_prefix (hlabelled.write hliteral).traced hliteral rfl
  · rintro n ⟨l, e', hn⟩
    exact ⟨l, e', hn.push⟩
  · rintro f v ⟨l, e', hn⟩
    rcases hn.of_push with hn | ⟨hname, -⟩
    · exact Or.inl ⟨l, e', hn⟩
    · obtain ⟨rfl, rfl⟩ := versioned_injective hname
      refine Or.inr fun w' hw' => ?_
      rw [hw] at hw'
      cases hw'
      exact Nat.lt_succ_self w
  · constructor
    · rintro ⟨M, hM, hread⟩
      exact ⟨M, ((isModel_pushHardConstraint hnew).mp (hM.of_eq hassumptions.symm rfl)).1, hread⟩
    · rintro ⟨M, hM, hread⟩
      obtain ⟨M', hM', hvalue, hother⟩ := exists_model_at hmentions hM (u.2.eval M)
      refine ⟨M', ?_, fun x s hx => ?_⟩
      · refine State.IsModel.of_eq ((isModel_pushHardConstraint hnew).mpr ⟨hM', ?_⟩) hassumptions rfl
        rw [hvalue]
        refine Term.eval_congr u.2 fun k hk => (hother k.1 k.2 ?_).symm
        obtain ⟨f, v', hv', hs, hkey⟩ := hoccurs k hk
        rintro hname
        rw [hkey] at hname
        obtain ⟨rfl, rfl⟩ := versioned_injective hname
        obtain ⟨w', hw', hbound⟩ := h.bounded _ _ _ hv' hs
        rw [hw] at hw'
        cases hw'
        omega
      · rw [hother s _ fun hname => absurd (versioned_injective hname).2 (by omega)]
        exact hread x s hx

theorem Explored.handleOnlySuccessor (h : Explored p callee versions c)
    (hkind : c.state.vertex.type = .entry ∨
      (c.state.vertex.type = .regular ∧ c.state.vertex.instruction = none))
    (hc' : (executor simplifier solver).handleOnlySuccessor callee c = .ok c') :
    Succeeds p callee versions versions c [c'] := by
  unfold Executor.handleOnlySuccessor at hc'
  split at hc'
  · rename_i nextLabel hlabels
    obtain ⟨next, hnext, hc'⟩ := bind_eq_ok hc'
    obtain ⟨st, hst, hc'⟩ := bind_eq_ok hc'
    cases hc'
    refine h.enter_succeeds hst ⟨_, Etfa.Executor.getVertex_eq hnext⟩ ?_
    intro inputs conf returnLabel frames hvertex hstack
    have hsuccessor : callee.cfg.getOnlySuccessor c.state.vertex.label = .ok next := by
      unfold Cfg.getOnlySuccessor
      rw [hlabels]
      exact hnext
    have hmove : (do
        let next ← callee.cfg.getOnlySuccessor conf.vertex.label
        .ok (conf.moveTo next)) = (.ok (conf.moveTo next) : Except String Etfa.Configuration) := by
      rw [hvertex, hsuccessor]
      rfl
    unfold Etfa.Program.step
    rw [hstack]
    dsimp only
    unfold Etfa.Program.stepIn
    rcases hkind with htype | ⟨htype, hinstruction⟩
    · rw [hvertex, htype, ← hvertex]
      exact hmove
    · rw [hvertex, htype, hinstruction, ← hvertex]
      exact hmove
  · cases hc'

/-- A step of a context that is not at the exit keeps the stores. -/
theorem Explored.execute (hp : p.WellSorted) (hcallee : Summarizable p callee)
    (h : Explored p callee versions c) {cs : List Context} (hexit : c.state.vertex.type ≠ .exit)
    (hcs : (executor simplifier solver).execute versions c = .ok (versions', cs)) :
    Succeeds p callee versions versions' c cs := by
  unfold Executor.execute at hcs
  rw [h.path.getFrame] at hcs
  dsimp only [bind, Except.bind] at hcs
  split at hcs
  · rename_i htype
    obtain ⟨c', hc', hcs⟩ := bind_eq_ok hcs
    cases hcs
    exact h.handleOnlySuccessor (Or.inl htype) hc'
  · rename_i htype
    split at hcs
    · rename_i hinstruction
      obtain ⟨c', hc', hcs⟩ := bind_eq_ok hcs
      cases hcs
      exact h.handleOnlySuccessor (Or.inr ⟨htype, hinstruction⟩) hc'
    · rename_i hinstruction
      obtain ⟨⟨versions₁, c'⟩, hc', hcs⟩ := bind_eq_ok hcs
      cases hcs
      exact h.visitAssignment hp hcallee htype hinstruction hc'
    · rename_i hinstruction
      obtain ⟨l, hl⟩ := h.place
      exact absurd hinstruction (hcallee.noHavoc l _ _ hl)
    · rename_i hinstruction
      obtain ⟨cs', hcs', hcs⟩ := bind_eq_ok hcs
      cases hcs
      exact h.visitIf hp hcallee htype hinstruction hcs'
    all_goals cases hcs
  · rename_i htype
    exact absurd htype hexit

end Steps

section Initial

variable {frame : Frame}

noncomputable def initialDefinitions (p : Etfa.Program) : Definitions String := fun n =>
  open Classical in if h : ∃ e : SortedTerm String,
      ∃ x s, p.sortOf x = some s ∧ n = versioned x 0 ∧ e = ⟨s, .constant s n⟩ then
    some h.choose else none

theorem initialDefinitions_iff {n : String} {e : SortedTerm String} :
    initialDefinitions p n = some e ↔
      ∃ x s, p.sortOf x = some s ∧ n = versioned x 0 ∧ e = ⟨s, .constant s n⟩ := by
  unfold initialDefinitions
  constructor
  · intro h
    split_ifs at h with hex
    cases h
    exact hex.choose_spec
  · rintro ⟨x, s, hx, hn, rfl⟩
    have hex : ∃ e : SortedTerm String, ∃ x s, p.sortOf x = some s ∧ n = versioned x 0 ∧
        e = ⟨s, .constant s n⟩ := ⟨_, x, s, hx, hn, rfl⟩
    rw [dif_pos hex]
    obtain ⟨x', s', hx', hn', he'⟩ := hex.choose_spec
    obtain ⟨rfl, -⟩ := versioned_injective (hn.symm.trans hn')
    rw [hx] at hx'
    cases hx'
    exact congrArg some he'

theorem initialDefinitions_acyclic : (initialDefinitions p).Acyclic where
  closed := by
    intro n s t hn k hk
    obtain ⟨x, s', hx, rfl, heq⟩ := initialDefinitions_iff.mp hn
    cases heq
    obtain rfl := List.mem_singleton.mp hk
    exact ⟨_, hn⟩
  wellFounded := by
    refine ⟨fun n => Acc.intro n ?_⟩
    rintro k ⟨s, t, hn, hne, -⟩
    obtain ⟨x, s', hx, rfl, heq⟩ := initialDefinitions_iff.mp hn
    cases heq
    exact absurd rfl hne

/-- The context in front of the first vertex, from where every store is taken. -/
theorem Explored.initial (hc : initialContext frame callee = .ok c)
    (hversions : ∀ x s, p.sortOf x = some s → versions.find? x = some 0) :
    Explored p callee versions c ∧ ∀ σ, p.SortsStore σ → Admits p c σ := by
  have hpath := PathContext.initial hc
  obtain ⟨v, hv, hc⟩ := bind_eq_ok hc
  cases hc
  have hassumes : ∀ l t, ¬ State.Assumes
      ⟨v, literalName callee.scope callee.cfg.entryLabel, OrderedMap.empty.emplace
        (literalName callee.scope callee.cfg.entryLabel) [.booleanValue true], .empty, .empty,
        OrderedMap.empty.emplaceAll (callee.cfg.interface.map fun v =>
          (callee.scope ++ "." ++ v.name, 0))⟩ l t := fun l t ht => List.not_mem_nil ht
  have hdefines : ∀ l n e, ¬ State.Defines
      ⟨v, literalName callee.scope callee.cfg.entryLabel, OrderedMap.empty.emplace
        (literalName callee.scope callee.cfg.entryLabel) [.booleanValue true], .empty, .empty,
        OrderedMap.empty.emplaceAll (callee.cfg.interface.map fun v =>
          (callee.scope ++ "." ++ v.name, 0))⟩ l n e := fun l n e hn => nomatch hn
  have hversion : ∀ f v, (OrderedMap.empty.emplaceAll (callee.cfg.interface.map fun v =>
      (callee.scope ++ "." ++ v.name, 0)) : Versions).find? f = some v →
      v = 0 ∧ ∃ x ∈ callee.cfg.interface, f = callee.scope ++ "." ++ x.name := by
    intro f v hv
    rw [OrderedMap.find?_emplaceAll, OrderedMap.find?_empty, Option.none_or] at hv
    obtain ⟨x, hx, heq⟩ := List.mem_map.mp (OrderedMap.mem_of_lookup hv)
    cases heq
    exact ⟨rfl, x, hx, rfl⟩
  have hfirst := OrderedMap.find?_emplace_self (m := .empty)
    (k := literalName callee.scope callee.cfg.entryLabel) [(.booleanValue true : Term String .bool)] rfl
  refine ⟨⟨hpath, ⟨_, Etfa.Executor.getVertex_eq hv⟩, ⟨[], ⟨.single ?_, fun l hl => ?_⟩, hfirst,
    fun l hl => ?_, fun l hl => ?_⟩, ⟨initialDefinitions p, initialDefinitions_acyclic,
      fun n e => ?_, fun n s hn => ?_, fun l t ht => absurd ht (hassumes l t), fun f v s hv hs => ?_⟩,
    fun f v hv => (hversion f v hv).2, fun f v s hv hs => ?_, ?_, ?_, [], ?_⟩, fun σ hσ => ?_⟩
  · rw [hfirst]
    rfl
  · rcases hl with hl | hl <;> cases hl
  · dsimp only at hl
    rw [OrderedMap.find?_emplace] at hl
    split_ifs at hl with hname
    · exact List.mem_singleton.mpr hname
    · cases hl
  · exact ⟨_, List.mem_singleton.mp hl⟩
  · rw [initialDefinitions_iff]
    exact ⟨Or.inr, fun h => h.resolve_left fun ⟨l, hl⟩ => hdefines l n e hl⟩
  · obtain ⟨x, s', hx, hname, heq⟩ := initialDefinitions_iff.mp hn
    cases heq
    exact ⟨x, hx, hname⟩
  · obtain ⟨rfl, -⟩ := hversion f v hv
    exact ⟨_, initialDefinitions_iff.mpr ⟨f, s, hs, rfl, rfl⟩⟩
  · obtain ⟨rfl, -⟩ := hversion f v hv
    exact ⟨0, hversions f s hs, le_rfl⟩
  · rintro n ⟨l, e, hn⟩
    exact absurd hn (hdefines l n e)
  · rintro n (⟨l, e, hn⟩ | ⟨e, ⟨l, t, ht, -⟩ | ⟨l, n', hn⟩, -⟩)
    · exact absurd hn (hdefines l n e)
    · exact absurd ht (hassumes l t)
    · exact absurd hn (hdefines l n' e)
  · intro inputs M conf returnLabel frames _ hstack hentry hread
    have hcurrent : ∀ x, ((OrderedMap.empty.emplaceAll (callee.cfg.interface.map fun v =>
        (callee.scope ++ "." ++ v.name, 0)) : Versions).find? x).getD 0 = 0 := by
      intro x
      cases hfind : (OrderedMap.empty.emplaceAll (callee.cfg.interface.map fun v =>
          (callee.scope ++ "." ++ v.name, 0)) : Versions).find? x with
      | none => rfl
      | some v => exact (hversion x v hfind).1
    rw [hv] at hentry
    cases hentry
    refine ⟨conf, .refl, rfl, rfl, rfl, (List.append_nil _).symm, fun x s hx => ?_, fun _ _ => rfl⟩
    rw [currentVersion, hcurrent]
    exact hread x s hx
  · obtain ⟨M, hM⟩ := exists_readsStore hσ
    exact ⟨M, ⟨fun l n e hn => absurd hn (hdefines l n e), fun l t ht => absurd ht (hassumes l t)⟩, hM⟩

end Initial

end Ahorn.Summarization
