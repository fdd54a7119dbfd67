import Ahorn.Definitions
import Ahorn.Renumbering
import Ahorn.SummarizationEngine

set_option autoImplicit false

/-!
# Re-versioning

The second pass replaces the constants one after the other, where old and new names overlap: a name
may become the old name of another version. A term that is filed is over one version of each
variable, so no constant is replaced twice, and all are renamed at once.
-/
namespace Ahorn

/-- A model of a summary. -/
structure Summary.IsModel (s : Summary) (M : Model String) : Prop where
  hardConstraints : Definitions.Respects s.hardConstraints.find? M
  assumptions : ∀ t ∈ s.assumptions, t.Holds M

namespace Summarization

open Etfa (Frame)
open Relation (ReflTransGen)

/-- A model of everything a state has filed. -/
structure State.IsModel (st : State) (M : Model String) : Prop where
  hardConstraints : ∀ l n e, st.Defines l n e → M e.1 n = e.2.eval M
  assumptions : ∀ l t, st.Assumes l t → t.Holds M

def renamed (ρ : String → String) (e : String × SortedTerm String) : String × SortedTerm String :=
  (ρ e.1, ⟨e.2.1, e.2.2.rename ρ⟩)

/-- The versions of each variable are numbered in their order: those that are written from 1 on, and
only the one a path begins with may stay in front of them. -/
structure Renumbers (st : State) (ρ : String → String) (w : String → ℕ → ℕ) : Prop where
  names : ∀ f v, st.Mentions (versioned f v) → ρ (versioned f v) = versioned f (w f v)
  strictMono : ∀ f v v', st.Mentions (versioned f v) → st.Mentions (versioned f v') → v < v' →
    w f v < w f v'
  written : ∀ f, ∃ k, w f '' {v | st.Writes (versioned f v)} = Set.Icc 1 k
  read : ∀ f v, st.Mentions (versioned f v) → ¬ st.Writes (versioned f v) → w f v = 0

/-- The summary is what a state has filed, with all constants renamed at once, and has the same
models. -/
structure Reversions (st : State) (ρ : String → String) (summary : PathSummary) : Prop where
  literals : ∀ l, st.FiledUnder l → l ∈ summary.assumptionLiterals
  assumptions : summary.assumptions = (summary.assumptionLiterals.flatMap fun l =>
    (st.assumptions.find? l).getD []).map (Term.rename ρ)
  hardConstraints : ∀ n e, summary.hardConstraints.find? n = some e ↔
    ∃ l n' e', st.Defines l n' e' ∧ (n, e) = renamed ρ (n', e')
  models : ∀ M, summary.IsModel M ↔ st.IsModel fun s n => M s (ρ n)
  exists_model : ∀ M, st.IsModel M →
    ∃ M', summary.IsModel M' ∧ ∀ s n, st.Mentions n → M' s (ρ n) = M s n

section SecondPass

variable {reversionedNames : VersionedMap String} {ρ : String → String} {st : State}
variable {literals : List String} {summary : PathSummary}

theorem reversionTerm_foldl {s : SmtSort} {ks : List (SmtSort × String)} {t : Term String s}
    (hget : ∀ k ∈ ks, VersionedMap.get k.2 reversionedNames = .ok (ρ k.2)) :
    ks.foldlM (fun t k => do
      let reversionedName ← VersionedMap.get k.2 reversionedNames
      Except.ok (t.substitute k.2 (.constant k.1 reversionedName))) t =
      .ok (ks.foldl (fun t k => t.substitute k.2 (.constant k.1 (ρ k.2))) t) := by
  induction ks generalizing t with
  | nil => rfl
  | cons k ks ih =>
    rw [List.forall_mem_cons] at hget
    rw [List.foldlM_cons, hget.1]
    exact ih hget.2

theorem reversionTerm_ok {s : SmtSort} {t : Term String s}
    (hget : ∀ k ∈ t.occurrences, VersionedMap.get k.2 reversionedNames = .ok (ρ k.2))
    (hcapture : ∀ k ∈ t.occurrences, ∀ k' ∈ t.occurrences, k'.2 = ρ k.2 → k'.2 = k.2) :
    reversionTerm reversionedNames t = .ok (t.rename ρ) := by
  have hmem : ∀ k, k ∈ t.constants → k ∈ t.occurrences := fun k => (t.mem_constants k).mp
  unfold reversionTerm
  rw [reversionTerm_foldl fun k hk => hget k (hmem k hk),
    Term.foldl_substitute_eq_bind ρ t.constants fun k hk k' hk' =>
      hcapture k (hmem k hk) k' (hmem k' hk')]
  refine congrArg Except.ok (Term.bind_congr t fun k hk => ?_)
  rw [if_pos ((t.mem_constants k).mpr hk)]

/-- What the second pass has taken over from the literals so far. -/
structure Reversioned (ρ : String → String) (st : State) (literals : List String)
    (summary : PathSummary) : Prop where
  assumptions : summary.assumptions =
    (literals.flatMap fun l => (st.assumptions.find? l).getD []).map (Term.rename ρ)
  hardConstraints : ∀ n, summary.hardConstraints.find? n =
    OrderedMap.lookup n ((literals.flatMap fun l =>
      ((st.hardConstraints.find? l).getD .empty).entries).map (renamed ρ))

theorem reversionAssumptions_ok (summary : PathSummary) {literal : String}
    (hterm : ∀ t, st.Assumes literal t → reversionTerm reversionedNames t = .ok (t.rename ρ)) :
    ∃ summary', reversionAssumptions reversionedNames st summary literal = .ok summary' ∧
      summary'.assumptions = summary.assumptions ++
        ((st.assumptions.find? literal).getD []).map (Term.rename ρ) ∧
      summary'.hardConstraints = summary.hardConstraints ∧
      summary'.assumptionLiterals = summary.assumptionLiterals := by
  unfold State.Assumes at hterm
  unfold reversionAssumptions
  cases hfind : st.assumptions.find? literal with
  | none => exact ⟨summary, rfl, (List.append_nil _).symm, rfl, rfl⟩
  | some assumptions =>
    rw [hfind, Option.getD_some] at hterm
    dsimp only
    rw [mapM_eq_ok hterm]
    exact ⟨_, rfl, rfl, rfl, rfl⟩

theorem reversionHardConstraint_ok {e : String × SortedTerm String}
    (hget : VersionedMap.get e.1 reversionedNames = .ok (ρ e.1))
    (hterm : reversionTerm reversionedNames e.2.2 = .ok (e.2.2.rename ρ)) :
    reversionHardConstraint reversionedNames e = .ok (renamed ρ e) := by
  unfold reversionHardConstraint
  rw [hterm, hget]
  rfl

theorem reversionHardConstraints_ok (summary : PathSummary) {literal : String}
    (hget : ∀ n e, st.Defines literal n e → VersionedMap.get n reversionedNames = .ok (ρ n))
    (hterm : ∀ n e, st.Defines literal n e →
      reversionTerm reversionedNames e.2 = .ok (e.2.rename ρ)) :
    ∃ summary', reversionHardConstraints reversionedNames st summary literal = .ok summary' ∧
      summary'.hardConstraints = summary.hardConstraints.emplaceAll
        (((st.hardConstraints.find? literal).getD .empty).entries.map (renamed ρ)) ∧
      summary'.assumptions = summary.assumptions ∧
      summary'.assumptionLiterals = summary.assumptionLiterals := by
  unfold State.Defines at hget hterm
  unfold reversionHardConstraints
  cases hfind : st.hardConstraints.find? literal with
  | none => exact ⟨summary, rfl, rfl, rfl, rfl⟩
  | some hardConstraints =>
    rw [hfind, Option.getD_some] at hget hterm
    have hentry : ∀ e ∈ hardConstraints.entries,
        reversionHardConstraint reversionedNames e = .ok (renamed ρ e) := by
      intro e he
      have hfind := (hardConstraints.find?_eq_some_iff e.1 e.2).mpr he
      exact reversionHardConstraint_ok (hget e.1 e.2 hfind) (hterm e.1 e.2 hfind)
    dsimp only
    rw [mapM_eq_ok hentry]
    exact ⟨_, rfl, rfl, rfl, rfl⟩

/-- The second pass comes to its end when every term is renamed at once. -/
theorem Reversioned.foldlM (h : Reversioned ρ st literals summary) (more : List String)
    (hget : ∀ n, st.Writes n → VersionedMap.get n reversionedNames = .ok (ρ n))
    (hterm : ∀ e, st.Files e → reversionTerm reversionedNames e.2 = .ok (e.2.rename ρ)) :
    ∃ summary', more.foldlM (reversionLiteral reversionedNames st) summary = .ok summary' ∧
      Reversioned ρ st (literals ++ more) summary' ∧
      summary'.assumptionLiterals = summary.assumptionLiterals := by
  induction more generalizing literals summary with
  | nil => exact ⟨summary, rfl, by rwa [List.append_nil], rfl⟩
  | cons literal more ih =>
    obtain ⟨s₁, h₁, hassumptions₁, hconstraints₁, hliterals₁⟩ :=
      reversionAssumptions_ok summary fun t (ht : st.Assumes literal t) =>
        hterm ⟨.bool, t⟩ (Or.inl ⟨literal, t, ht, rfl⟩)
    obtain ⟨s₂, h₂, hconstraints₂, hassumptions₂, hliterals₂⟩ :=
      reversionHardConstraints_ok s₁
        (fun n e (hn : st.Defines literal n e) => hget n ⟨literal, e, hn⟩)
        fun n e hn => hterm e (Or.inr ⟨literal, n, hn⟩)
    have hnext : Reversioned ρ st (literals ++ [literal]) s₂ := by
      constructor
      · rw [hassumptions₂, hassumptions₁, h.assumptions, List.flatMap_append, List.map_append,
          List.flatMap_singleton]
      · intro n
        rw [hconstraints₂, hconstraints₁, OrderedMap.find?_emplaceAll, h.hardConstraints,
          List.flatMap_append, List.map_append, OrderedMap.lookup_append, List.flatMap_singleton]
    obtain ⟨summary', hfold, hsummary', hliterals'⟩ := ih hnext
    refine ⟨summary', ?_, ?_, hliterals'.trans (hliterals₂.trans hliterals₁)⟩
    · rw [List.foldlM_cons]
      unfold reversionLiteral at hfold ⊢
      rw [h₁]
      change (reversionHardConstraints reversionedNames st s₁ literal >>= _) = _
      rw [h₂]
      exact hfold
    · rwa [List.append_assoc, List.singleton_append] at hsummary'

end SecondPass

section Occurrences

variable {st : State} {l n : String} {t : Term String .bool} {e : SortedTerm String} {b : Bool}
variable {literals : List String} {M M' : Model String}

theorem State.Assumes.filedUnder (h : st.Assumes l t) : st.FiledUnder l := by
  unfold State.Assumes at h
  cases hfind : st.assumptions.find? l with
  | none =>
    rw [hfind] at h
    cases h
  | some ts =>
    left
    rw [hfind]
    rfl

theorem State.Defines.filedUnder (h : st.Defines l n e) : st.FiledUnder l := by
  unfold State.Defines at h
  cases hfind : st.hardConstraints.find? l with
  | none =>
    rw [hfind] at h
    cases h
  | some m =>
    right
    rw [hfind]
    rfl

theorem mem_occurringNames : (n, b) ∈ st.occurringNames l ↔
    (b = false ∧ ∃ t, st.Assumes l t ∧ ∃ s, (s, n) ∈ t.occurrences) ∨
      ∃ n' e, st.Defines l n' e ∧ (b = true ∧ n = n' ∨ b = false ∧ ∃ s, (s, n) ∈ e.2.occurrences) := by
  unfold State.occurringNames State.Assumes State.Defines
  rw [List.mem_append, List.mem_flatMap, List.mem_flatMap]
  refine or_congr ?_ ?_
  · simp only [List.mem_map, Term.mem_constants, Prod.mk.injEq, Prod.exists]
    constructor
    · rintro ⟨t, ht, s, n', hk, rfl, rfl⟩
      exact ⟨rfl, t, ht, s, hk⟩
    · rintro ⟨rfl, t, ht, s, hk⟩
      exact ⟨t, ht, s, n, hk, rfl, rfl⟩
  · simp only [List.mem_cons, List.mem_map, Term.mem_constants, Prod.mk.injEq, Prod.exists,
      OrderedMap.find?_eq_some_iff]
    constructor
    · rintro ⟨n', e, hentry, ⟨rfl, rfl⟩ | ⟨s, n'', hk, rfl, rfl⟩⟩
      · exact ⟨n, e, hentry, Or.inl ⟨rfl, rfl⟩⟩
      · exact ⟨n', e, hentry, Or.inr ⟨rfl, s, hk⟩⟩
    · rintro ⟨n', e, hentry, ⟨rfl, rfl⟩ | ⟨rfl, s, hk⟩⟩
      · exact ⟨n, e, hentry, Or.inl ⟨rfl, rfl⟩⟩
      · exact ⟨n', e, hentry, Or.inr ⟨s, n, hk, rfl, rfl⟩⟩

theorem mem_occurring_true (hfiled : ∀ l, st.FiledUnder l → l ∈ literals) :
    (n, true) ∈ literals.flatMap st.occurringNames ↔ st.Writes n := by
  constructor
  · intro h
    obtain ⟨l, -, hl⟩ := List.mem_flatMap.mp h
    rcases mem_occurringNames.mp hl with ⟨hb, -⟩ | ⟨n', e, hn, ⟨-, rfl⟩ | ⟨hb, -⟩⟩
    · cases hb
    · exact ⟨l, e, hn⟩
    · cases hb
  · rintro ⟨l, e, hn⟩
    exact List.mem_flatMap.mpr ⟨l, hfiled l hn.filedUnder,
      mem_occurringNames.mpr (Or.inr ⟨n, e, hn, Or.inl ⟨rfl, rfl⟩⟩)⟩

theorem exists_mem_occurring (hfiled : ∀ l, st.FiledUnder l → l ∈ literals) :
    (∃ b, (n, b) ∈ literals.flatMap st.occurringNames) ↔ st.Mentions n := by
  constructor
  · rintro ⟨b, hb⟩
    obtain ⟨l, hl, hb⟩ := List.mem_flatMap.mp hb
    rcases mem_occurringNames.mp hb with ⟨-, t, ht, hn⟩ | ⟨n', e, he, ⟨-, rfl⟩ | ⟨-, hn⟩⟩
    · exact Or.inr ⟨⟨.bool, t⟩, Or.inl ⟨l, t, ht, rfl⟩, hn⟩
    · exact Or.inl ⟨l, e, he⟩
    · exact Or.inr ⟨e, Or.inr ⟨l, n', he⟩, hn⟩
  · rintro (hn | ⟨e, ⟨l, t, ht, rfl⟩ | ⟨l, n', he⟩, hn⟩)
    · exact ⟨true, (mem_occurring_true hfiled).mpr hn⟩
    · exact ⟨false, List.mem_flatMap.mpr ⟨l, hfiled l ht.filedUnder,
        mem_occurringNames.mpr (Or.inl ⟨rfl, t, ht, hn⟩)⟩⟩
    · exact ⟨false, List.mem_flatMap.mpr ⟨l, hfiled l he.filedUnder,
        mem_occurringNames.mpr (Or.inr ⟨n', e, he, Or.inr ⟨rfl, hn⟩⟩)⟩⟩

theorem Versioning.mentions (h : Versioning st) (hn : st.Mentions n) :
    ∃ f v, n = versioned f v ∧ st.Settled f v := by
  rcases hn with hn | ⟨e, he, s, hk⟩
  · obtain ⟨f, v, rfl⟩ := h.names n hn
    exact ⟨f, v, rfl, Or.inr hn⟩
  · obtain ⟨σ, hσ⟩ := h.terms e he
    obtain ⟨f, hkey, hsettled⟩ := hσ _ hk
    exact ⟨f, σ f, hkey, hsettled⟩

theorem Versioning.settled (h : Versioning st) {f : String} {v : ℕ}
    (hn : st.Mentions (versioned f v)) : st.Settled f v := by
  obtain ⟨f', v', heq, hsettled⟩ := h.mentions hn
  obtain ⟨rfl, rfl⟩ := versioned_injective heq
  exact hsettled

theorem State.IsModel.congr (h : st.IsModel M) (heq : ∀ s n, st.Mentions n → M' s n = M s n) :
    st.IsModel M' := by
  have heval : ∀ e : SortedTerm String, st.Files e → e.2.eval M' = e.2.eval M := fun e he =>
    Term.eval_congr e.2 fun k hk => heq k.1 k.2 (Or.inr ⟨e, he, k.1, hk⟩)
  constructor
  · intro l n e hn
    rw [heq e.1 n (Or.inl ⟨l, e, hn⟩), heval e (Or.inr ⟨l, n, hn⟩)]
    exact h.hardConstraints l n e hn
  · intro l t ht
    unfold Term.Holds
    rw [heval ⟨.bool, t⟩ (Or.inl ⟨l, t, ht, rfl⟩)]
    exact h.assumptions l t ht

end Occurrences

section Renumbering

variable {st : State} {ρ : String → String} {w : String → ℕ → ℕ} {summary : PathSummary}

theorem Renumbers.injective (h : Renumbers st ρ w) (hversions : Versioning st) {n n' : String}
    (hn : st.Mentions n) (hn' : st.Mentions n') (heq : ρ n = ρ n') : n = n' := by
  obtain ⟨f, v, rfl, -⟩ := hversions.mentions hn
  obtain ⟨f', v', rfl, -⟩ := hversions.mentions hn'
  rw [h.names f v hn, h.names f' v' hn'] at heq
  obtain ⟨rfl, hw⟩ := versioned_injective heq
  rcases lt_trichotomy v v' with hlt | rfl | hgt
  · exact absurd hw (h.strictMono f v v' hn hn' hlt).ne
  · rfl
  · exact absurd hw (h.strictMono f v' v hn' hn hgt).ne'

theorem Renumbers.not_captured (h : Renumbers st ρ w) {e : SortedTerm String} (he : st.Files e)
    (hat : st.AtVersions e.2) : ∀ k ∈ e.2.occurrences, ∀ k' ∈ e.2.occurrences, k'.2 = ρ k.2 →
      k'.2 = k.2 := by
  obtain ⟨σ, hσ⟩ := hat
  intro k hk k' hk' heq
  have hmention : st.Mentions k.2 := Or.inr ⟨e, he, k.1, hk⟩
  obtain ⟨f, hkey, -⟩ := hσ k hk
  obtain ⟨f', hkey', -⟩ := hσ k' hk'
  rw [hkey] at hmention
  rw [hkey, hkey', h.names f (σ f) hmention] at heq
  obtain ⟨rfl, -⟩ := versioned_injective heq
  rw [hkey, hkey']

/-- A summary with the terms renamed at once has the models of the state. -/
theorem Reversioned.models (h : Reversioned ρ st summary.assumptionLiterals summary)
    (hliterals : ∀ l, st.FiledUnder l → l ∈ summary.assumptionLiterals)
    (hconstraints : ∀ n e, summary.hardConstraints.find? n = some e ↔
      ∃ l n' e', st.Defines l n' e' ∧ (n, e) = renamed ρ (n', e')) (M : Model String) :
    summary.IsModel M ↔ st.IsModel fun s n => M s (ρ n) := by
  constructor
  · rintro ⟨hrespects, hassumptions⟩
    constructor
    · intro l n e hn
      rw [← Term.eval_rename]
      exact hrespects (ρ n) e.1 (e.2.rename ρ) ((hconstraints _ _).mpr ⟨l, n, e, hn, rfl⟩)
    · intro l t ht
      unfold Term.Holds
      rw [← Term.eval_rename]
      apply hassumptions
      rw [h.assumptions]
      exact List.mem_map_of_mem (List.mem_flatMap.mpr ⟨l, hliterals l ht.filedUnder, ht⟩)
  · rintro ⟨hdefines, hassumes⟩
    constructor
    · intro n s t hn
      obtain ⟨l, n', e', hn', heq⟩ := (hconstraints _ _).mp hn
      cases heq
      rw [Term.eval_rename]
      exact hdefines l n' e' hn'
    · intro t ht
      rw [h.assumptions] at ht
      obtain ⟨t', ht', rfl⟩ := List.mem_map.mp ht
      obtain ⟨l, -, ht'⟩ := List.mem_flatMap.mp ht'
      unfold Term.Holds
      rw [Term.eval_rename]
      exact hassumes l t' ht'

theorem Renumbers.exists_model (h : Renumbers st ρ w) (hversions : Versioning st)
    (hmodels : ∀ M, summary.IsModel M ↔ st.IsModel fun s n => M s (ρ n)) {M : Model String}
    (hM : st.IsModel M) :
    ∃ M', summary.IsModel M' ∧ ∀ s n, st.Mentions n → M' s (ρ n) = M s n := by
  classical
  let M' : Model String := fun s n' =>
    if hn : ∃ n, st.Mentions n ∧ ρ n = n' then M s hn.choose else M s n'
  have hvalue : ∀ s n, st.Mentions n → M' s (ρ n) = M s n := by
    intro s n hn
    have hex : ∃ n', st.Mentions n' ∧ ρ n' = ρ n := ⟨n, hn, rfl⟩
    have hchoose : hex.choose = n :=
      h.injective hversions hex.choose_spec.1 hn hex.choose_spec.2
    change (if hn : ∃ n', st.Mentions n' ∧ ρ n' = ρ n then M s hn.choose else M s (ρ n)) = _
    rw [dif_pos hex, hchoose]
  exact ⟨M', (hmodels M').mpr (hM.congr hvalue), hvalue⟩

end Renumbering

section Sufficient

open ContextualizedNames (rank Collects)

variable {st : State} {literals : List String} {callee : Frame} {c : Context}
variable {ρ : String → String} {w : String → ℕ → ℕ} {summary : PathSummary}

noncomputable def rankedName (occurring : List (String × Bool)) (name : String) : String :=
  versioned (decontextualize name)
    (rank occurring (decontextualize name) ((extractVersion name).toOption.getD 0))

theorem rankedName_versioned (occurring : List (String × Bool)) {f : String} (hf : Plain f) (v : ℕ) :
    rankedName occurring (versioned f v) = versioned f (rank occurring f v) := by
  unfold rankedName
  rw [decontextualize_versioned hf, extractVersion_versioned hf]
  rfl

theorem exists_version_bound (occurring : List (String × Bool)) (f : String) :
    ∃ b, ∀ v, (versioned f v, true) ∈ occurring → v < b := by
  induction occurring with
  | nil => exact ⟨0, fun v hv => absurd hv List.not_mem_nil⟩
  | cons x occurring ih =>
    obtain ⟨b, hb⟩ := ih
    by_cases hx : ∃ u, x = (versioned f u, true)
    · obtain ⟨u, rfl⟩ := hx
      refine ⟨max b (u + 1), fun v hv => ?_⟩
      rcases List.mem_cons.mp hv with heq | hv
      · have hvu := (versioned_injective (congrArg Prod.fst heq)).2
        omega
      · exact lt_max_of_lt_left (hb v hv)
    · refine ⟨b, fun v hv => ?_⟩
      exact hb v ((List.mem_cons.mp hv).resolve_left fun heq => hx ⟨v, heq.symm⟩)

theorem Versioning.renumbers (h : Versioning st) (hfiled : ∀ l, st.FiledUnder l → l ∈ literals)
    (hplain : ∀ f v, st.Mentions (versioned f v) → Plain f) :
    Renumbers st (rankedName (literals.flatMap st.occurringNames))
      (rank (literals.flatMap st.occurringNames)) := by
  classical
  have hwritten : ∀ f v, (versioned f v, true) ∈ literals.flatMap st.occurringNames ↔
      st.Writes (versioned f v) := fun f v => mem_occurring_true hfiled
  constructor
  · exact fun f v hv => rankedName_versioned _ (hplain f v hv) v
  · intro f v v' _ hv' hlt
    have hwrites : (versioned f v', true) ∈ literals.flatMap st.occurringNames :=
      (hwritten f v').mpr ((h.settled hv').resolve_left (by omega))
    unfold rank
    rw [Nat.count_succ (p := _) v', if_pos hwrites]
    exact Nat.lt_succ_of_le (Nat.count_monotone _ hlt)
  · intro f
    obtain ⟨b, hb⟩ := exists_version_bound (literals.flatMap st.occurringNames) f
    refine ⟨Nat.count (fun v => (versioned f v, true) ∈ literals.flatMap st.occurringNames) b, ?_⟩
    simp only [← hwritten]
    exact image_count_eq_Icc hb
  · intro f v hv hnot
    obtain rfl := (h.settled hv).resolve_right hnot
    unfold rank
    rw [Nat.count_succ, if_neg fun hw => hnot ((hwritten f 0).mp hw), Nat.count_zero]

theorem Versioning.firstPass (h : Versioning st) (hfiled : ∀ l, st.FiledUnder l → l ∈ literals)
    (hplain : ∀ f v, st.Mentions (versioned f v) → Plain f ∧ Declares callee f) :
    ∃ names reversionedNames ρ w, (literals.flatMap st.occurringNames).foldlM
        ContextualizedNames.insert (.initial callee) = .ok names ∧
      names.contextualizedNamesToReversionedNames = .ok reversionedNames ∧ Renumbers st ρ w ∧
      ∀ n, st.Mentions n → VersionedMap.get n reversionedNames = .ok (ρ n) := by
  have hmentions := fun n => exists_mem_occurring (n := n) hfiled
  have hnumbers := h.renumbers hfiled fun f v hv => (hplain f v hv).1
  have hoccurring : ∀ x ∈ literals.flatMap st.occurringNames,
      ∃ f v, x.1 = versioned f v ∧ Plain f ∧ Declares callee f := by
    intro x hx
    have hmention := (hmentions x.1).mp ⟨x.2, hx⟩
    obtain ⟨f, v, hname, -⟩ := h.mentions hmention
    rw [hname] at hmention
    exact ⟨f, v, hname, hplain f v hmention⟩
  obtain ⟨names, hnames, hcollects⟩ := ContextualizedNames.collects_initial.foldlM hoccurring
  obtain ⟨reversionedNames, hreversioned, hget⟩ := hcollects.reversioned
    (fun k b hk => (hplain _ _ ((hmentions k.name).mp ⟨b, hk⟩)).1)
    fun k b hk => (hplain _ _ ((hmentions k.name).mp ⟨b, hk⟩)).2
  refine ⟨names, reversionedNames, _, _, hnames, hreversioned, hnumbers, fun n hn => ?_⟩
  obtain ⟨f, v, rfl, -⟩ := h.mentions hn
  obtain ⟨b, hb⟩ := (hmentions _).mpr hn
  rw [hnumbers.names f v hn]
  exact hget f v b hb

theorem Reversioned.find?_iff (h : Reversioned ρ st literals summary) (hversions : Versioning st)
    (hnumbers : Renumbers st ρ w) (hfiled : ∀ l, st.FiledUnder l → l ∈ literals)
    (hunique : ∀ l l' n e e', st.Defines l n e → st.Defines l' n e' → e = e') (n : String)
    (e : SortedTerm String) : summary.hardConstraints.find? n = some e ↔
      ∃ l n' e', st.Defines l n' e' ∧ (n, e) = renamed ρ (n', e') := by
  have hentries : ∀ x, x ∈ (literals.flatMap fun l =>
        ((st.hardConstraints.find? l).getD .empty).entries).map (renamed ρ) ↔
      ∃ l n' e', st.Defines l n' e' ∧ x = renamed ρ (n', e') := by
    intro x
    constructor
    · intro hx
      obtain ⟨⟨n', e'⟩, hentry, rfl⟩ := List.mem_map.mp hx
      obtain ⟨l, -, hentry⟩ := List.mem_flatMap.mp hentry
      exact ⟨l, n', e', (OrderedMap.find?_eq_some_iff _ _ _).mpr hentry, rfl⟩
    · rintro ⟨l, n', e', hdefines, rfl⟩
      have hentry := (OrderedMap.find?_eq_some_iff _ _ _).mp hdefines
      exact List.mem_map_of_mem (List.mem_flatMap.mpr ⟨l, hfiled l hdefines.filedUnder, hentry⟩)
  rw [h.hardConstraints, ← hentries]
  refine ⟨OrderedMap.mem_of_lookup, fun hx => OrderedMap.lookup_eq_some_of_mem hx fun e₂ hx₂ => ?_⟩
  obtain ⟨l, n', e', hdefines, heq⟩ := (hentries _).mp hx
  obtain ⟨l₂, n₂, e₂', hdefines₂, heq₂⟩ := (hentries _).mp hx₂
  obtain ⟨hn, he⟩ := Prod.mk.inj heq
  obtain ⟨hn₂, he₂⟩ := Prod.mk.inj heq₂
  have hsame : n₂ = n' := hnumbers.injective hversions (Or.inl ⟨l₂, e₂', hdefines₂⟩)
    (Or.inl ⟨l, e', hdefines⟩) (hn₂.symm.trans hn)
  subst hsame
  obtain rfl := hunique l₂ l n₂ e₂' e' hdefines₂ hdefines
  rw [he, he₂]

theorem PathContext.summarize_ok (h : PathContext callee c)
    (hplain : ∀ f v, c.state.Mentions (versioned f v) → Plain f ∧ Declares callee f)
    (hunique : ∀ l l' n e e', c.state.Defines l n e → c.state.Defines l' n e' → e = e') :
    ∃ ρ w summary, summarize c = .ok summary ∧ Renumbers c.state ρ w ∧
      Reversions c.state ρ summary := by
  obtain ⟨trail, htraced⟩ := h.traced
  have hversions := h.versioning
  have hfiled : ∀ l, c.state.FiledUnder l → l ∈ (c.state.assumptionLiteral :: trail).reverse :=
    fun l hl => List.mem_reverse.mpr (htraced.filed l hl)
  obtain ⟨names, reversionedNames, ρ, w, hnames, hreversioned, hnumbers, hget⟩ :=
    hversions.firstPass hfiled hplain
  have hterm : ∀ e, c.state.Files e → reversionTerm reversionedNames e.2 = .ok (e.2.rename ρ) :=
    fun e he => reversionTerm_ok (fun k hk => hget k.2 (Or.inr ⟨e, he, k.1, hk⟩))
      (hnumbers.not_captured he (hversions.terms e he))
  have hstart : Reversioned ρ c.state []
      ⟨⟨[], .empty, (c.state.assumptionLiteral :: trail).reverse⟩, .empty, .empty⟩ :=
    ⟨rfl, fun _ => rfl⟩
  obtain ⟨summary, hsummary, hpass, hliterals⟩ := hstart.foldlM
    (c.state.assumptionLiteral :: trail).reverse (fun n hn => hget n (Or.inl hn)) hterm
  dsimp only at hliterals
  have hsummarize : summarize c = .ok summary := by
    unfold summarize
    rw [h.getFrame]
    change (flattenAssumptionLiterals callee c.state >>= _) = _
    rw [htraced.flatten]
    change (((c.state.assumptionLiteral :: trail).reverse.flatMap c.state.occurringNames).foldlM
      ContextualizedNames.insert (ContextualizedNames.initial callee) >>= _) = _
    rw [hnames]
    change (names.contextualizedNamesToReversionedNames >>= _) = _
    rw [hreversioned]
    exact hsummary
  rw [List.nil_append, ← hliterals] at hpass
  rw [← hliterals] at hfiled
  have hconstraints := hpass.find?_iff hversions hnumbers hfiled hunique
  have hmodels := hpass.models hfiled hconstraints
  exact ⟨ρ, w, summary, hsummarize, hnumbers, hfiled, hpass.assumptions, hconstraints, hmodels,
    fun M hM => hnumbers.exists_model hversions hmodels hM⟩

end Sufficient

section Necessary

variable {callee : Frame} {c : Context} {st : State} {reversionedNames : VersionedMap String}
variable {ρ : String → String} {w : String → ℕ → ℕ} {summary : PathSummary} {f n : String}

/-- A version of a variable of the interface, whose name the summarizer reads back. -/
def IsReversioned (frame : Frame) (name : String) : Prop :=
  ∃ f u, name = versioned f u ∧ Plain f ∧ Declares frame f

/-- What is collected for a variable of the interface has its name in front of the underscore. -/
def Sorted (frame : Frame) (names : ContextualizedNames) : Prop :=
  ∀ f l, names.flattenedNamesToContextualizedNames.find? f = some l →
    Declares frame f ∧ ∀ e ∈ l, decontextualize e.1 = f

theorem sorted_initial (frame : Frame) : Sorted frame (.initial frame) := by
  intro f l hl
  constructor
  · rw [← ContextualizedNames.collects_initial.declared, hl]
    rfl
  · rw [ContextualizedNames.find?_initial] at hl
    obtain ⟨v, -, heq⟩ := List.mem_map.mp (OrderedMap.mem_of_lookup hl)
    cases heq
    exact fun e he => absurd he List.not_mem_nil

theorem Sorted.insert {names names' : ContextualizedNames} (h : Sorted callee names)
    {occurring : String × Bool} (hnames' : names.insert occurring = .ok names') :
    Sorted callee names' := by
  obtain ⟨modified, -, hnames'⟩ := bind_eq_ok hnames'
  dsimp only at hnames'
  split at hnames'
  · cases hnames'
  · rename_i l hl
    obtain ⟨l', hl', hnames'⟩ := bind_eq_ok hnames'
    cases hnames'
    intro f l₁ hl₁
    dsimp only at hl₁
    rw [OrderedMap.find?_assign] at hl₁
    split_ifs at hl₁ with hf
    · cases hl₁
      subst hf
      obtain ⟨hdeclares, hl⟩ := h _ _ hl
      refine ⟨hdeclares, fun e he => ?_⟩
      rcases VersionedMap.mem_emplace hl' e he with rfl | he
      · rfl
      · exact hl e he
    · exact h f l₁ hl₁

theorem number_isReversioned {modified l : VersionedMap Unit} {version : ℕ}
    {reversioned reversioned' : VersionedMap String} (hl : ∀ e ∈ l, decontextualize e.1 = f)
    (hf : Declares callee f) (hreversioned : ∀ e ∈ reversioned, IsReversioned callee e.2)
    (h : ContextualizedNames.number modified f l version reversioned = .ok reversioned') :
    ∀ e ∈ reversioned', IsReversioned callee e.2 := by
  induction l generalizing version reversioned with
  | nil =>
    cases h
    exact hreversioned
  | cons x l ih =>
    rw [List.forall_mem_cons] at hl
    obtain ⟨version', -, h⟩ := bind_eq_ok h
    obtain ⟨reversioned₁, h₁, h⟩ := bind_eq_ok h
    refine ih hl.2 (fun e he => ?_) h
    rcases VersionedMap.mem_emplace h₁ e he with rfl | he
    · refine ⟨f, version', rfl, ?_, hf⟩
      rw [← hl.1]
      exact plain_decontextualize _
    · exact hreversioned e he

theorem Sorted.isReversioned {names : ContextualizedNames} (h : Sorted callee names)
    (hnames : names.contextualizedNamesToReversionedNames = .ok reversionedNames) :
    ∀ e ∈ reversionedNames, IsReversioned callee e.2 := by
  unfold ContextualizedNames.contextualizedNamesToReversionedNames at hnames
  refine foldlM_preserves (P := fun r => ∀ e ∈ r, IsReversioned callee e.2)
    (fun x hx r r' hr hr' => ?_) (fun e he => absurd he List.not_mem_nil) hnames
  obtain ⟨hf, hl⟩ := h x.1 x.2 ((OrderedMap.find?_eq_some_iff _ _ _).mpr hx)
  exact number_isReversioned hl hf hr hr'

theorem reversionTerm_isReversioned
    (hnames : ∀ e ∈ reversionedNames, IsReversioned callee e.2) {s : SmtSort} {t t' : Term String s}
    (h : reversionTerm reversionedNames t = .ok t') :
    ∀ k ∈ t'.occurrences, IsReversioned callee k.2 := by
  have hloop : ∀ (ks : List (SmtSort × String)) (t : Term String s),
      ks.foldlM (fun t k => do
        let reversionedName ← VersionedMap.get k.2 reversionedNames
        Except.ok (t.substitute k.2 (.constant k.1 reversionedName))) t = .ok t' →
      ∀ k ∈ t'.occurrences, IsReversioned callee k.2 ∨ k ∈ t.occurrences ∧ k ∉ ks := by
    intro ks
    induction ks with
    | nil =>
      intro t ht
      cases ht
      exact fun k hk => Or.inr ⟨hk, List.not_mem_nil⟩
    | cons q ks ih =>
      intro t ht k hk
      rw [List.foldlM_cons] at ht
      obtain ⟨t₁, ht₁, ht⟩ := bind_eq_ok ht
      obtain ⟨name, hname, ht₁⟩ := bind_eq_ok ht₁
      cases ht₁
      rcases ih _ ht k hk with hk | ⟨hk, hnot⟩
      · exact Or.inl hk
      · rcases Term.mem_occurrences_substitute hk with hk | ⟨hk, hne⟩
        · obtain rfl := List.mem_singleton.mp hk
          obtain ⟨e, he, rfl⟩ := VersionedMap.exists_mem_of_get hname
          exact Or.inl (hnames e he)
        · exact Or.inr ⟨hk, fun hmem => (List.mem_cons.mp hmem).elim hne hnot⟩
  intro k hk
  rcases hloop t.constants t h k hk with hk | ⟨hk, hnot⟩
  · exact hk
  · exact absurd ((t.mem_constants k).mpr hk) hnot

/-- Only versions of variables of the interface occur. -/
structure OnlyReversioned (frame : Frame) (summary : PathSummary) : Prop where
  assumptions : ∀ t ∈ summary.assumptions, ∀ k ∈ t.occurrences, IsReversioned frame k.2
  hardConstraints : ∀ n e, summary.hardConstraints.find? n = some e →
    IsReversioned frame n ∧ ∀ k ∈ e.2.occurrences, IsReversioned frame k.2

theorem reversionAssumptions_onlyReversioned
    (hnames : ∀ e ∈ reversionedNames, IsReversioned callee e.2) {summary' : PathSummary}
    {literal : String} (h : OnlyReversioned callee summary)
    (hsummary' : reversionAssumptions reversionedNames st summary literal = .ok summary') :
    OnlyReversioned callee summary' := by
  unfold reversionAssumptions at hsummary'
  split at hsummary'
  · cases hsummary'
    exact h
  · obtain ⟨ts, hts, hsummary'⟩ := bind_eq_ok hsummary'
    cases hsummary'
    refine ⟨fun t ht => ?_, h.hardConstraints⟩
    rcases List.mem_append.mp ht with ht | ht
    · exact h.assumptions t ht
    · obtain ⟨u, -, hu⟩ := exists_of_mem_mapM hts ht
      exact reversionTerm_isReversioned hnames hu

theorem reversionHardConstraints_onlyReversioned
    (hnames : ∀ e ∈ reversionedNames, IsReversioned callee e.2) {summary' : PathSummary}
    {literal : String} (h : OnlyReversioned callee summary)
    (hsummary' : reversionHardConstraints reversionedNames st summary literal = .ok summary') :
    OnlyReversioned callee summary' := by
  unfold reversionHardConstraints at hsummary'
  split at hsummary'
  · cases hsummary'
    exact h
  · obtain ⟨es, hes, hsummary'⟩ := bind_eq_ok hsummary'
    cases hsummary'
    refine ⟨h.assumptions, fun n e hn => ?_⟩
    dsimp only at hn
    rw [OrderedMap.find?_emplaceAll] at hn
    rcases Option.or_eq_some_iff.mp hn with hn | ⟨-, hn⟩
    · exact h.hardConstraints n e hn
    · obtain ⟨x, -, hx⟩ := exists_of_mem_mapM hes (OrderedMap.mem_of_lookup hn)
      obtain ⟨t, ht, hx⟩ := bind_eq_ok hx
      obtain ⟨name, hname, hx⟩ := bind_eq_ok hx
      cases hx
      obtain ⟨y, hy, rfl⟩ := VersionedMap.exists_mem_of_get hname
      exact ⟨hnames y hy, reversionTerm_isReversioned hnames ht⟩

theorem summarize_onlyReversioned (hframe : c.getFrame = .ok callee)
    (h : summarize c = .ok summary) : OnlyReversioned callee summary := by
  unfold summarize at h
  rw [hframe] at h
  obtain ⟨literals, -, h⟩ := bind_eq_ok (x := flattenAssumptionLiterals callee c.state) h
  obtain ⟨names, hnames, h⟩ := bind_eq_ok h
  obtain ⟨reversionedNames, hreversioned, h⟩ := bind_eq_ok h
  have hsorted : Sorted callee names := by
    refine foldlM_preserves (P := Sorted callee) (fun x _ n n' hn hn' => ?_) (sorted_initial callee)
      hnames
    exact hn.insert hn'
  have hall := hsorted.isReversioned hreversioned
  refine foldlM_preserves (P := OnlyReversioned callee) (fun l _ s s' hs hs' => ?_) ?_ h
  · obtain ⟨s₁, hs₁, hs'⟩ := bind_eq_ok hs'
    exact reversionHardConstraints_onlyReversioned hall
      (reversionAssumptions_onlyReversioned hall hs hs₁) hs'
  · exact ⟨fun t ht => absurd ht List.not_mem_nil, fun n e hn => by cases hn⟩

end Necessary

section Exactness

variable {simplifier : Simplifier String} {solver : Solver String} {p : Program} {g : Engine}
variable {callee : Frame} {c : Context} {st : State} {ρ : String → String} {w : String → ℕ → ℕ}
variable {summary : PathSummary} {n : String}

/-- The names on the path are versions of variables of the interface without an underscore, and the
path does not define a version twice in different ways. -/
structure Reversionable (c : Context) : Prop where
  names : ∀ f v, c.state.Mentions (versioned f v) → Plain f ∧
    ∃ frame, c.getFrame = .ok frame ∧ Declares frame f
  definitions : ∀ l l' n e e', c.state.Defines l n e → c.state.Defines l' n e' → e = e'

theorem Reversions.isReversioned (h : Reversions st ρ summary)
    (honly : OnlyReversioned callee summary) (hn : st.Mentions n) : IsReversioned callee (ρ n) := by
  rcases hn with ⟨l, e, hdefines⟩ | ⟨e, ⟨l, t, ht, rfl⟩ | ⟨l, n', hdefines⟩, s, hk⟩
  · exact (honly.hardConstraints _ _ ((h.hardConstraints _ _).mpr ⟨l, n, e, hdefines, rfl⟩)).1
  · have hmem : t.rename ρ ∈ summary.assumptions := by
      rw [h.assumptions]
      exact List.mem_map_of_mem (List.mem_flatMap.mpr ⟨l, h.literals l ht.filedUnder, ht⟩)
    exact honly.assumptions _ hmem (s, ρ n)
      ((Term.mem_occurrences_rename ρ t _).mpr ⟨n, hk, rfl⟩)
  · exact (honly.hardConstraints _ _ ((h.hardConstraints _ _).mpr ⟨l, n', e, hdefines, rfl⟩)).2
      (s, ρ n) ((Term.mem_occurrences_rename ρ e.2 _).mpr ⟨n, hk, rfl⟩)

theorem Renumbers.rename_injective (h : Renumbers st ρ w) (hversions : Versioning st)
    {e e' : SortedTerm String} (he : st.Files e) (he' : st.Files e')
    (heq : (⟨e.1, e.2.rename ρ⟩ : SortedTerm String) = ⟨e'.1, e'.2.rename ρ⟩) : e = e' := by
  have hinj : Set.InjOn ρ {n | st.Mentions n} := fun n hn n' hn' => h.injective hversions hn hn'
  have hback : ∀ u, st.Files u →
      (u.2.rename ρ).rename (Function.invFunOn ρ {n | st.Mentions n}) = u.2 := fun u hu =>
    Term.rename_rename_of_leftInverse fun k hk =>
      hinj.leftInvOn_invFunOn (Or.inr ⟨u, hu, k.1, hk⟩)
  obtain ⟨s, t⟩ := e
  obtain ⟨s', t'⟩ := e'
  obtain ⟨rfl, hterm⟩ := Sigma.mk.inj heq
  have ht := hback ⟨s, t⟩ he
  rw [eq_of_heq hterm, hback ⟨s, t'⟩ he'] at ht
  exact congrArg (Sigma.mk s) ht.symm

/-- For every context of every run of the engine, at the exit or on its way, the summarizer finds a
renaming in the order of the versions, applied to all constants at once, and a summary with the same
models exactly if it can read the names back and no version is defined in two ways. -/
theorem summarize_reversions_iff (hg : g.Reachable p (executor simplifier solver))
    (hc : c ∈ g.contexts) : (∃ ρ w summary, summarize c = .ok summary ∧ Renumbers c.state ρ w ∧
      Reversions c.state ρ summary) ↔ Reversionable c := by
  obtain ⟨callee, hpath⟩ := hg.pathContext c hc
  have hversions := hpath.versioning
  constructor
  · rintro ⟨ρ, w, summary, hsummary, hnumbers, hreversions⟩
    have honly := summarize_onlyReversioned hpath.getFrame hsummary
    constructor
    · intro f v hv
      obtain ⟨f', u, hname, hplain, hdeclares⟩ := hreversions.isReversioned honly hv
      rw [hnumbers.names f v hv] at hname
      obtain ⟨rfl, -⟩ := versioned_injective hname
      exact ⟨hplain, callee, hpath.getFrame, hdeclares⟩
    · intro l l' n e e' hn hn'
      have hfirst := (hreversions.hardConstraints _ _).mpr ⟨l, n, e, hn, rfl⟩
      have hsecond := (hreversions.hardConstraints _ _).mpr ⟨l', n, e', hn', rfl⟩
      exact hnumbers.rename_injective hversions (Or.inr ⟨l, n, hn⟩) (Or.inr ⟨l', n, hn'⟩)
        (Option.some.inj (hfirst.symm.trans hsecond))
  · rintro ⟨hnames, hdefinitions⟩
    refine hpath.summarize_ok (fun f v hv => ?_) hdefinitions
    obtain ⟨hplain, frame, hframe, hdeclares⟩ := hnames f v hv
    rw [hpath.getFrame] at hframe
    cases hframe
    exact ⟨hplain, hdeclares⟩

end Exactness

/-- A program whose only variables are those of the instance it calls. -/
def instanceF : Variable := ⟨"f", .derivedType "F", .local, none⟩

/-- PROGRAM P VAR f : F; END_VAR f(); END_PROGRAM -/
def callingF (exitLabel : ℤ) (interface : List Variable) : UnitCfg where
  labelToVertex := .emplaceAll .empty [(0, ⟨0, .entry, none⟩),
    (1, ⟨1, .regular, some (.callInstruction instanceF 2 3)⟩), (2, ⟨2, .exit, none⟩)]
  edges := [⟨0, 1, none, none, .intraprocedural⟩,
    ⟨1, 2, none, none, .intraproceduralCallToReturn⟩,
    ⟨1, 3, some "P", some 1, .interproceduralCall⟩,
    ⟨exitLabel, 2, some "P", some 1, .interproceduralReturn⟩]
  entryLabel := 0
  exitLabel := 2
  type := .program
  name := "P"
  interface := [instanceF]
  flattenedInterface := .emplaceAll .empty (interface.map fun v => ("P.f." ++ v.name, v))

def literal (l : ℤ) : Term String .bool := .constant .bool (literalName "P.f" l)

/-- The literals of the vertices on a path, each given with the one in front of it. -/
def literalsOf (path : List (ℤ × Term String .bool)) :
    OrderedMap String (List (Term String .bool)) :=
  .emplaceAll .empty (path.map fun e => (literalName "P.f" e.1, [e.2]))

namespace SingleAssignment

def written : Variable := ⟨"x_out", .bool, .output, none⟩

/-- A function block with one output, which becomes TRUE. -/
def unit : UnitCfg where
  labelToVertex := .emplaceAll .empty [(3, ⟨3, .entry, none⟩),
    (4, ⟨4, .regular, some (.assignmentInstruction .regular (.variableAccess written)
      (.booleanConstant true))⟩),
    (5, ⟨5, .exit, none⟩)]
  edges := [⟨3, 4, none, none, .intraprocedural⟩, ⟨4, 5, none, none, .intraprocedural⟩]
  entryLabel := 3
  exitLabel := 5
  type := .functionBlock
  name := "F"
  interface := [written]
  flattenedInterface := .emplaceAll .empty [("F.x_out", written)]

def program : Program where
  main := callingF 5 [written]
  getCfg := fun typeName => if typeName = "F" then some unit else none
  hasCallees := fun _ => false

def contextAt (vertex : Vertex) (path : List (ℤ × Term String .bool))
    (hardConstraints : OrderedMap String (OrderedMap String (SortedTerm String))) (version : ℕ) :
    Context where
  state := {
    vertex := vertex
    assumptionLiteral := literalName "P.f" vertex.label
    assumptionLiterals := literalsOf path
    assumptions := .empty
    hardConstraints := hardConstraints
    flattenedNameToVersion := .emplaceAll .empty [("P.f.x_out", version)] }
  callStack := [⟨unit, "P.f", 2⟩, ⟨callingF 5 [written], "P", 0⟩]

def engineAt (c : Context) (version : ℕ) : Engine where
  versions := .emplaceAll .empty [("P.f.x_out", version)]
  nameToSummaries := .empty
  contexts := [c]

def atEntry : Context := contextAt ⟨3, .entry, none⟩ [(3, .booleanValue true)] .empty 0

def atAssignment : Context :=
  contextAt ⟨4, .regular, some (.assignmentInstruction .regular (.variableAccess written)
      (.booleanConstant true))⟩
    [(3, .booleanValue true), (4, literal 3)] .empty 0

def atExit : Context :=
  contextAt ⟨5, .exit, none⟩ [(3, .booleanValue true), (4, literal 3), (5, literal 4)]
    (.emplace .empty "b_P.f_4"
      (.emplace .empty "P.f.x_out_1" ⟨.bool, .booleanValue true⟩)) 1

theorem reachable_exit (solver : Solver String) :
    (engineAt atExit 1).Reachable program (executor (.identity String) solver) := by
  have hinitial : Engine.initial program = .ok (engineAt atEntry 0) := rfl
  have hentry : (engineAt atEntry 0).step (executor (.identity String) solver) =
      .ok (engineAt atAssignment 0) := rfl
  have hassignment : (engineAt atAssignment 0).step (executor (.identity String) solver) =
      .ok (engineAt atExit 1) := rfl
  exact ⟨_, hinitial, .tail (.single hentry) hassignment⟩

/-- No variable of the interface has the name in front of the underscore. -/
theorem underscore_fails : ¬ ∀ (p : Program) (simplifier : Simplifier String)
    (solver : Solver String) (g : Engine) (c : Context),
    g.Reachable p (executor simplifier solver) → c ∈ g.contexts → c.state.vertex.type = .exit →
    ∃ ρ w summary, summarize c = .ok summary ∧ Renumbers c.state ρ w ∧
      Reversions c.state ρ summary := by
  intro h
  obtain ⟨ρ, w, summary, hsummary, -⟩ := h program (.identity String)
    (.classical String) _ _ (reachable_exit _) List.mem_cons_self rfl
  have herror : summarize atExit = .error "map::at" := rfl
  rw [herror] at hsummary
  cases hsummary

end SingleAssignment

namespace Switch

variable (solver : Solver String)

def i : Variable := ⟨"i", .bool, .input, none⟩

def x : Variable := ⟨"x", .bool, .output, none⟩

def read (v : Variable) : Expression := .reference (.variableAccess v)

def branch : Vertex := ⟨4, .regular, some (.ifInstruction (read i) 5 6)⟩

def setting : Vertex :=
  ⟨5, .regular, some (.assignmentInstruction .regular (.variableAccess x) (.booleanConstant true))⟩

def toggling : Vertex :=
  ⟨6, .regular, some (.assignmentInstruction .regular (.variableAccess x)
    (.unary .complement (read x)))⟩

def exit : Vertex := ⟨7, .exit, none⟩

/-- IF i THEN x := TRUE; ELSE x := NOT x; END_IF; -/
def unit : UnitCfg where
  labelToVertex := ⟨[(3, ⟨3, .entry, none⟩), (4, branch), (5, setting), (6, toggling), (7, exit)],
    by decide⟩
  edges := [
    { sourceLabel := 3, targetLabel := 4 },
    { sourceLabel := 4, targetLabel := 5, type := .trueBranch },
    { sourceLabel := 4, targetLabel := 6, type := .falseBranch },
    { sourceLabel := 5, targetLabel := 7 },
    { sourceLabel := 6, targetLabel := 7 }]
  entryLabel := 3
  exitLabel := 7
  type := .functionBlock
  name := "F"
  interface := [i, x]
  flattenedInterface := ⟨[("F.i", i), ("F.x", x)], by decide⟩

def program : Program where
  main := callingF 7 [i, x]
  getCfg := fun typeName => if typeName = "F" then some unit else none
  hasCallees := fun _ => false

/-- A path: its vertices, what it assumes behind the branch, what it writes there, and its version
of `x`. -/
def contextAt (vertex : Vertex) (path : List (ℤ × Term String .bool))
    (assumptions : List (ℤ × Term String .bool)) (writes : List (ℤ × ℕ × Term String .bool))
    (version : ℕ) : Context where
  state := {
    vertex := vertex
    assumptionLiteral := literalName "P.f" vertex.label
    assumptionLiterals := literalsOf ((3, .booleanValue true) :: path)
    assumptions := literalsOf assumptions
    hardConstraints := .emplaceAll .empty (writes.map fun e => (literalName "P.f" e.1,
      .emplace .empty (versioned "P.f.x" e.2.1) ⟨.bool, e.2.2⟩))
    flattenedNameToVersion := .emplaceAll .empty [("P.f.i", 0), ("P.f.x", version)] }
  callStack := [⟨unit, "P.f", 2⟩, ⟨callingF 7 [i, x], "P", 0⟩]

def engineAt (version : ℕ) (summaries : List PathSummary) (contexts : List Context) : Engine where
  versions := .emplaceAll .empty [("P.f.i", 0), ("P.f.x", version)]
  nameToSummaries := .emplaceAll .empty (if summaries = [] then [] else [("F", summaries)])
  contexts := contexts

def condition : Term String .bool := .constant .bool "P.f.i_0"

def toggled : Term String .bool := .not (.constant .bool "P.f.x_0")

def atEntry : Context := contextAt ⟨3, .entry, none⟩ [] [] [] 0

def atBranch : Context := contextAt branch [(4, literal 3)] [] [] 0

def atSetting : Context :=
  contextAt setting [(4, literal 3), (5, literal 4)] [(5, condition)] [] 0

def atToggling : Context :=
  contextAt toggling [(4, literal 3), (6, literal 4)] [(6, .not condition)] [] 0

/-- The path that goes first writes version 1, the other one version 2. -/
def toggledAtExit : Context :=
  contextAt exit [(4, literal 3), (6, literal 4), (7, literal 6)] [(6, .not condition)]
    [(6, 1, toggled)] 1

def setAtExit : Context :=
  contextAt exit [(4, literal 3), (5, literal 4), (7, literal 5)] [(5, condition)]
    [(5, 2, .booleanValue true)] 2

/-- What the summaries take over; the version is numbered again. -/
def toggledSummary : PathSummary where
  assumptions := [.not condition]
  hardConstraints := .emplace .empty "P.f.x_1" ⟨.bool, toggled⟩
  assumptionLiterals := ["b_P.f_3", "b_P.f_4", "b_P.f_6", "b_P.f_7"]
  assumptionLiteralsToAssumptions := .emplace .empty "b_P.f_6" [.not condition]
  assumptionLiteralsToHardConstraints :=
    .emplace .empty "b_P.f_6" (.emplace .empty "P.f.x_1" ⟨.bool, toggled⟩)

def setSummary : PathSummary where
  assumptions := [condition]
  hardConstraints := .emplace .empty "P.f.x_1" ⟨.bool, .booleanValue true⟩
  assumptionLiterals := ["b_P.f_3", "b_P.f_4", "b_P.f_5", "b_P.f_7"]
  assumptionLiteralsToAssumptions := .emplace .empty "b_P.f_5" [condition]
  assumptionLiteralsToHardConstraints :=
    .emplace .empty "b_P.f_5" (.emplace .empty "P.f.x_1" ⟨.bool, .booleanValue true⟩)

/-- What is asked of the solver about a side of the branch. -/
def question (l : ℤ) (side : Term String .bool) : List (Term String .bool) :=
  atBranch.state.encoding (.identity String) ++
    [.connective .implies (literal l) (literal 4), .connective .implies (literal l) side, literal l]

def modelWithout (names : List String) : Model String
  | .bool, n => decide (n ∉ names)
  | .int, _ => (0 : ℤ)

theorem step_atBranch : (engineAt 0 [] [atBranch]).step (executor (.identity String) solver) =
    .ok (engineAt 0 [] [atToggling, atSetting]) := by
  have hpositive : ∀ t ∈ question 5 condition, t.Holds (modelWithout []) := by decide +kernel
  have hnegative : ∀ t ∈ question 6 (.not condition), t.Holds (modelWithout ["P.f.i_0"]) := by
    decide +kernel
  have hframe : atBranch.getFrame = .ok ⟨unit, "P.f", 2⟩ := rfl
  have hfork : (executor (.identity String) solver).execute (engineAt 0 [] []).versions atBranch =
      .ok ((engineAt 0 [] []).versions, [atSetting, atToggling]) :=
    Executor.execute_fork hframe rfl rfl rfl rfl rfl rfl rfl
      ((solver.check_iff _).mpr ⟨_, hpositive⟩) ((solver.check_iff _).mpr ⟨_, hnegative⟩) rfl rfl
  unfold Engine.step engineAt at *
  dsimp only at hfork ⊢
  rw [hfork]
  rfl

theorem reachable_toggled : (engineAt 1 [toggledSummary] [atSetting]).Reachable program
    (executor (.identity String) solver) := by
  have hinitial : Engine.initial program = .ok (engineAt 0 [] [atEntry]) := rfl
  have hentry : (engineAt 0 [] [atEntry]).step (executor (.identity String) solver) =
      .ok (engineAt 0 [] [atBranch]) := rfl
  have htoggle : (engineAt 0 [] [atToggling, atSetting]).step
      (executor (.identity String) solver) = .ok (engineAt 1 [] [toggledAtExit, atSetting]) := rfl
  have hsummary : (engineAt 1 [] [toggledAtExit, atSetting]).step
      (executor (.identity String) solver) = .ok (engineAt 1 [toggledSummary] [atSetting]) := rfl
  exact ⟨_, hinitial, .tail (.tail (.tail (.single hentry) (step_atBranch solver)) htoggle) hsummary⟩

theorem reachable_set : (engineAt 2 [toggledSummary] [setAtExit]).Reachable program
    (executor (.identity String) solver) := by
  obtain ⟨g₀, hinitial, hrun⟩ := reachable_toggled solver
  have hset : (engineAt 1 [toggledSummary] [atSetting]).step (executor (.identity String) solver) =
      .ok (engineAt 2 [toggledSummary] [setAtExit]) := rfl
  exact ⟨g₀, hinitial, hrun.tail hset⟩

theorem assumes_set {l : String} {t : Term String .bool} (h : setAtExit.state.Assumes l t) :
    t = condition := by
  have hm : setAtExit.state.assumptions.find? l = if l = "b_P.f_5" then some [condition]
      else none := OrderedMap.find?_emplace _ _ _ _
  unfold State.Assumes at h
  rw [hm] at h
  split_ifs at h
  · exact List.mem_singleton.mp h
  · cases h

theorem defines_set {l n : String} {e : SortedTerm String} (h : setAtExit.state.Defines l n e) :
    n = versioned "P.f.x" 2 ∧ e = ⟨.bool, .booleanValue true⟩ := by
  have hm : setAtExit.state.hardConstraints.find? l = if l = "b_P.f_5" then
      some (.emplace .empty (versioned "P.f.x" 2) ⟨.bool, .booleanValue true⟩)
      else none := OrderedMap.find?_emplace _ _ _ _
  unfold State.Defines at h
  rw [hm] at h
  split_ifs at h
  · rw [Option.getD_some, OrderedMap.find?_emplace] at h
    split_ifs at h with hn
    · exact ⟨hn, (Option.some.inj h).symm⟩
    · cases h
  · cases h

theorem reversionable_set : Reversionable setAtExit := by
  have hdeclares : ∀ v ∈ unit.interface, Plain ("P.f." ++ v.name) := by
    intro v hv
    simp only [unit, List.mem_cons, List.not_mem_nil, or_false] at hv
    rcases hv with rfl | rfl <;> (unfold Plain; decide)
  constructor
  · rintro f v (⟨l, e, hn⟩ | ⟨e, ⟨l, t, ht, rfl⟩ | ⟨l, n, hn⟩, s, hk⟩)
    · obtain ⟨rfl, -⟩ := versioned_injective (defines_set hn).1
      exact ⟨hdeclares x (by simp [unit]), _, rfl, x, by simp [unit], rfl, rfl⟩
    · rw [assumes_set ht] at hk
      obtain ⟨rfl, -⟩ := versioned_injective (f := "P.f.i") (v := 0)
        (congrArg Prod.snd (List.mem_singleton.mp hk)).symm
      exact ⟨hdeclares i (by simp [unit]), _, rfl, i, by simp [unit], rfl, rfl⟩
    · obtain ⟨-, rfl⟩ := defines_set hn
      cases hk
  · intro l l' n e e' hn hn'
    rw [(defines_set hn).2, (defines_set hn').2]

/-- The version 2 the path writes gets the number 1. -/
theorem set_reversions : setAtExit.state.Writes (versioned "P.f.x" 2) ∧
    setSummary.hardConstraints.find? (versioned "P.f.x" 1) = some ⟨.bool, .booleanValue true⟩ ∧
    ∃ ρ w summary, summarize setAtExit = .ok summary ∧ Renumbers setAtExit.state ρ w ∧
      Reversions setAtExit.state ρ summary := by
  have hdefines : ((setAtExit.state.hardConstraints.find? "b_P.f_5").getD .empty).find?
      (versioned "P.f.x" 2) = some ⟨.bool, .booleanValue true⟩ := rfl
  exact ⟨⟨_, _, hdefines⟩, rfl, (summarize_reversions_iff
    (reachable_set (.classical String)) List.mem_cons_self).mpr reversionable_set⟩

end Switch

end Summarization

end Ahorn
