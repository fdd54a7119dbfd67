import Mathlib.Data.Nat.Count
import Mathlib.Data.Set.Image
import Mathlib.Order.Interval.Set.Basic
import Ahorn.PathSummarizer

set_option autoImplicit false

/-!
# The first pass of the summarizer

The versions of a variable are numbered in ascending order: a version gets the number of versions up
to it that the path writes. Where every version but the one the path begins with is written, no two
of them get the same number.
-/
namespace Ahorn

section Rank

variable {p : ℕ → Prop} [DecidablePred p] {a b u : ℕ}

theorem count_eq_of_gap (hbu : b ≤ u) (hgap : ∀ x, b ≤ x → x < u → ¬ p x) :
    Nat.count p u = Nat.count p b := by
  induction u, hbu using Nat.le_induction with
  | base => rfl
  | succ u hbu ih =>
    rw [Nat.count_succ, if_neg (hgap u hbu (Nat.lt_succ_self u)),
      ih fun x hx hxu => hgap x hx (hxu.trans (Nat.lt_succ_self u)), Nat.add_zero]

theorem exists_count_eq (ha : a ≠ 0) (hab : a ≤ Nat.count p b) :
    ∃ v, v < b ∧ p v ∧ Nat.count p (v + 1) = a := by
  induction b with
  | zero =>
    rw [Nat.count_zero] at hab
    omega
  | succ b ih =>
    by_cases hle : a ≤ Nat.count p b
    · obtain ⟨v, hv, hpv⟩ := ih hle
      exact ⟨v, by omega, hpv⟩
    · rw [Nat.count_succ] at hab
      split_ifs at hab with hp
      · refine ⟨b, Nat.lt_succ_self b, hp, ?_⟩
        rw [Nat.count_succ, if_pos hp]
        omega
      · omega

theorem image_count_eq_Icc (hbound : ∀ v, p v → v < b) :
    (fun v => Nat.count p (v + 1)) '' {v | p v} = Set.Icc 1 (Nat.count p b) := by
  ext a
  simp only [Set.mem_image, Set.mem_ofPred_eq, Set.mem_Icc]
  constructor
  · rintro ⟨v, hv, rfl⟩
    refine ⟨?_, Nat.count_monotone p (hbound v hv)⟩
    rw [Nat.count_succ, if_pos hv]
    omega
  · rintro ⟨hpos, hle⟩
    obtain ⟨v, -, hv, hcount⟩ := exists_count_eq (Nat.one_le_iff_ne_zero.mp hpos) hle
    exact ⟨v, hv, hcount⟩

end Rank

namespace Summarization

open Etfa (Frame)
open VersionedMap (Represents)

/-- A variable of the interface. -/
def Declares (frame : Frame) (flattenedName : String) : Prop :=
  ∃ v ∈ frame.cfg.interface, v.dataType.isDerived = false ∧
    flattenedName = frame.scope ++ "." ++ v.name

namespace ContextualizedNames

variable {frame : Frame} {names : ContextualizedNames} {occurring : List (String × Bool)}
variable {f : String}

/-- The names that have occurred so far, in the order of their versions. -/
structure Collects (frame : Frame) (occurring : List (String × Bool))
    (names : ContextualizedNames) : Prop where
  declared : ∀ f, (names.flattenedNamesToContextualizedNames.find? f).isSome ↔ Declares frame f
  versions : ∀ f l, names.flattenedNamesToContextualizedNames.find? f = some l →
    ∃ m, Represents l m ∧
      ∀ k, (m.find? k).isSome ↔ (ofLex k).1 = f ∧ ∃ b, (k.name, b) ∈ occurring
  modified : ∃ m, Represents names.modifiedContextualizedNames m ∧
    ∀ k, (m.find? k).isSome ↔ (k.name, true) ∈ occurring

theorem find?_initial (frame : Frame) (f : String) :
    (initial frame).flattenedNamesToContextualizedNames.find? f = OrderedMap.lookup f
      ((frame.cfg.interface.filter (!·.dataType.isDerived)).map fun v =>
        (frame.scope ++ "." ++ v.name, [])) := by
  unfold initial
  dsimp only
  rw [OrderedMap.find?_emplaceAll, OrderedMap.find?_empty, Option.none_or]

theorem collects_initial : Collects frame [] (initial frame) := by
  constructor
  · intro f
    rw [find?_initial]
    constructor
    · intro h
      obtain ⟨l, hl⟩ := Option.isSome_iff_exists.mp h
      obtain ⟨v, hv, heq⟩ := List.mem_map.mp (OrderedMap.mem_of_lookup hl)
      obtain ⟨hmem, hderived⟩ := List.mem_filter.mp hv
      exact ⟨v, hmem, by simpa using hderived, (congrArg Prod.fst heq).symm⟩
    · rintro ⟨v, hv, hderived, rfl⟩
      have hmem : v ∈ frame.cfg.interface.filter (!·.dataType.isDerived) :=
        List.mem_filter.mpr ⟨hv, by simpa using hderived⟩
      obtain ⟨l, hl⟩ := OrderedMap.exists_lookup (List.mem_map_of_mem
        (f := fun v : Variable => (frame.scope ++ "." ++ v.name, ([] : VersionedMap Unit))) hmem)
      rw [hl]
      rfl
  · intro f l hl
    rw [find?_initial] at hl
    obtain ⟨v, -, heq⟩ := List.mem_map.mp (OrderedMap.mem_of_lookup hl)
    cases heq
    exact ⟨.empty, .empty, fun k => by simp⟩
  · exact ⟨.empty, .empty, fun k => by simp⟩

theorem isSome_emplace {α : Type} {m : OrderedMap VersionKey α} {k q : VersionKey} {a : α} :
    ((m.emplace k a).find? q).isSome ↔ (m.find? q).isSome ∨ q = k := by
  rw [OrderedMap.find?_emplace]
  split_ifs with hq
  · subst hq
    cases m.find? q <;> simp
  · simp [hq]

/-- One more occurrence of a version of a variable. -/
theorem Collects.insert (h : Collects frame occurring names) (hplain : Plain f)
    (hdeclares : Declares frame f) (v : ℕ) (b : Bool) :
    ∃ names', names.insert (versioned f v, b) = .ok names' ∧
      Collects frame (occurring ++ [(versioned f v, b)]) names' := by
  obtain ⟨l, hl⟩ := Option.isSome_iff_exists.mp ((h.declared f).mpr hdeclares)
  obtain ⟨m, hm, hkeys⟩ := h.versions f l hl
  obtain ⟨l', hl', hm'⟩ := hm.emplace (k := toLex (f, v)) hplain ()
  obtain ⟨mod, hmod, hmodKeys⟩ := h.modified
  obtain ⟨modified', hmodified, mod', hmod', hmodKeys'⟩ : ∃ modified',
      names.insertModified (versioned f v, b) = .ok modified' ∧
      ∃ mod', Represents modified' mod' ∧
        ∀ k, (mod'.find? k).isSome ↔ (k.name, true) ∈ occurring ++ [(versioned f v, b)] := by
    cases b with
    | false =>
      refine ⟨_, rfl, mod, hmod, fun k => ?_⟩
      rw [hmodKeys]
      simp
    | true =>
      obtain ⟨l'', hl'', hmod''⟩ := hmod.emplace (k := toLex (f, v)) hplain ()
      refine ⟨l'', hl'', _, hmod'', fun k => ?_⟩
      rw [isSome_emplace, hmodKeys, List.mem_append, List.mem_singleton, Prod.mk.injEq,
        and_iff_left rfl]
      exact or_congr_right (VersionKey.name_injective.eq_iff (b := toLex (f, v))).symm
  refine ⟨⟨names.flattenedNamesToContextualizedNames.assign f l', modified'⟩, ?_, ?_, ?_,
    ⟨mod', hmod', hmodKeys'⟩⟩
  · unfold ContextualizedNames.insert
    dsimp only
    rw [hmodified, decontextualize_versioned hplain, hl]
    change (VersionedMap.emplace (VersionKey.name (toLex (f, v))) () l >>= _) = _
    rw [hl']
    rfl
  · intro g
    dsimp only
    rw [← h.declared, OrderedMap.find?_assign]
    split_ifs with hg
    · rw [hg, hl]
      simp
    · rfl
  · intro g l'' hl''
    dsimp only at hl''
    rw [OrderedMap.find?_assign] at hl''
    split_ifs at hl'' with hg
    · cases hl''
      subst hg
      refine ⟨_, hm', fun k => ?_⟩
      rw [isSome_emplace, hkeys]
      simp only [List.mem_append, List.mem_singleton, Prod.mk.injEq, exists_or]
      constructor
      · rintro (⟨hk, hocc⟩ | rfl)
        · exact ⟨hk, Or.inl hocc⟩
        · exact ⟨rfl, Or.inr ⟨b, rfl, rfl⟩⟩
      · rintro ⟨hk, hocc | ⟨_, hname, -⟩⟩
        · exact Or.inl ⟨hk, hocc⟩
        · exact Or.inr (VersionKey.name_injective hname)
    · obtain ⟨m₂, hm₂, hkeys₂⟩ := h.versions g l'' hl''
      refine ⟨m₂, hm₂, fun k => ?_⟩
      rw [hkeys₂]
      simp only [List.mem_append, List.mem_singleton, Prod.mk.injEq, exists_or]
      refine and_congr_right fun hk => ⟨Or.inl, fun hocc => hocc.resolve_right ?_⟩
      rintro ⟨_, hname, -⟩
      obtain ⟨hfirst, -⟩ := versioned_injective hname
      exact hg (hk.symm.trans hfirst)

theorem Collects.foldlM (h : Collects frame occurring names) {more : List (String × Bool)}
    (hmore : ∀ x ∈ more, ∃ f v, x.1 = versioned f v ∧ Plain f ∧ Declares frame f) :
    ∃ names', more.foldlM ContextualizedNames.insert names = .ok names' ∧
      Collects frame (occurring ++ more) names' := by
  induction more generalizing occurring names with
  | nil => exact ⟨names, rfl, by rwa [List.append_nil]⟩
  | cons x more ih =>
    rw [List.forall_mem_cons] at hmore
    obtain ⟨name, b⟩ := x
    obtain ⟨⟨f, v, hname, hplain, hdeclares⟩, hmore⟩ := hmore
    dsimp only at hname
    subst hname
    obtain ⟨names₁, hinsert, h₁⟩ := h.insert hplain hdeclares v b
    obtain ⟨names', hfold, h'⟩ := ih h₁ hmore
    refine ⟨names', ?_, ?_⟩
    · rw [List.foldlM_cons, hinsert]
      exact hfold
    · rwa [List.append_assoc, List.singleton_append] at h'

section Numbering

variable {modified contextualizedNames : VersionedMap Unit} {reversioned : VersionedMap String}
variable {M : OrderedMap VersionKey Unit} {m : OrderedMap VersionKey String}

theorem nextVersion_eq {p : ℕ → Prop} [DecidablePred p] (hmodified : Represents modified M)
    (hf : Plain f) (hp : ∀ v, (M.find? (toLex (f, v))).isSome ↔ p v) (v : ℕ) :
    nextVersion modified (versioned f v) (Nat.count p v) = .ok (Nat.count p (v + 1)) := by
  have hfind : VersionedMap.find? (versioned f v) modified = .ok (M.find? (toLex (f, v))) :=
    hmodified.find? (k := toLex (f, v)) hf
  unfold nextVersion
  rw [hfind, Nat.count_succ]
  have hv := hp v
  cases hkey : M.find? (toLex (f, v)) with
  | none =>
    rw [hkey] at hv
    rw [if_neg fun h => Bool.false_ne_true (hv.mpr h)]
    rfl
  | some u =>
    rw [hkey] at hv
    rw [if_pos (hv.mp rfl)]
    rfl

theorem number_spec {p : ℕ → Prop} [DecidablePred p] (hmodified : Represents modified M)
    (hp : ∀ v, (M.find? (toLex (f, v))).isSome ↔ p v) {vs : List ℕ} (hf : vs ≠ [] → Plain f)
    (hsorted : vs.Pairwise (· < ·)) {b : ℕ} (hb : ∀ v ∈ vs, b ≤ v)
    (hall : ∀ v, b ≤ v → p v → v ∈ vs) (hm : Represents reversioned m) :
    ∃ reversioned' m', number modified f (vs.map fun v => (versioned f v, ())) (Nat.count p b)
        reversioned = .ok reversioned' ∧ Represents reversioned' m' ∧
      ∀ k, m'.find? k = if (ofLex k).1 = f ∧ (ofLex k).2 ∈ vs then
        (m.find? k).or (some (versioned f (Nat.count p ((ofLex k).2 + 1)))) else m.find? k := by
  induction vs generalizing b reversioned m with
  | nil => exact ⟨reversioned, m, rfl, hm, fun k => by simp⟩
  | cons u vs ih =>
    have hplain := hf (List.cons_ne_nil u vs)
    obtain ⟨hlater, hsorted⟩ := List.pairwise_cons.mp hsorted
    have hbu := hb u List.mem_cons_self
    -- nothing is written between the last version and this one
    have hgap : Nat.count p u = Nat.count p b := by
      apply count_eq_of_gap hbu
      intro x hx hxu hpx
      rcases List.mem_cons.mp (hall x hx hpx) with rfl | hmem
      · exact lt_irrefl x hxu
      · exact lt_asymm hxu (hlater x hmem)
    obtain ⟨reversioned₁, hemplace, hm₁⟩ := hm.emplace (k := toLex (f, u)) hplain
      (versioned f (Nat.count p (u + 1)))
    obtain ⟨reversioned', m', hnumber, hm', hfind⟩ := ih (fun _ => hplain) hsorted
      (fun v hv => hlater v hv)
      (fun v hv hpv => (List.mem_cons.mp (hall v (by omega) hpv)).resolve_left (by omega)) hm₁
    refine ⟨reversioned', m', ?_, hm', fun k => ?_⟩
    · rw [List.map_cons, number, ← hgap, nextVersion_eq hmodified hplain hp]
      change (VersionedMap.emplace (VersionKey.name (toLex (f, u))) _ reversioned >>= _) = _
      rw [hemplace]
      exact hnumber
    · rw [hfind, OrderedMap.find?_emplace]
      by_cases hk : k = toLex (f, u)
      · subst hk
        have hnot : u ∉ vs := fun hmem => lt_irrefl u (hlater u hmem)
        simp [hnot]
      · have hiff : ((ofLex k).1 = f ∧ (ofLex k).2 ∈ u :: vs) ↔
            ((ofLex k).1 = f ∧ (ofLex k).2 ∈ vs) := by
          refine and_congr_right fun hf => ?_
          rw [List.mem_cons, or_iff_right]
          intro hu
          exact hk (ofLex.injective (Prod.ext hf hu))
        simp only [if_neg hk, hiff]

theorem exists_versions {m : OrderedMap VersionKey Unit}
    (hm : Represents contextualizedNames m) (hf : ∀ k, (m.find? k).isSome → (ofLex k).1 = f) :
    ∃ vs : List ℕ, vs.Pairwise (· < ·) ∧
      contextualizedNames = vs.map (fun v => (versioned f v, ())) ∧
      ∀ v, v ∈ vs ↔ (m.find? (toLex (f, v))).isSome := by
  have hentry : ∀ e ∈ m.entries, (ofLex e.1).1 = f := by
    intro e he
    apply hf
    rw [(m.find?_eq_some_iff e.1 e.2).mpr he]
    rfl
  refine ⟨m.entries.map fun e => (ofLex e.1).2, ?_, ?_, fun v => ?_⟩
  · refine List.pairwise_map.mpr (m.sorted.imp_of_mem fun hx hy hlt => ?_)
    rcases Prod.Lex.lt_iff.mp hlt with hlt | ⟨-, hlt⟩
    · rw [hentry _ hx, hentry _ hy] at hlt
      exact absurd hlt (lt_irrefl f)
    · exact hlt
  · rw [hm.entries, List.map_map]
    refine List.map_congr_left fun e he => ?_
    rw [Function.comp, ← hentry e he]
    rfl
  · rw [List.mem_map, Option.isSome_iff_exists]
    constructor
    · rintro ⟨e, he, rfl⟩
      refine ⟨e.2, (m.find?_eq_some_iff _ _).mpr ?_⟩
      rw [← hentry e he]
      exact he
    · rintro ⟨a, ha⟩
      exact ⟨_, (m.find?_eq_some_iff _ _).mp ha, rfl⟩

end Numbering

open Classical in
/-- The number of a version: how many versions up to it are written. -/
noncomputable def rank (occurring : List (String × Bool)) (f : String) (v : ℕ) : ℕ :=
  Nat.count (fun u => (versioned f u, true) ∈ occurring) (v + 1)

/-- The names that stand for versions so far have the numbers of these versions. -/
structure Ranks (occurring : List (String × Bool)) (m : OrderedMap VersionKey String) : Prop where
  eq : ∀ k name, m.find? k = some name →
    name = versioned (ofLex k).1 (rank occurring (ofLex k).1 (ofLex k).2)

open Classical in
theorem Collects.number (h : Collects frame occurring names)
    (hplain : ∀ k b, (VersionKey.name k, b) ∈ occurring → Plain (ofLex k).1)
    {l : VersionedMap Unit} (hl : names.flattenedNamesToContextualizedNames.find? f = some l)
    {reversioned : VersionedMap String} {m : OrderedMap VersionKey String}
    (hm : Represents reversioned m) (hranks : Ranks occurring m) :
    ∃ reversioned' m', ContextualizedNames.number names.modifiedContextualizedNames f l 0
        reversioned = .ok reversioned' ∧ Represents reversioned' m' ∧ Ranks occurring m' ∧
      ∀ k, (m'.find? k).isSome ↔ (m.find? k).isSome ∨
        (ofLex k).1 = f ∧ ∃ b, (k.name, b) ∈ occurring := by
  obtain ⟨mf, hmf, hkeys⟩ := h.versions f l hl
  obtain ⟨mod, hmod, hmodKeys⟩ := h.modified
  obtain ⟨vs, hsorted, rfl, hvs⟩ := exists_versions hmf fun k hk => ((hkeys k).mp hk).1
  have hmem : ∀ v, v ∈ vs ↔ ∃ b, (versioned f v, b) ∈ occurring := by
    intro v
    rw [hvs, hkeys]
    exact and_iff_right rfl
  have hf : vs ≠ [] → Plain f := by
    intro hne
    obtain ⟨v, hv⟩ := List.exists_mem_of_ne_nil vs hne
    obtain ⟨b, hb⟩ := (hmem v).mp hv
    exact hplain (toLex (f, v)) b hb
  obtain ⟨reversioned', m', hnumber, hm', hfind⟩ := number_spec
    (p := fun u => (versioned f u, true) ∈ occurring) (b := 0) hmod
    (fun v => hmodKeys (toLex (f, v))) hf hsorted (fun v _ => Nat.zero_le v)
    (fun v _ hv => (hmem v).mpr ⟨true, hv⟩) hm
  refine ⟨reversioned', m', ?_, hm', ⟨fun k name hk => ?_⟩, fun k => ?_⟩
  · rw [Nat.count_zero] at hnumber
    exact hnumber
  · rw [hfind] at hk
    split_ifs at hk with hcond
    · rcases Option.or_eq_some_iff.mp hk with hk | ⟨-, hk⟩
      · exact hranks.eq k name hk
      · rw [← Option.some.inj hk, hcond.1]
        rfl
    · exact hranks.eq k name hk
  · rw [hfind, ← and_congr_right fun hk : (ofLex k).1 = f => (by
      rw [hmem, VersionKey.name, hk] :
        (ofLex k).2 ∈ vs ↔ ∃ b, (k.name, b) ∈ occurring)]
    split_ifs with hcond
    · simp [hcond]
    · simp [hcond]

/-- At the end every version that occurs has its number. -/
theorem Collects.reversioned (h : Collects frame occurring names)
    (hplain : ∀ k b, (VersionKey.name k, b) ∈ occurring → Plain (ofLex k).1)
    (hdeclares : ∀ k b, (VersionKey.name k, b) ∈ occurring → Declares frame (ofLex k).1) :
    ∃ reversioned, names.contextualizedNamesToReversionedNames = .ok reversioned ∧
      ∀ f v b, (versioned f v, b) ∈ occurring →
        VersionedMap.get (versioned f v) reversioned = .ok (versioned f (rank occurring f v)) := by
  have hloop : ∀ entries : List (String × VersionedMap Unit),
      (∀ e ∈ entries, names.flattenedNamesToContextualizedNames.find? e.1 = some e.2) →
      ∀ reversioned m, Represents reversioned m → Ranks occurring m →
        ∃ reversioned' m', entries.foldlM (fun reversionedNames e =>
            ContextualizedNames.number names.modifiedContextualizedNames e.1 e.2 0
              reversionedNames) reversioned = .ok reversioned' ∧
          Represents reversioned' m' ∧ Ranks occurring m' ∧
          ∀ k, (m'.find? k).isSome ↔ (m.find? k).isSome ∨
            (∃ e ∈ entries, (ofLex k).1 = e.1) ∧ ∃ b, (k.name, b) ∈ occurring := by
    intro entries
    induction entries with
    | nil => exact fun _ reversioned m hm hranks => ⟨reversioned, m, rfl, hm, hranks, by simp⟩
    | cons e entries ih =>
      intro hentries reversioned m hm hranks
      rw [List.forall_mem_cons] at hentries
      obtain ⟨r₁, m₁, hnumber, hm₁, hranks₁, hkeys₁⟩ := h.number hplain hentries.1 hm hranks
      obtain ⟨r', m', hfold, hm', hranks', hkeys'⟩ := ih hentries.2 r₁ m₁ hm₁ hranks₁
      refine ⟨r', m', ?_, hm', hranks', fun k => ?_⟩
      · rw [List.foldlM_cons, hnumber]
        exact hfold
      · rw [hkeys', hkeys₁, or_assoc, ← or_and_right, List.exists_mem_cons_iff]
  obtain ⟨reversioned, m, hfold, hm, hranks, hkeys⟩ := hloop
    names.flattenedNamesToContextualizedNames.entries
    (fun e he => (names.flattenedNamesToContextualizedNames.find?_eq_some_iff e.1 e.2).mpr he)
    [] .empty .empty ⟨fun k name hk => by cases hk⟩
  refine ⟨reversioned, hfold, fun f v b hocc => ?_⟩
  have hkey : ∃ e ∈ names.flattenedNamesToContextualizedNames.entries, f = e.1 := by
    obtain ⟨l, hl⟩ := Option.isSome_iff_exists.mp ((h.declared f).mpr (hdeclares (toLex (f, v)) b hocc))
    exact ⟨(f, l), (names.flattenedNamesToContextualizedNames.find?_eq_some_iff f l).mp hl, rfl⟩
  obtain ⟨name, hname⟩ := Option.isSome_iff_exists.mp
    ((hkeys (toLex (f, v))).mpr (Or.inr ⟨hkey, b, hocc⟩))
  have hget := hm.get hname
  rw [hranks.eq _ _ hname] at hget
  exact hget

end ContextualizedNames

end Summarization

end Ahorn
