import Ahorn.EtfaExecutorInvariant

set_option autoImplicit false

/-!
# The application of a summary

A summary that fits a program is applied by renaming: written names get fresh versions, names that
are only read the current ones.
-/
namespace Ahorn.Etfa

/-- The summary speaks of flattened variables of the program at their sorts, and its hard
constraints have no cycles. -/
structure Program.Fits (p : Program) (summary : Summary) : Prop where
  written : ∀ {n e}, summary.hardConstraints.find? n = some e →
    ∃ f v, n = versioned f v ∧ Plain f ∧ p.sortOf f = some e.1
  read : ∀ q ∈ summary.occurrences, ∃ f v, q.2 = versioned f v ∧ Plain f ∧ p.sortOf f = some q.1
  wellFounded : WellFounded (Definitions.Uses summary.hardConstraints.find?)

namespace Executor

namespace Reversioning

variable {r : Reversioning} {n f : String} {v cycle : ℕ}

theorem find?_used_push (q : String) :
    (r.push n f v cycle).used.find? q =
      if q = n then (r.used.find? n).or (some (contextualized f v cycle)) else r.used.find? q :=
  OrderedMap.find?_emplace _ _ _ _

theorem find?_highest_push (g : String) :
    (r.push n f v cycle).highest.find? g =
      if g = f then some (max ((r.highest.find? f).getD 0) v) else r.highest.find? g := by
  unfold push
  cases h : r.highest.find? f with
  | none =>
    simp only [OrderedMap.find?_emplace, h, Option.none_or, Option.getD_none, Nat.zero_max]
  | some u =>
    by_cases hu : u < v
    · simp only [hu, ↓reduceIte, OrderedMap.find?_assign, Option.getD_some,
        Nat.max_eq_right (Nat.le_of_lt hu)]
    · simp only [hu, ↓reduceIte, Option.getD_some, Nat.max_eq_left (Nat.le_of_not_lt hu)]
      split_ifs with hg
      · rw [hg, h]
      · rfl

/-- The names collected so far, each at its version, and the highest version of every variable. -/
structure Covers (r : Reversioning) (version : String → ℕ) (cycle : ℕ) (names : List String) :
    Prop where
  used : ∀ n, r.used.find? n =
    if n ∈ names then some (contextualized (decontextualize n) (version n) cycle) else none
  attained : ∀ f h, r.highest.find? f = some h → ∃ n ∈ names, decontextualize n = f ∧ version n = h
  highest : ∀ n ∈ names, ∃ h, r.highest.find? (decontextualize n) = some h ∧ version n ≤ h

theorem covers_nil (version : String → ℕ) (cycle : ℕ) :
    ({} : Reversioning).Covers version cycle [] where
  used := fun _ => rfl
  attained := fun _ _ h => by cases h
  highest := fun _ h => absurd h List.not_mem_nil

theorem Covers.push {version : String → ℕ} {names : List String}
    (h : r.Covers version cycle names) (n : String) :
    (r.push n (decontextualize n) (version n) cycle).Covers version cycle (n :: names) where
  used := by
    intro q
    rw [find?_used_push, h.used, h.used]
    by_cases hq : q = n
    · subst hq
      by_cases hn : q ∈ names <;> simp [hn]
    · simp [hq]
  attained := by
    intro f u hu
    rw [find?_highest_push] at hu
    split_ifs at hu with hf
    · subst hf
      cases hu
      cases hd : r.highest.find? (decontextualize n) with
      | none => exact ⟨n, List.mem_cons_self, rfl, by simp⟩
      | some w =>
        obtain ⟨q, hq, hqn, hqw⟩ := h.attained _ _ hd
        rcases Nat.le_total w (version n) with hle | hle
        · exact ⟨n, List.mem_cons_self, rfl, by simp [hle]⟩
        · exact ⟨q, List.mem_cons_of_mem _ hq, hqn, by simp [hle, hqw]⟩
    · obtain ⟨q, hq, hqn⟩ := h.attained _ _ hu
      exact ⟨q, List.mem_cons_of_mem _ hq, hqn⟩
  highest := by
    intro q hq
    rw [find?_highest_push]
    rcases List.mem_cons.mp hq with rfl | hq
    · exact ⟨_, if_pos rfl, Nat.le_max_right _ _⟩
    · obtain ⟨u, hu, hle⟩ := h.highest q hq
      split_ifs with hf
      · refine ⟨_, rfl, hle.trans ?_⟩
        rw [← hf, hu]
        exact Nat.le_max_left _ _
      · exact ⟨u, hu, hle⟩

end Reversioning

variable {p : Program} {versions versions' : Versions} {k : ℕ} {c c' : Context}
  {summary : Summary} {st : State}

/-- The version a written name of a summary gets, and that of a name that is only read. -/
def versionIn (summary : Summary) (versions : Versions) (st : State) (n : String) : ℕ :=
  if (summary.hardConstraints.find? n).isSome then
    (extractVersion n).toOption.getD 0 + (versions.find? (decontextualize n)).getD 0 + 1
  else (st.flattenedNameToVersion.find? (decontextualize n)).getD 0

def nameIn (summary : Summary) (versions : Versions) (c : Context) (n : String) : String :=
  contextualized (decontextualize n) (versionIn summary versions c.state n) c.cycle

theorem reversionWritten_covers (summary : Summary) (st : State) {names done : List String}
    {r r' : Reversioning}
    (hwritten : ∀ n ∈ names, (summary.hardConstraints.find? n).isSome)
    (hr : r.Covers (versionIn summary versions st) k done)
    (h : reversionWritten versions k names r = .ok r') :
    r'.Covers (versionIn summary versions st) k (names.reverse ++ done) ∧
      ∀ n ∈ names, ∃ g, versions.find? (decontextualize n) = some g := by
  induction names generalizing done r with
  | nil =>
    cases h
    exact ⟨hr, fun _ h => absurd h List.not_mem_nil⟩
  | cons n names ih =>
    obtain ⟨v, hv, h⟩ := bind_eq_ok h
    obtain ⟨g, hg, h⟩ := bind_eq_ok h
    have hg := getVersion_eq hg
    have hversion : v + g + 1 = versionIn summary versions st n := by
      simp [versionIn, hwritten n List.mem_cons_self, hv, hg, Except.toOption]
    rw [hversion] at h
    obtain ⟨hcovers, hglobal⟩ :=
      ih (fun q hq => hwritten q (List.mem_cons_of_mem _ hq)) (hr.push n) h
    refine ⟨by simpa using hcovers, ?_⟩
    intro q hq
    rcases List.mem_cons.mp hq with rfl | hq
    · exact ⟨g, hg⟩
    · exact hglobal q hq

theorem reversionRead_covers (summary : Summary) (versions : Versions) {names done : List String}
    {r r' : Reversioning}
    (hread : ∀ n ∈ names, summary.hardConstraints.find? n = none)
    (hr : r.Covers (versionIn summary versions st) k done)
    (h : reversionRead st k names r = .ok r') :
    r'.Covers (versionIn summary versions st) k (names.reverse ++ done) ∧
      ∀ n ∈ names, st.flattenedNameToVersion.find? (decontextualize n) =
        some (versionIn summary versions st n) := by
  induction names generalizing done r with
  | nil =>
    cases h
    exact ⟨hr, fun _ h => absurd h List.not_mem_nil⟩
  | cons n names ih =>
    obtain ⟨v, -, h⟩ := bind_eq_ok h
    obtain ⟨w, hw, h⟩ := bind_eq_ok h
    have hw := State.getVersion_eq hw
    have hversion : w = versionIn summary versions st n := by
      simp [versionIn, hread n List.mem_cons_self, hw]
    rw [hversion] at h hw
    obtain ⟨hcovers, hlocal⟩ :=
      ih (fun q hq => hread q (List.mem_cons_of_mem _ hq)) (hr.push n) h
    refine ⟨by simpa using hcovers, ?_⟩
    intro q hq
    rcases List.mem_cons.mp hq with rfl | hq
    · exact hw
    · exact hlocal q hq

theorem substituteAll_eq {used : OrderedMap String String} {name : String → String}
    {ks : List (SmtSort × String)} {s : SmtSort} {t t' : Term String s}
    (hused : ∀ q ∈ ks, used.find? q.2 = some (name q.2))
    (h : substituteAll used ks t = .ok t') :
    t' = ks.foldl (fun t q => t.substitute q.2 (.constant q.1 (name q.2))) t := by
  induction ks generalizing t with
  | nil =>
    cases h
    rfl
  | cons q ks ih =>
    obtain ⟨s', n⟩ := q
    rw [substituteAll, hused _ List.mem_cons_self] at h
    exact ih (fun q hq => hused q (List.mem_cons_of_mem _ hq)) h

theorem reversionTerm_eq {used : OrderedMap String String} {name : String → String}
    {s : SmtSort} {t t' : Term String s}
    (hused : ∀ q ∈ t.occurrences, used.find? q.2 = some (name q.2))
    (hnew : ∀ q ∈ t.occurrences, ∀ q' ∈ t.occurrences, q'.2 ≠ name q.2)
    (h : reversionTerm used t = .ok t') : t' = t.rename name := by
  have hmem : ∀ q, q ∈ t.constants → q ∈ t.occurrences := fun q => (t.mem_constants q).mp
  rw [substituteAll_eq (fun q hq => hused q (hmem q hq)) h,
    Term.foldl_substitute_eq_bind name t.constants
      (fun q hq q' hq' heq => absurd heq (hnew q (hmem q hq) q' (hmem q' hq')))]
  apply Term.bind_congr
  intro q hq
  rw [if_pos ((t.mem_constants q).mpr hq)]

theorem reversionValuations_spec {used : OrderedMap String String} (name : String → String)
    {entries : List (String × SortedTerm String)}
    {valuations valuations' : OrderedMap String (SortedTerm String)}
    (hused : ∀ x ∈ entries, used.find? x.1 = some (name x.1))
    (hterm : ∀ x ∈ entries, ∀ t', reversionTerm used x.2.2 = .ok t' → t' = x.2.2.rename name)
    (hfresh : ∀ x ∈ entries, valuations.find? (name x.1) = none)
    (hinj : entries.Pairwise fun x y => name x.1 ≠ name y.1)
    (h : reversionValuations used entries valuations = .ok valuations') :
    (∀ x ∈ entries, valuations'.find? (name x.1) = some ⟨x.2.1, x.2.2.rename name⟩) ∧
      (∀ q e, valuations.find? q = some e → valuations'.find? q = some e) ∧
      ∀ q e, valuations'.find? q = some e → valuations.find? q = some e ∨
        ∃ x ∈ entries, q = name x.1 ∧ e = ⟨x.2.1, x.2.2.rename name⟩ := by
  induction entries generalizing valuations with
  | nil =>
    cases h
    exact ⟨fun _ h => absurd h List.not_mem_nil, fun _ _ h => h, fun _ _ h => Or.inl h⟩
  | cons entry entries ih =>
    obtain ⟨n, s, t⟩ := entry
    obtain ⟨t', ht', h⟩ := bind_eq_ok h
    have ht := hterm _ List.mem_cons_self t' ht'
    dsimp only at ht
    subst ht
    rw [hused _ List.mem_cons_self] at h
    obtain ⟨hne, hinj⟩ := List.pairwise_cons.mp hinj
    have hn := hfresh _ List.mem_cons_self
    obtain ⟨hnew, hkeep, hback⟩ := ih (fun x hx => hused x (List.mem_cons_of_mem _ hx))
      (fun x hx => hterm x (List.mem_cons_of_mem _ hx))
      (fun x hx => by
        rw [OrderedMap.find?_emplace_ne _ _ (hne x hx).symm]
        exact hfresh x (List.mem_cons_of_mem _ hx)) hinj h
    refine ⟨?_, ?_, ?_⟩
    · intro x hx
      rcases List.mem_cons.mp hx with rfl | hx
      · exact hkeep _ _ (OrderedMap.find?_emplace_self _ hn)
      · exact hnew x hx
    · intro q e hq
      apply hkeep
      rw [OrderedMap.find?_emplace]
      split_ifs with hqn
      · subst hqn
        dsimp only at hn
        rw [hn] at hq
        cases hq
      · exact hq
    · intro q e hq
      rcases hback q e hq with hq | ⟨x, hx, hqx⟩
      · rw [OrderedMap.find?_emplace] at hq
        split_ifs at hq with hqn
        · dsimp only at hn
          rw [hn, Option.none_or] at hq
          cases hq
          exact Or.inr ⟨_, List.mem_cons_self, hqn, rfl⟩
        · exact Or.inl hq
      · exact Or.inr ⟨x, List.mem_cons_of_mem _ hx, hqx⟩

theorem setSymbolicValuations_spec {entries : List (String × SortedTerm String)} {st st' : State}
    (h : setSymbolicValuations entries st = .ok st') :
    st'.vertex = st.vertex ∧ st'.pathConstraint = st.pathConstraint ∧
      st'.flattenedNameToVersion = st.flattenedNameToVersion ∧
      (∀ x ∈ entries, st.symbolicValuations.find? x.1 = none) ∧
      ∀ q, st'.symbolicValuations.find? q =
        (st.symbolicValuations.find? q).or (OrderedMap.lookup q entries) := by
  induction entries generalizing st with
  | nil =>
    cases h
    exact ⟨rfl, rfl, rfl, fun _ h => absurd h List.not_mem_nil, fun q => (Option.or_none).symm⟩
  | cons entry entries ih =>
    obtain ⟨n, e⟩ := entry
    obtain ⟨st₁, hst₁, h⟩ := bind_eq_ok h
    obtain ⟨hn, rfl⟩ := State.setSymbolicValuation_eq hst₁
    obtain ⟨hvertex, hconstraint, hversion, hfresh, hfind⟩ := ih h
    refine ⟨hvertex, hconstraint, hversion, ?_, ?_⟩
    · intro x hx
      rcases List.mem_cons.mp hx with rfl | hx
      · exact hn
      · have hx := hfresh x hx
        rw [OrderedMap.find?_emplace] at hx
        split_ifs at hx with hxn
        · rw [hn] at hx
          cases hx
        · exact hx
    · intro q
      rw [hfind, OrderedMap.find?_emplace, OrderedMap.lookup]
      by_cases hq : q = n
      · subst hq
        simp [hn]
      · simp [hq]

theorem updateVersions_spec {entries : List (String × ℕ)} {st st' : State}
    (hsorted : entries.Pairwise fun x y => x.1 < y.1)
    (h : updateVersions entries (versions, st) = .ok (versions', st')) :
    st'.vertex = st.vertex ∧ st'.pathConstraint = st.pathConstraint ∧
      st'.symbolicValuations = st.symbolicValuations ∧
      (∀ f, st'.flattenedNameToVersion.find? f =
        (OrderedMap.lookup f entries).or (st.flattenedNameToVersion.find? f)) ∧
      (∀ x ∈ entries, ∃ v, st.flattenedNameToVersion.find? x.1 = some v) ∧
      (∀ f, versions'.find? f = (versions.find? f).map
        fun g => max g ((OrderedMap.lookup f entries).getD 0)) := by
  induction entries generalizing versions st with
  | nil =>
    cases h
    refine ⟨rfl, rfl, rfl, fun _ => rfl, fun _ h => absurd h List.not_mem_nil, fun f => ?_⟩
    simp [OrderedMap.lookup]
  | cons entry entries ih =>
    obtain ⟨x, v⟩ := entry
    obtain ⟨g, hg, h⟩ := bind_eq_ok h
    have hg := getVersion_eq hg
    obtain ⟨st₁, hst₁, h⟩ := bind_eq_ok h
    obtain ⟨hold, rfl⟩ := State.setVersion_eq hst₁
    obtain ⟨hvertex, hconstraint, hvaluation, hlocal, hdom, hglobal⟩ := ih hsorted.of_cons h
    have hx : OrderedMap.lookup x entries = none :=
      OrderedMap.lookup_eq_none_of_lt fun y hy => List.rel_of_pairwise_cons hsorted hy
    refine ⟨hvertex, hconstraint, hvaluation, ?_, ?_, ?_⟩
    · intro f
      rw [hlocal, OrderedMap.lookup, OrderedMap.find?_assign]
      by_cases hf : f = x
      · subst hf
        simp [hx]
      · simp [hf]
    · intro y hy
      rcases List.mem_cons.mp hy with rfl | hy
      · exact hold
      · obtain ⟨u, hu⟩ := hdom y hy
        rw [OrderedMap.find?_assign] at hu
        split_ifs at hu with hyx
        · exact hyx ▸ hold
        · exact ⟨u, hu⟩
    · intro f
      rw [hglobal, OrderedMap.lookup]
      by_cases hf : f = x
      · subst hf
        simp only [hx, ↓reduceIte, Option.getD_none, Option.getD_some, hg, Option.map_some,
          Nat.max_zero]
        split_ifs with hlt
        · simp [OrderedMap.find?_assign, Nat.max_eq_right (Nat.le_of_lt hlt)]
        · simp [hg, Nat.max_eq_left (Nat.le_of_not_lt hlt)]
      · split_ifs with hlt
        · rw [OrderedMap.find?_assign, if_neg hf]
        · rfl

theorem mem_readNames (n : String) : n ∈ readNames summary ↔
    (∃ s, (s, n) ∈ summary.occurrences) ∧ summary.hardConstraints.find? n = none := by
  simp [readNames, List.mem_eraseDups, List.mem_filter]

theorem mem_occurrences_hardConstraints {x : String × SortedTerm String}
    (hx : x ∈ summary.hardConstraints.entries) : x.2.2.occurrences ⊆ summary.occurrences :=
  fun _ hq => List.mem_append_left _ (List.mem_flatMap.mpr ⟨x, hx, hq⟩)

theorem mem_occurrences_assumptions {t : Term String .bool} (ht : t ∈ summary.assumptions) :
    t.occurrences ⊆ summary.occurrences :=
  fun _ hq => List.mem_append_right _ (List.mem_flatMap.mpr ⟨t, ht, hq⟩)

/-- What the application of a summary does to a context, given the versions it is applied at. -/
structure Applied (summary : Summary) (r : Reversioning) (versions versions' : Versions)
    (c c' : Context) : Prop where
  cycle : c'.cycle = c.cycle
  callStack : c'.callStack = c.callStack
  vertex : c'.state.vertex = c.state.vertex
  covers : ∃ names, (∀ n, n ∈ names ↔ summary.Mentions n) ∧
    r.Covers (versionIn summary versions c.state) c.cycle names
  pathConstraint : c'.state.pathConstraint =
    c.state.pathConstraint ++ summary.assumptions.map (Term.rename (nameIn summary versions c))
  global : ∀ {n e}, summary.hardConstraints.find? n = some e →
    ∃ g, versions.find? (decontextualize n) = some g
  localRead : ∀ q ∈ summary.occurrences, summary.hardConstraints.find? q.2 = none →
    c.state.flattenedNameToVersion.find? (decontextualize q.2) =
      some (versionIn summary versions c.state q.2)
  fresh : ∀ {n e}, summary.hardConstraints.find? n = some e →
    c.definitions (nameIn summary versions c n) = none
  written : ∀ {n s t}, summary.hardConstraints.find? n = some ⟨s, t⟩ →
    c'.definitions (nameIn summary versions c n) = some ⟨s, t.rename (nameIn summary versions c)⟩
  keep : ∀ q e, c.definitions q = some e → c'.definitions q = some e
  back : ∀ q e, c'.definitions q = some e → c.definitions q = some e ∨
    ∃ n s t, summary.hardConstraints.find? n = some ⟨s, t⟩ ∧ q = nameIn summary versions c n ∧
      e = ⟨s, t.rename (nameIn summary versions c)⟩
  version : ∀ f, c'.state.flattenedNameToVersion.find? f =
    (r.highest.find? f).or (c.state.flattenedNameToVersion.find? f)
  declared : ∀ f h, r.highest.find? f = some h →
    ∃ v, c.state.flattenedNameToVersion.find? f = some v
  versions : ∀ f, versions'.find? f = (versions.find? f).map
    fun g => max g ((r.highest.find? f).getD 0)

theorem versionIn_written {f : String} {v g : ℕ} {e : SortedTerm String} (hf : Plain f)
    (he : summary.hardConstraints.find? (versioned f v) = some e)
    (hg : versions.find? f = some g) :
    versionIn summary versions st (versioned f v) = v + g + 1 := by
  simp [versionIn, he, extractVersion_versioned hf, decontextualize_versioned hf, hg,
    Except.toOption]

theorem nameIn_injective (hfits : p.Fits summary)
    (hglobal : ∀ {n e}, summary.hardConstraints.find? n = some e →
      ∃ g, versions.find? (decontextualize n) = some g) {n n' : String} {e e' : SortedTerm String}
    (hn : summary.hardConstraints.find? n = some e)
    (hn' : summary.hardConstraints.find? n' = some e')
    (h : nameIn summary versions c n = nameIn summary versions c n') : n = n' := by
  obtain ⟨f, v, rfl, hf, -⟩ := hfits.written hn
  obtain ⟨f', v', rfl, hf', -⟩ := hfits.written hn'
  obtain ⟨g, hg⟩ := hglobal hn
  obtain ⟨g', hg'⟩ := hglobal hn'
  rw [decontextualize_versioned hf] at hg
  rw [decontextualize_versioned hf'] at hg'
  obtain ⟨hff, hvv, -⟩ := contextualized_injective h
  rw [decontextualize_versioned hf, decontextualize_versioned hf'] at hff
  subst hff
  rw [hg] at hg'
  cases hg'
  rw [versionIn_written hf hn hg, versionIn_written hf hn' hg] at hvv
  have hv : v = v' := by omega
  rw [hv]

/-- The parts of the application of a summary. -/
structure Parts (summary : Summary) (r : Reversioning)
    (valuations : OrderedMap String (SortedTerm String)) (constraints : List (Term String .bool))
    (versions versions' : Versions) (c c' : Context) : Prop where
  cycle : c'.cycle = c.cycle
  callStack : c'.callStack = c.callStack
  vertex : c'.state.vertex = c.state.vertex
  covers : ∃ names, (∀ n, n ∈ names ↔ summary.Mentions n) ∧
    r.Covers (versionIn summary versions c.state) c.cycle names
  reversioned : reversionValuations r.used summary.hardConstraints.entries .empty = .ok valuations
  assumed : summary.assumptions.mapM (fun t => reversionTerm r.used t) = .ok constraints
  pathConstraint : c'.state.pathConstraint = c.state.pathConstraint ++ constraints
  global : ∀ {n e}, summary.hardConstraints.find? n = some e →
    ∃ g, versions.find? (decontextualize n) = some g
  localRead : ∀ q ∈ summary.occurrences, summary.hardConstraints.find? q.2 = none →
    c.state.flattenedNameToVersion.find? (decontextualize q.2) =
      some (versionIn summary versions c.state q.2)
  fresh : ∀ x ∈ valuations.entries, c.definitions x.1 = none
  definitions : ∀ q, c'.definitions q = (c.definitions q).or (valuations.find? q)
  version : ∀ f, c'.state.flattenedNameToVersion.find? f =
    (r.highest.find? f).or (c.state.flattenedNameToVersion.find? f)
  declared : ∀ f h, r.highest.find? f = some h →
    ∃ v, c.state.flattenedNameToVersion.find? f = some v
  versions : ∀ f, versions'.find? f = (versions.find? f).map
    fun g => max g ((r.highest.find? f).getD 0)

theorem applySummary_parts (h : applySummary summary versions c = .ok (versions', c')) :
    ∃ r valuations constraint, Parts summary r valuations constraint versions versions' c c' := by
  obtain ⟨r₁, hwritten, h⟩ := bind_eq_ok h
  obtain ⟨r, hread, h⟩ := bind_eq_ok h
  obtain ⟨valuations, hvaluations, h⟩ := bind_eq_ok h
  obtain ⟨constraint, hconstraint, h⟩ := bind_eq_ok h
  obtain ⟨st₁, hst₁, h⟩ := bind_eq_ok h
  obtain ⟨⟨versions₂, st₂⟩, hst₂, h⟩ := bind_eq_ok h
  cases h
  obtain ⟨hcovers₁, hglobal⟩ := reversionWritten_covers summary c.state
    (by
      intro n hn
      obtain ⟨x, hx, rfl⟩ := List.mem_map.mp hn
      rw [(OrderedMap.find?_eq_some_iff _ _ _).mpr hx]
      rfl) (Reversioning.covers_nil _ _) hwritten
  obtain ⟨hcovers, hlocal⟩ := reversionRead_covers summary versions
    (fun n hn => ((mem_readNames n).mp hn).2) hcovers₁ hread
  have hentry : ∀ {n e}, summary.hardConstraints.find? n = some e ↔
      (n, e) ∈ summary.hardConstraints.entries := OrderedMap.find?_eq_some_iff _ _ _
  have hnames : ∀ n, n ∈ (readNames summary).reverse ++ (summary.hardConstraints.keys.reverse ++ [])
      ↔ summary.Mentions n := by
    intro n
    have hkey : n ∈ summary.hardConstraints.keys ↔ ∃ e, summary.hardConstraints.find? n = some e := by
      simp [OrderedMap.keys, hentry]
    rw [List.mem_append, List.mem_reverse, mem_readNames, List.append_nil, List.mem_reverse, hkey]
    constructor
    · rintro (⟨h, -⟩ | h)
      · exact Or.inr h
      · exact Or.inl h
    · rintro (h | h)
      · exact Or.inr h
      · cases hn : summary.hardConstraints.find? n with
        | none => exact Or.inl ⟨h, rfl⟩
        | some e => exact Or.inr ⟨e, rfl⟩
  obtain ⟨hvertex, hconstraint₁, hversion, hfresh, hfind⟩ := setSymbolicValuations_spec hst₁
  obtain ⟨hvertex₂, hconstraint₂, hvaluation, hlocal₂, hdeclared, hversions⟩ :=
    updateVersions_spec r.highest.sorted hst₂
  exact ⟨r, valuations, constraint, {
    cycle := rfl
    callStack := rfl
    vertex := hvertex₂.trans hvertex
    covers := ⟨_, hnames, hcovers⟩
    reversioned := hvaluations
    assumed := hconstraint
    pathConstraint := by
      change st₂.pathConstraint = _
      rw [hconstraint₂]
      change st₁.pathConstraint ++ constraint = _
      rw [hconstraint₁]
    global := fun hn => hglobal _ (List.mem_map_of_mem (hentry.mp hn))
    localRead := fun q hq hn => hlocal q.2 ((mem_readNames q.2).mpr ⟨⟨q.1, hq⟩, hn⟩)
    fresh := hfresh
    definitions := by
      intro q
      change st₂.symbolicValuations.find? q = _
      rw [hvaluation]
      exact hfind q
    version := by
      intro f
      rw [← hversion]
      exact hlocal₂ f
    declared := by
      intro f h hf
      obtain ⟨v, hv⟩ := hdeclared (f, h) ((OrderedMap.find?_eq_some_iff _ _ _).mp hf)
      rw [← hversion]
      exact ⟨v, hv⟩
    versions := hversions }⟩

/-- Where the summary fits, its application renames it. -/
theorem applySummary_spec (hfits : p.Fits summary)
    (h : applySummary summary versions c = .ok (versions', c')) :
    ∃ r, Applied summary r versions versions' c c' := by
  obtain ⟨r, valuations, constraint, hparts⟩ := applySummary_parts h
  obtain ⟨names, hnames, hcovers⟩ := hparts.covers
  have hentry : ∀ {n e}, summary.hardConstraints.find? n = some e ↔
      (n, e) ∈ summary.hardConstraints.entries := OrderedMap.find?_eq_some_iff _ _ _
  have hused : ∀ n, summary.Mentions n → r.used.find? n = some (nameIn summary versions c n) := by
    intro n hn
    rw [hcovers.used, if_pos ((hnames n).mpr hn)]
    rfl
  have hne : ∀ n, ∀ q ∈ summary.occurrences, q.2 ≠ nameIn summary versions c n := by
    intro n q hq
    obtain ⟨f, v, hqf, hf, -⟩ := hfits.read q hq
    rw [hqf]
    exact (contextualized_ne_versioned hf _ _ _).symm
  have hterm : ∀ {s : SmtSort} (t t' : Term String s), t.occurrences ⊆ summary.occurrences →
      reversionTerm r.used t = .ok t' → t' = t.rename (nameIn summary versions c) := by
    intro s t t' ht ht'
    exact reversionTerm_eq (fun q hq => hused q.2 (Or.inr ⟨q.1, ht hq⟩))
      (fun q _ q' hq' => hne q.2 q' (ht hq')) ht'
  obtain ⟨hnew, -, hback⟩ := reversionValuations_spec (nameIn summary versions c)
    (fun x hx => hused x.1 (Or.inl ⟨x.2, hentry.mpr hx⟩))
    (fun x hx t' ht' => hterm x.2.2 t' (mem_occurrences_hardConstraints hx) ht')
    (fun x _ => rfl)
    (summary.hardConstraints.sorted.imp_of_mem fun hx hy hlt heq =>
      (ne_of_lt hlt) (nameIn_injective hfits hparts.global (hentry.mpr hx) (hentry.mpr hy) heq))
    hparts.reversioned
  have hnew' : ∀ {n e}, summary.hardConstraints.find? n = some e →
      valuations.find? (nameIn summary versions c n) =
        some ⟨e.1, e.2.rename (nameIn summary versions c)⟩ :=
    fun {n e} hn => hnew (n, e) (hentry.mp hn)
  have hfreshName : ∀ {n e}, summary.hardConstraints.find? n = some e →
      c.definitions (nameIn summary versions c n) = none := by
    intro n e hn
    exact hparts.fresh
      (nameIn summary versions c n, ⟨e.1, e.2.rename (nameIn summary versions c)⟩)
      ((OrderedMap.find?_eq_some_iff _ _ _).mp (hnew' hn))
  exact ⟨r, {
    cycle := hparts.cycle
    callStack := hparts.callStack
    vertex := hparts.vertex
    covers := hparts.covers
    pathConstraint := by
      rw [hparts.pathConstraint, mapM_eq_map (fun t ht t' =>
        hterm t t' (mem_occurrences_assumptions ht)) hparts.assumed]
    global := hparts.global
    localRead := hparts.localRead
    fresh := hfreshName
    written := by
      intro n s t hn
      rw [hparts.definitions, hfreshName hn, Option.none_or]
      exact hnew' hn
    keep := fun q e hq => by rw [hparts.definitions, hq, Option.some_or]
    back := by
      intro q e hq
      rw [hparts.definitions] at hq
      cases hc : c.definitions q with
      | some e' =>
        rw [hc, Option.some_or] at hq
        exact Or.inl hq
      | none =>
        rw [hc, Option.none_or] at hq
        rcases hback q e hq with hq | ⟨x, hx, hqx, he⟩
        · cases hq
        · exact Or.inr ⟨x.1, x.2.1, x.2.2, hentry.mpr hx, hqx, he⟩
    version := hparts.version
    declared := hparts.declared
    versions := hparts.versions }⟩

namespace Applied

variable {r : Reversioning}

theorem le (h : Applied summary r versions versions' c c') : versions.Le versions' := by
  intro f v hv
  exact ⟨_, by rw [h.versions, hv, Option.map_some], Nat.le_max_left _ _⟩

theorem defined (h : Applied summary r versions versions' c c') (hfits : p.Fits summary)
    (hc : c.WellDefined p) {n : String} (hn : summary.Mentions n) :
    ∃ s t, p.sortOf (decontextualize n) = some s ∧
      c'.definitions (nameIn summary versions c n) = some ⟨s, t⟩ := by
  cases hw : summary.hardConstraints.find? n with
  | some e =>
    obtain ⟨f, v, rfl, hf, hs⟩ := hfits.written hw
    rw [decontextualize_versioned hf]
    exact ⟨e.1, _, hs, h.written hw⟩
  | none =>
    rcases hn with ⟨e, he⟩ | ⟨s, hs⟩
    · rw [hw] at he
      cases he
    · obtain ⟨f, v, hnf, hf, hsort⟩ := hfits.read _ hs
      have hlocal := h.localRead _ hs hw
      dsimp only at hnf hlocal hsort
      have hd : decontextualize n = f := by rw [hnf, decontextualize_versioned hf]
      rw [hd] at hlocal ⊢
      obtain ⟨t, ht⟩ := hc.currentVersion hsort hlocal
      refine ⟨s, t, hsort, h.keep _ _ ?_⟩
      rw [nameIn, hd]
      exact ht

theorem closed (h : Applied summary r versions versions' c c') (hfits : p.Fits summary)
    (hc : c.WellDefined p) {s : SmtSort} {t : Term String s}
    (ht : t.occurrences ⊆ summary.occurrences) :
    c'.definitions.Closed (t.rename (nameIn summary versions c)) := by
  intro q hq
  obtain ⟨n, hn, hqn⟩ := (Term.mem_occurrences_rename _ _ _).mp hq
  obtain ⟨s', t', hs', ht'⟩ := h.defined hfits hc (Or.inr ⟨q.1, ht hn⟩)
  obtain ⟨f, v, hnf, hf, hsort⟩ := hfits.read _ (ht hn)
  dsimp only at hnf hsort
  rw [hnf, decontextualize_versioned hf, hsort] at hs'
  cases hs'
  exact ⟨t', by rw [hqn, ht']⟩

def added (c c' : Context) : Definitions String := fun q =>
  if (c.definitions q).isSome then none else c'.definitions q

theorem union_added (h : Applied summary r versions versions' c c') :
    c'.definitions = c.definitions.union (added c c') := by
  funext q
  cases hq : c.definitions q with
  | some e => rw [h.keep q e hq, Definitions.union_left hq]
  | none =>
    rw [Definitions.union_right hq, added, hq]
    rfl

theorem added_eq (h : Applied summary r versions versions' c c') {q : String}
    {e : SortedTerm String} (hq : added c c' q = some e) : ∃ n s t,
      summary.hardConstraints.find? n = some ⟨s, t⟩ ∧ q = nameIn summary versions c n ∧
      e = ⟨s, t.rename (nameIn summary versions c)⟩ ∧ c.definitions q = none := by
  unfold added at hq
  split_ifs at hq with hsome
  have hnone := Option.not_isSome_iff_eq_none.mp hsome
  rcases h.back q e hq with hq | ⟨n, s, t, hn, hqn, he⟩
  · rw [hnone] at hq
    cases hq
  · exact ⟨n, s, t, hn, hqn, he, hnone⟩

/-- Renaming takes the definitions of the summary to the added ones, so these have no cycles. -/
theorem wellFounded (h : Applied summary r versions versions' c c') (hfits : p.Fits summary)
    (hc : c.WellDefined p) : WellFounded (added c c').Uses := by
  have hwritten : ∀ n, (∃ e, summary.hardConstraints.find? n = some e) →
      Acc (added c c').Uses (nameIn summary versions c n) := by
    intro n
    induction n using hfits.wellFounded.induction with
    | _ n ih =>
      rintro ⟨e, hn⟩
      refine Acc.intro _ ?_
      rintro q ⟨s, t, ht, hne, s', hq⟩
      obtain ⟨n', s'', t'', hn', hname, he, -⟩ := h.added_eq ht
      obtain rfl := nameIn_injective hfits h.global hn hn' hname
      cases he
      obtain ⟨m, hm, hqm⟩ := (Term.mem_occurrences_rename _ _ _).mp hq
      dsimp only at hm hqm
      subst hqm
      cases hwm : summary.hardConstraints.find? m with
      | some e' =>
        refine ih m ⟨s, t'', hn', ?_, s', hm⟩ ⟨e', hwm⟩
        rintro rfl
        exact hne rfl
      | none =>
        -- a name that is only read is defined in the context, so nothing is added for it
        refine Acc.intro _ ?_
        rintro q ⟨u, t', ht', -⟩
        obtain ⟨-, -, -, -, -, -, hnone⟩ := h.added_eq ht'
        obtain ⟨f, v, hmf, hf, hsort⟩ := hfits.read _ (mem_occurrences_hardConstraints
          ((OrderedMap.find?_eq_some_iff _ _ _).mp hn') hm)
        have hlocal := h.localRead _ (mem_occurrences_hardConstraints
          ((OrderedMap.find?_eq_some_iff _ _ _).mp hn') hm) hwm
        dsimp only at hmf hsort hlocal
        have hd : decontextualize m = f := by rw [hmf, decontextualize_versioned hf]
        obtain ⟨t₀, ht₀⟩ := hc.currentVersion (hd ▸ hsort) hlocal
        rw [nameIn, ht₀] at hnone
        cases hnone
  refine ⟨fun q => ?_⟩
  cases hq : added c c' q with
  | none =>
    refine Acc.intro q ?_
    rintro q' ⟨s, t, ht, -⟩
    rw [hq] at ht
    cases ht
  | some e =>
    obtain ⟨n, s, t, hn, rfl, -⟩ := h.added_eq hq
    exact hwritten n ⟨_, hn⟩

theorem wellDefined (h : Applied summary r versions versions' c c') (hfits : p.Fits summary)
    (hc : c.WellDefined p) : c'.WellDefined p where
  acyclic := by
    rw [h.union_added]
    refine hc.acyclic.union (h.wellFounded hfits hc) ?_
    intro q s t _ hq
    rw [← h.union_added]
    obtain ⟨n, s', t', hn, -, he, -⟩ := h.added_eq hq
    cases he
    exact h.closed hfits hc (mem_occurrences_hardConstraints
      ((OrderedMap.find?_eq_some_iff _ _ _).mp hn))
  closed := by
    intro t ht
    rw [h.pathConstraint] at ht
    rcases List.mem_append.mp ht with ht | ht
    · exact (hc.closed t ht).mono h.keep
    · obtain ⟨u, hu, rfl⟩ := List.mem_map.mp ht
      exact h.closed hfits hc (mem_occurrences_assumptions hu)
  current := by
    intro x s hx
    rw [h.version, h.cycle]
    cases hv : r.highest.find? x with
    | some v =>
      obtain ⟨names, hnames, hcovers⟩ := h.covers
      obtain ⟨n, hn, rfl, rfl⟩ := hcovers.attained x v hv
      obtain ⟨s', t, hs', ht⟩ := h.defined hfits hc ((hnames n).mp hn)
      rw [hx] at hs'
      cases hs'
      exact ⟨_, rfl, t, ht⟩
    | none =>
      obtain ⟨v, hv, t, ht⟩ := hc.current hx
      exact ⟨v, hv, t, h.keep _ _ ht⟩
  declared := by
    intro x v hx
    rw [h.version] at hx
    cases hv : r.highest.find? x with
    | some u =>
      obtain ⟨w, hw⟩ := h.declared x u hv
      exact hc.declared hw
    | none =>
      rw [hv, Option.none_or] at hx
      exact hc.declared hx

theorem invariant (h : Applied summary r versions versions' c c') (hfits : p.Fits summary)
    (hc : c.Invariant p versions k) : c'.Invariant p versions' k := by
  apply (h.wellDefined hfits hc.wellDefined).invariant (h.cycle.trans hc.cycle)
  intro x v d e hd
  rcases h.back _ _ hd with hd | ⟨n, s, t, hn, hname, -⟩
  · obtain ⟨hle, hb⟩ := hc.bounded hd
    refine ⟨hle, fun heq => ?_⟩
    obtain ⟨u, hu, hvu⟩ := hb heq
    obtain ⟨u', hu', huu⟩ := h.le x u hu
    exact ⟨u', hu', hvu.trans huu⟩
  · obtain ⟨rfl, rfl, rfl⟩ := contextualized_injective hname
    refine ⟨hc.cycle.le, fun _ => ?_⟩
    obtain ⟨names, hnames, hcovers⟩ := h.covers
    obtain ⟨u, hu, hle⟩ := hcovers.highest n ((hnames n).mpr (Or.inl ⟨_, hn⟩))
    obtain ⟨g, hg⟩ := h.global hn
    refine ⟨_, by rw [h.versions, hg, Option.map_some], ?_⟩
    rw [hu]
    exact hle.trans (Nat.le_max_right _ _)

end Applied

theorem applySummary_invariant (hfits : p.Fits summary) (hc : c.Invariant p versions k)
    (h : applySummary summary versions c = .ok (versions', c')) :
    c'.Invariant p versions' k ∧ versions.Le versions' := by
  obtain ⟨r, hr⟩ := applySummary_spec hfits h
  exact ⟨hr.invariant hfits hc, hr.le⟩

theorem applySummaries_invariant {returnVertex : Vertex} {callStack : List Frame}
    {summaries : List Summary} {cs : List Context} (hfits : ∀ s ∈ summaries, p.Fits s)
    (hc : c.Invariant p versions k)
    (h : applySummaries returnVertex callStack c summaries versions = .ok (versions', cs)) :
    versions.Le versions' ∧ ∀ c' ∈ cs, c'.Invariant p versions' k := by
  induction summaries generalizing versions cs with
  | nil =>
    cases h
    exact ⟨Versions.Le.refl _, fun _ h => absurd h List.not_mem_nil⟩
  | cons summary summaries ih =>
    obtain ⟨⟨versions₁, c₁⟩, h₁, h⟩ := bind_eq_ok h
    obtain ⟨⟨versions₂, cs₂⟩, h₂, h⟩ := bind_eq_ok h
    cases h
    obtain ⟨hc₁, hle₁⟩ := applySummary_invariant (hfits summary List.mem_cons_self) hc h₁
    obtain ⟨hle₂, hcs₂⟩ := ih (fun s hs => hfits s (List.mem_cons_of_mem _ hs)) (hc.mono hle₁) h₂
    refine ⟨hle₁.trans hle₂, fun c' hc' => ?_⟩
    rcases List.mem_cons.mp hc' with rfl | hc'
    · exact (hc₁.mono hle₂).of_eq rfl rfl hc₁.closed rfl
    · exact hcs₂ c' hc'

end Executor

end Ahorn.Etfa
