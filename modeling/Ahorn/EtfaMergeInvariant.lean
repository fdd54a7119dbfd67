import Ahorn.EtfaExecutorInvariant

set_option autoImplicit false

/-!
# What a merge does

The merged context has the definitions of both contexts and one fresh definition for every variable
whose versions differ; its value is that of the context whose path constraint holds.
-/
namespace Ahorn.Etfa

variable {p : Program} {versions versions' : Versions} {k : ℕ} {c₁ c₂ m : Context}
  {simplifier : Simplifier String}

namespace Merger

/-- A name of the current version of a variable whose versions and valuations differ. -/
def Splits (c₁ c₂ : Context) (n : String) : Prop :=
  ∃ x v₁ v₂ e₁ e₂, c₁.state.flattenedNameToVersion.find? x = some v₁ ∧
    c₂.state.flattenedNameToVersion.find? x = some v₂ ∧ v₁ ≠ v₂ ∧
    c₁.definitions (contextualized x v₁ c₁.cycle) = some e₁ ∧
    c₂.definitions (contextualized x v₂ c₂.cycle) = some e₂ ∧ e₁ ≠ e₂ ∧
    (n = contextualized x v₁ c₁.cycle ∨ n = contextualized x v₂ c₂.cycle)

/-- The merge puts another constant in the place of one of the path constraints. -/
def Renames (simplifier : Simplifier String) (c₁ c₂ : Context) : Prop :=
  ∃ q ∈ (mergePathConstraints simplifier c₁.state c₂.state).occurrences, Splits c₁ c₂ q.2

theorem mergeValuations_total {entries : List (String × SortedTerm String)}
    (valuations : OrderedMap String (SortedTerm String))
    (hsorted : entries.Pairwise fun x y => x.1 < y.1)
    (hagree : ∀ x ∈ entries, ∀ e, valuations.find? x.1 = some e → e = x.2) :
    ∃ valuations', mergeValuations entries valuations = .ok valuations' := by
  induction entries generalizing valuations with
  | nil => exact ⟨valuations, rfl⟩
  | cons entry entries ih =>
    obtain ⟨n, e⟩ := entry
    unfold mergeValuations
    have hlt : ∀ x ∈ entries, n < x.1 := fun _ hx => List.rel_of_pairwise_cons hsorted hx
    cases hn : valuations.find? n with
    | none =>
      apply ih _ hsorted.of_cons
      intro x hx e' he'
      rw [OrderedMap.find?_emplace_ne _ _ (ne_of_gt (hlt x hx))] at he'
      exact hagree x (List.mem_cons_of_mem _ hx) e' he'
    | some e' =>
      have he := hagree (n, e) List.mem_cons_self e' hn
      dsimp only at he ⊢
      rw [if_pos he]
      exact ih _ hsorted.of_cons fun x hx => hagree x (List.mem_cons_of_mem _ hx)

theorem mergeValuations_spec {entries : List (String × SortedTerm String)}
    {valuations valuations' : OrderedMap String (SortedTerm String)}
    (h : mergeValuations entries valuations = .ok valuations') :
    (∀ n, valuations'.find? n = (valuations.find? n).or (OrderedMap.lookup n entries)) ∧
      ∀ x ∈ entries, valuations'.find? x.1 = some x.2 := by
  induction entries generalizing valuations with
  | nil =>
    cases h
    exact ⟨fun n => Option.or_none.symm, fun _ h => absurd h List.not_mem_nil⟩
  | cons entry entries ih =>
    obtain ⟨n, e⟩ := entry
    unfold mergeValuations at h
    split at h
    · rename_i hn
      obtain ⟨hfind, hmem⟩ := ih h
      refine ⟨fun q => ?_, ?_⟩
      · rw [hfind, OrderedMap.find?_emplace, OrderedMap.lookup]
        by_cases hq : q = n
        · simp [hq, hn]
        · simp [hq]
      · intro x hx
        rcases List.mem_cons.mp hx with rfl | hx
        · rw [hfind, OrderedMap.find?_emplace_self _ hn, Option.some_or]
        · exact hmem x hx
    · rename_i e' hn
      split_ifs at h with he
      subst he
      obtain ⟨hfind, hmem⟩ := ih h
      refine ⟨fun q => ?_, ?_⟩
      · rw [hfind, OrderedMap.lookup]
        by_cases hq : q = n
        · simp [hq, hn]
        · simp [hq]
      · intro x hx
        rcases List.mem_cons.mp hx with rfl | hx
        · rw [hfind, hn, Option.some_or]
        · exact hmem x hx

/-- The value of a merged variable: that of the first context where its path constraint holds, and
that of the second one elsewhere. -/
def chosen (c₁ : Context) (M : Model String) {α : Type} (a b : α) : α :=
  if (Term.conjunction c₁.state.pathConstraint).Holds M then a else b

/-- What the merge has produced once the given variables are done. -/
structure Merges (p : Program) (versions : Versions) (k : ℕ) (c₁ c₂ : Context)
    (done : List String) (acc : Merging) : Prop where
  acyclic : Definitions.Acyclic acc.symbolicValuations.find?
  left : ∀ n e, c₁.definitions n = some e → acc.symbolicValuations.find? n = some e
  right : ∀ n e, c₂.definitions n = some e → acc.symbolicValuations.find? n = some e
  added : ∀ n e, acc.symbolicValuations.find? n = some e → c₁.definitions n = some e ∨
    c₂.definitions n = some e ∨ ∃ x v w, n = contextualized x v k ∧ versions.find? x = some w ∧ w < v
  bounded : ∀ {x v d e}, acc.symbolicValuations.find? (contextualized x v d) = some e →
    d ≤ k ∧ (d = k → ∃ w, acc.versions.find? x = some w ∧ v ≤ w)
  le : versions.Le acc.versions
  current : ∀ x ∈ done, ∃ s v v₁ v₂ t, p.sortOf x = some s ∧
    acc.flattenedNameToVersion.find? x = some v ∧
    c₁.state.flattenedNameToVersion.find? x = some v₁ ∧
    c₂.state.flattenedNameToVersion.find? x = some v₂ ∧
    acc.symbolicValuations.find? (contextualized x v k) = some ⟨s, t⟩ ∧
    ∀ M, Definitions.Respects acc.symbolicValuations.find? M → M s (contextualized x v k) =
      chosen c₁ M (M s (contextualized x v₁ k)) (M s (contextualized x v₂ k))
  declared : ∀ x v, acc.flattenedNameToVersion.find? x = some v → x ∈ done
  merged : ∀ q ∈ acc.mergedVariables, Splits c₁ c₂ q.1.2 ∧
    ∃ t, acc.symbolicValuations.find? q.2 = some ⟨q.1.1, t⟩

namespace Merges

variable {done : List String} {acc : Merging}

theorem fresh (h : Merges p versions k c₁ c₂ done acc) {x : String} {w : ℕ}
    (hw : acc.versions.find? x = some w) :
    acc.symbolicValuations.find? (contextualized x (w + 1) k) = none := by
  cases hd : acc.symbolicValuations.find? (contextualized x (w + 1) k) with
  | none => rfl
  | some e =>
    obtain ⟨w', hw', hle⟩ := (h.bounded hd).2 rfl
    rw [hw] at hw'
    cases hw'
    omega

/-- A variable with the same version in both contexts keeps it. -/
theorem same (h : Merges p versions k c₁ c₂ done acc) {x : String} {s : SmtSort} {v : ℕ}
    {t : Term String s} (hx : p.sortOf x = some s) (hdone : x ∉ done)
    (h₁ : c₁.state.flattenedNameToVersion.find? x = some v)
    (h₂ : c₂.state.flattenedNameToVersion.find? x = some v)
    (ht : c₁.definitions (contextualized x v k) = some ⟨s, t⟩) :
    Merges p versions k c₁ c₂ (x :: done)
      { acc with flattenedNameToVersion := acc.flattenedNameToVersion.emplace x v } where
  acyclic := h.acyclic
  left := h.left
  right := h.right
  added := h.added
  bounded := h.bounded
  le := h.le
  current := by
    intro y hy
    by_cases hyx : y = x
    · subst hyx
      have hnone : acc.flattenedNameToVersion.find? y = none :=
        Option.eq_none_iff_forall_not_mem.mpr fun u hu => hdone (h.declared y u hu)
      refine ⟨s, v, v, v, t, hx, OrderedMap.find?_emplace_self _ hnone, h₁, h₂, h.left _ _ ht,
        fun M _ => ?_⟩
      unfold chosen
      split_ifs <;> rfl
    · obtain ⟨s', v', h'⟩ := h.current y ((List.mem_cons.mp hy).resolve_left hyx)
      refine ⟨s', v', ?_⟩
      rw [OrderedMap.find?_emplace_ne _ _ hyx]
      exact h'
  declared := by
    intro y u hy
    by_cases hyx : y = x
    · exact hyx ▸ List.mem_cons_self
    · rw [OrderedMap.find?_emplace_ne _ _ hyx] at hy
      exact List.mem_cons_of_mem _ (h.declared y u hy)
  merged := h.merged

/-- A variable with different versions gets the next one. -/
theorem next (h : Merges p versions k c₁ c₂ done acc) {x : String} {s : SmtSort} {v₁ v₂ w : ℕ}
    {t : Term String s} (hx : p.sortOf x = some s) (hdone : x ∉ done)
    (h₁ : c₁.state.flattenedNameToVersion.find? x = some v₁)
    (h₂ : c₂.state.flattenedNameToVersion.find? x = some v₂) (hw : acc.versions.find? x = some w)
    (hle : ∃ w₀, versions.find? x = some w₀) (ht : Definitions.Closed acc.symbolicValuations.find? t)
    (hvalue : ∀ M, Definitions.Respects acc.symbolicValuations.find? M → t.eval M =
      chosen c₁ M (M s (contextualized x v₁ k)) (M s (contextualized x v₂ k)))
    {mergedVariables : List ((SmtSort × String) × String)}
    (hmerged : ∀ q ∈ mergedVariables, q ∈ acc.mergedVariables ∨
      Splits c₁ c₂ q.1.2 ∧ q.1.1 = s ∧ q.2 = contextualized x (w + 1) k) :
    Merges p versions k c₁ c₂ (x :: done)
      { versions := acc.versions.assign x (w + 1)
        symbolicValuations := acc.symbolicValuations.emplace (contextualized x (w + 1) k) ⟨s, t⟩
        flattenedNameToVersion := acc.flattenedNameToVersion.emplace x (w + 1)
        mergedVariables := mergedVariables } := by
  have hfresh := h.fresh hw
  have hnew := OrderedMap.find?_emplace_self (v := (⟨s, t⟩ : SortedTerm String)) (h := hfresh)
  have hold : ∀ n e, acc.symbolicValuations.find? n = some e →
      (acc.symbolicValuations.emplace (contextualized x (w + 1) k) ⟨s, t⟩).find? n = some e := by
    intro n e hn
    rw [OrderedMap.find?_emplace_ne _ _ fun hname => by rw [hname, hfresh] at hn; cases hn]
    exact hn
  have hback : ∀ n e, (acc.symbolicValuations.emplace (contextualized x (w + 1) k) ⟨s, t⟩).find? n =
      some e → acc.symbolicValuations.find? n = some e ∨ n = contextualized x (w + 1) k := by
    intro n e hn
    by_cases hname : n = contextualized x (w + 1) k
    · exact Or.inr hname
    · rw [OrderedMap.find?_emplace_ne _ _ hname] at hn
      exact Or.inl hn
  have hrespects : ∀ M, Definitions.Respects
      (acc.symbolicValuations.emplace (contextualized x (w + 1) k) ⟨s, t⟩).find? M →
      Definitions.Respects acc.symbolicValuations.find? M :=
    fun M hM n s' t' hn => hM n s' t' (hold _ _ hn)
  obtain ⟨w₀, hw₀⟩ := hle
  have hw₀w : w₀ ≤ w := by
    obtain ⟨w', hw', hle⟩ := h.le x w₀ hw₀
    rw [hw] at hw'
    cases hw'
    exact hle
  constructor
  · rw [find?_emplace_eq_union]
    exact h.acyclic.define hfresh (Or.inr ht)
  · exact fun n e hn => hold n e (h.left n e hn)
  · exact fun n e hn => hold n e (h.right n e hn)
  · intro n e hn
    rcases hback n e hn with hn | hn
    · exact h.added n e hn
    · exact Or.inr (Or.inr ⟨x, w + 1, w₀, hn, hw₀, by omega⟩)
  · intro y v d e hd
    rcases hback _ _ hd with hd | hname
    · obtain ⟨hle, hb⟩ := h.bounded hd
      refine ⟨hle, fun heq => ?_⟩
      obtain ⟨u, hu, hvu⟩ := hb heq
      obtain ⟨u', hu', huu⟩ := Versions.Le.assign hw (Nat.le_succ w) y u hu
      exact ⟨u', hu', hvu.trans huu⟩
    · obtain ⟨rfl, rfl, rfl⟩ := contextualized_injective hname
      exact ⟨le_rfl, fun _ => ⟨w + 1, by rw [OrderedMap.find?_assign, if_pos rfl], le_rfl⟩⟩
  · exact h.le.trans (Versions.Le.assign hw (Nat.le_succ w))
  · intro y hy
    by_cases hyx : y = x
    · subst hyx
      have hnone : acc.flattenedNameToVersion.find? y = none :=
        Option.eq_none_iff_forall_not_mem.mpr fun u hu => hdone (h.declared y u hu)
      refine ⟨s, w + 1, v₁, v₂, t, hx, OrderedMap.find?_emplace_self _ hnone, h₁, h₂, hnew,
        fun M hM => ?_⟩
      rw [hM _ _ _ hnew]
      exact hvalue M (hrespects M hM)
    · obtain ⟨s', v', u₁, u₂, t', hs', hv', hu₁, hu₂, ht', heval⟩ :=
        h.current y ((List.mem_cons.mp hy).resolve_left hyx)
      refine ⟨s', v', u₁, u₂, t', hs', ?_, hu₁, hu₂, hold _ _ ht',
        fun M hM => heval M (hrespects M hM)⟩
      rw [OrderedMap.find?_emplace_ne _ _ hyx]
      exact hv'
  · intro y u hy
    by_cases hyx : y = x
    · exact hyx ▸ List.mem_cons_self
    · rw [OrderedMap.find?_emplace_ne _ _ hyx] at hy
      exact List.mem_cons_of_mem _ (h.declared y u hy)
  · intro q hq
    rcases hmerged q hq with hq | ⟨hsplit, hsort, hname⟩
    · obtain ⟨hsplit, t', ht'⟩ := h.merged q hq
      exact ⟨hsplit, t', hold _ _ ht'⟩
    · refine ⟨hsplit, ?_⟩
      rw [hname, hsort]
      exact ⟨t, hnew⟩

end Merges

theorem eval_case (M : Model String) {s : SmtSort} (a b : Term String s) :
    (Term.ite (.conjunction c₁.state.pathConstraint) a b).eval M =
      chosen c₁ M (a.eval M) (b.eval M) := by
  unfold chosen
  split_ifs with h
  · have h : (Term.conjunction c₁.state.pathConstraint).eval M = true := h
    rw [Term.eval, h, cond_true]
  · have h := Bool.eq_false_of_not_eq_true h
    rw [Term.eval, h, cond_false]

variable (simplifier) in
/-- The merge of one variable. -/
theorem mergeVariable_spec {done : List String} {acc : Merging} {x : String} {flattened : Variable}
    {s : SmtSort} (hc₁ : c₁.Invariant p versions k) (hc₂ : c₂.Invariant p versions k)
    (h : Merges p versions k c₁ c₂ done acc) (hx : p.sortOf x = some s)
    (hsort : flattened.dataType.sort = .ok s) (hdone : x ∉ done) :
    ∃ acc', mergeVariable simplifier c₁.state c₂.state k x flattened acc = .ok acc' ∧
      Merges p versions k c₁ c₂ (x :: done) acc' := by
  obtain ⟨v₁, hv₁, t₁, ht₁⟩ := hc₁.current hx
  obtain ⟨v₂, hv₂, t₂, ht₂⟩ := hc₂.current hx
  obtain ⟨-, w₀, hw₀, -⟩ := hc₁.currentVersion hx hv₁
  obtain ⟨w, hw, -⟩ := h.le x w₀ hw₀
  have hget₁ : c₁.state.getVersion x = .ok v₁ := by rw [State.getVersion, hv₁]
  have hget₂ : c₂.state.getVersion x = .ok v₂ := by rw [State.getVersion, hv₂]
  have hval₁ : c₁.state.getSymbolicValuation (contextualized x v₁ k) = .ok ⟨s, t₁⟩ := by
    unfold State.getSymbolicValuation
    change c₁.state.symbolicValuations.find? _ = _ at ht₁
    rw [ht₁]
  have hval₂ : c₂.state.getSymbolicValuation (contextualized x v₂ k) = .ok ⟨s, t₂⟩ := by
    unfold State.getSymbolicValuation
    change c₂.state.symbolicValuations.find? _ = _ at ht₂
    rw [ht₂]
  have hglobal : Executor.getVersion acc.versions x = .ok w := by rw [Executor.getVersion, hw]
  unfold mergeVariable
  simp only [hget₁, hget₂, hval₁, hval₂, hglobal, hsort, bind, Except.bind]
  split_ifs with hv he
  · subst hv
    exact ⟨_, rfl, h.same hx hdone hv₁ hv₂ ht₁⟩
  · cases he
    refine ⟨_, rfl, h.next hx hdone hv₁ hv₂ hw ⟨w₀, hw₀⟩ ?_ ?_ fun q hq => Or.inl hq⟩
    · exact (hc₁.acyclic.closed _ _ _ ht₁).mono h.left
    · intro M hM
      unfold chosen
      rw [hM _ _ _ (h.left _ _ ht₁), hM _ _ _ (h.right _ _ ht₂)]
      split_ifs <;> rfl
  · have hsplit : ∀ n, n = contextualized x v₁ k ∨ n = contextualized x v₂ k → Splits c₁ c₂ n := by
      intro n hn
      refine ⟨x, v₁, v₂, _, _, hv₁, hv₂, hv, ?_, ?_, he, ?_⟩
      · rw [hc₁.cycle]
        exact ht₁
      · rw [hc₂.cycle]
        exact ht₂
      · rw [hc₁.cycle, hc₂.cycle]
        exact hn
    refine ⟨_, rfl, h.next hx hdone hv₁ hv₂ hw ⟨w₀, hw₀⟩ ?_ ?_ ?_⟩
    · intro q hq
      have hq := simplifier.occurrences_simplify _ hq
      simp only [Term.occurrences, List.mem_append, List.mem_singleton] at hq
      rcases hq with (hq | rfl) | rfl
      · obtain ⟨u, hu, hq⟩ := (Term.mem_occurrences_conjunction _ _).mp hq
        exact (hc₁.closed u hu).mono h.left q hq
      · exact ⟨t₁, h.left _ _ ht₁⟩
      · exact ⟨t₂, h.right _ _ ht₂⟩
    · intro M _
      rw [simplifier.eval_simplify, eval_case]
      rfl
    · intro q hq
      rcases List.mem_append.mp hq with hq | hq
      · exact Or.inl hq
      · simp only [List.mem_cons, List.not_mem_nil, or_false] at hq
        rcases hq with rfl | rfl
        · exact Or.inr ⟨hsplit _ (Or.inl rfl), rfl, rfl⟩
        · exact Or.inr ⟨hsplit _ (Or.inr rfl), rfl, rfl⟩

variable (simplifier) in
theorem mergeVariables_spec {entries : List (String × Variable)} {done : List String}
    {acc : Merging} (hc₁ : c₁.Invariant p versions k) (hc₂ : c₂.Invariant p versions k)
    (h : Merges p versions k c₁ c₂ done acc)
    (hsort : ∀ x ∈ entries, ∃ s, p.sortOf x.1 = some s ∧ x.2.dataType.sort = .ok s)
    (hdistinct : entries.Pairwise fun x y => x.1 < y.1)
    (hdone : ∀ x ∈ entries, x.1 ∉ done) :
    ∃ acc', mergeVariables simplifier c₁.state c₂.state k entries acc = .ok acc' ∧
      Merges p versions k c₁ c₂ ((entries.map Prod.fst).reverse ++ done) acc' := by
  induction entries generalizing done acc with
  | nil => exact ⟨acc, rfl, h⟩
  | cons entry entries ih =>
    obtain ⟨x, flattened⟩ := entry
    obtain ⟨s, hx, hs⟩ := hsort _ List.mem_cons_self
    obtain ⟨acc₁, hacc₁, h₁⟩ := mergeVariable_spec simplifier hc₁ hc₂ h hx hs
      (hdone _ List.mem_cons_self)
    obtain ⟨acc', hacc', h'⟩ := ih h₁ (fun y hy => hsort y (List.mem_cons_of_mem _ hy))
      hdistinct.of_cons (by
        intro y hy hmem
        rcases List.mem_cons.mp hmem with hyx | hmem
        · exact absurd hyx (ne_of_gt (List.rel_of_pairwise_cons hdistinct hy))
        · exact hdone y (List.mem_cons_of_mem _ hy) hmem)
    refine ⟨acc', ?_, by simpa using h'⟩
    unfold mergeVariables
    rw [hacc₁]
    exact hacc'

theorem substituteMerged_closed {D : Definitions String} {merged : List ((SmtSort × String) × String)}
    {ks : List (SmtSort × String)} {t : Term String .bool}
    (hmerged : ∀ q ∈ merged, ∃ t, D q.2 = some ⟨q.1.1, t⟩) (ht : D.Closed t) :
    D.Closed (substituteMerged merged ks t) := by
  induction ks generalizing t with
  | nil => exact ht
  | cons q ks ih =>
    unfold substituteMerged
    split
    · rename_i u hu
      apply ih
      intro n hn
      obtain ⟨q', hq', hn⟩ := (Term.mem_occurrences_bind _ _ _).mp hn
      by_cases hqq : (q.1, q.2) = q'
      · subst hqq
        rw [Term.single_self] at hn
        obtain rfl := List.mem_singleton.mp hn
        have hkey := List.find?_some hu
        have hq : u.1 = q := of_decide_eq_true hkey
        exact hq ▸ hmerged u (List.mem_of_find?_eq_some hu)
      · rw [Term.single_of_ne _ hqq] at hn
        obtain rfl := List.mem_singleton.mp hn
        exact ht _ hq'
    · exact ih ht

theorem substituteMerged_eq_self {merged : List ((SmtSort × String) × String)}
    {ks : List (SmtSort × String)} (t : Term String .bool)
    (h : ∀ q ∈ ks, ∀ u ∈ merged, u.1 ≠ q) : substituteMerged merged ks t = t := by
  induction ks with
  | nil => rfl
  | cons q ks ih =>
    unfold substituteMerged
    have hnone : merged.find? (·.1 = q) = none := by
      rw [List.find?_eq_none]
      intro u hu
      simpa using h q List.mem_cons_self u hu
    rw [hnone]
    exact ih fun q' hq' => h q' (List.mem_cons_of_mem _ hq')

/-- What a merge gives, in terms of the two contexts. -/
structure Merged (p : Program) (simplifier : Simplifier String) (versions versions' : Versions)
    (k : ℕ) (c₁ c₂ m : Context) : Prop where
  invariant : m.Invariant p versions' k
  le : versions.Le versions'
  callStack : m.callStack = c₁.callStack
  vertex : m.state.vertex = c₁.state.vertex
  left : ∀ n e, c₁.definitions n = some e → m.definitions n = some e
  right : ∀ n e, c₂.definitions n = some e → m.definitions n = some e
  added : ∀ n e, m.definitions n = some e → c₁.definitions n = some e ∨
    c₂.definitions n = some e ∨ ∃ x v w, n = contextualized x v k ∧ versions.find? x = some w ∧ w < v
  current : ∀ {x s}, p.sortOf x = some s → ∃ v v₁ v₂,
    m.state.flattenedNameToVersion.find? x = some v ∧
    c₁.state.flattenedNameToVersion.find? x = some v₁ ∧
    c₂.state.flattenedNameToVersion.find? x = some v₂ ∧
    ∀ M, m.definitions.Respects M → M s (contextualized x v k) =
      chosen c₁ M (M s (contextualized x v₁ k)) (M s (contextualized x v₂ k))
  pathConstraint : ¬ Renames simplifier c₁ c₂ → ∀ M, (∀ t ∈ m.state.pathConstraint, t.Holds M) ↔
    (∀ t ∈ c₁.state.pathConstraint, t.Holds M) ∨ ∀ t ∈ c₂.state.pathConstraint, t.Holds M

variable (simplifier) in
/-- The merge of two contexts in the frame of the program. -/
theorem merge_of_valuations {valuations : OrderedMap String (SortedTerm String)}
    (hp : p.WellFormed) (hc₁ : c₁.Invariant p versions k) (hc₂ : c₂.Invariant p versions k)
    (hlabel : c₁.state.vertex.label = c₂.state.vertex.label)
    (hstack₁ : c₁.callStack = [⟨p.main, p.main.name, p.main.entryLabel⟩])
    (hstack₂ : c₂.callStack = [⟨p.main, p.main.name, p.main.entryLabel⟩])
    (hvaluations : mergeValuations c₂.state.symbolicValuations.entries c₁.state.symbolicValuations =
      .ok valuations) :
    ∃ versions' m, merge simplifier versions c₁ c₂ = .ok (versions', m) ∧
      Merged p simplifier versions versions' k c₁ c₂ m := by
  obtain ⟨hfind, hmem⟩ := mergeValuations_spec hvaluations
  have hleft : ∀ n e, c₁.definitions n = some e → valuations.find? n = some e := by
    intro n e hn
    change c₁.state.symbolicValuations.find? n = some e at hn
    rw [hfind, hn, Option.some_or]
  have hright : ∀ n e, c₂.definitions n = some e → valuations.find? n = some e :=
    fun n e hn => hmem (n, e) ((OrderedMap.find?_eq_some_iff _ _ _).mp hn)
  have hunion : (valuations.find? : Definitions String) = c₁.definitions.union c₂.definitions :=
    funext hfind
  have hstart : Merges p versions k c₁ c₂ [] ⟨versions, valuations, .empty, []⟩ := {
    acyclic := by
      change Definitions.Acyclic valuations.find?
      rw [hunion]
      refine hc₁.acyclic.union hc₂.acyclic.wellFounded ?_
      intro n s t _ ht
      rw [← hunion]
      exact (hc₂.acyclic.closed n s t ht).mono hright
    left := hleft
    right := hright
    added := by
      intro n e hn
      have hn := (hfind n).symm.trans hn
      cases h₁ : c₁.state.symbolicValuations.find? n with
      | some e' =>
        rw [h₁, Option.some_or] at hn
        exact Or.inl (h₁.trans hn)
      | none =>
        rw [h₁, Option.none_or] at hn
        exact Or.inr (Or.inl hn)
    bounded := by
      intro x v d e hd
      have hd := (hfind _).symm.trans hd
      cases h₁ : c₁.state.symbolicValuations.find? (contextualized x v d) with
      | some e' => exact hc₁.bounded h₁
      | none =>
        rw [h₁, Option.none_or] at hd
        exact hc₂.bounded hd
    le := Versions.Le.refl _
    current := fun _ h => absurd h List.not_mem_nil
    declared := fun _ _ h => by cases h
    merged := fun _ h => absurd h List.not_mem_nil }
  have hsort : ∀ x ∈ p.main.flattenedInterface.entries,
      ∃ s, p.sortOf x.1 = some s ∧ x.2.dataType.sort = .ok s := by
    intro x hx
    have hx := (OrderedMap.find?_eq_some_iff _ _ _).mpr hx
    obtain ⟨s, hs, -⟩ := hp.encodable hx
    refine ⟨s, ?_, hs⟩
    rw [Program.sortOf, hx, Option.bind_some, hs]
    rfl
  obtain ⟨acc, hacc, h⟩ := mergeVariables_spec simplifier hc₁ hc₂ hstart hsort
    p.main.flattenedInterface.sorted fun _ _ => List.not_mem_nil
  have hdone : ∀ {x s}, p.sortOf x = some s →
      x ∈ (p.main.flattenedInterface.entries.map Prod.fst).reverse ++ [] := by
    intro x s hx
    obtain ⟨v, hv, -⟩ := Option.bind_eq_some_iff.mp hx
    rw [List.append_nil, List.mem_reverse]
    exact List.mem_map_of_mem ((OrderedMap.find?_eq_some_iff _ _ _).mp hv)
  have hdisjunction : ∀ q ∈ (mergePathConstraints simplifier c₁.state c₂.state).occurrences,
      (∃ t ∈ c₁.state.pathConstraint, q ∈ t.occurrences) ∨
        ∃ t ∈ c₂.state.pathConstraint, q ∈ t.occurrences := by
    intro q hq
    have hq := simplifier.occurrences_simplify _ hq
    simpa only [Term.occurrences, List.mem_append, Term.mem_occurrences_conjunction] using hq
  refine ⟨acc.versions,
    acc.context simplifier (mergePathConstraints simplifier c₁.state c₂.state) c₁, ?_, ?_⟩
  · unfold merge
    rw [if_neg]
    · rw [hvaluations, hc₁.cycle]
      unfold Context.getFrame
      rw [hstack₁]
      simp only [bind, Except.bind]
      rw [hacc]
    · simp [hc₁.cycle, hc₂.cycle, hlabel, sameFrame, hstack₁, hstack₂]
  · exact {
      invariant := {
        cycle := hc₁.cycle
        acyclic := h.acyclic
        closed := by
          intro t ht
          obtain rfl := List.mem_singleton.mp ht
          intro q hq
          have hq := simplifier.occurrences_simplify _ hq
          simp only [Term.conjunction, Term.occurrences, List.append_nil] at hq
          refine substituteMerged_closed (fun u hu => (h.merged u hu).2) ?_ q hq
          intro q hq
          rcases hdisjunction q hq with ⟨t, ht, hq⟩ | ⟨t, ht, hq⟩
          · exact (hc₁.closed t ht).mono h.left q hq
          · exact (hc₂.closed t ht).mono h.right q hq
        current := by
          intro x s hx
          obtain ⟨s', v, -, -, t, hs', hv, -, -, ht, -⟩ := h.current x (hdone hx)
          rw [hx] at hs'
          cases hs'
          exact ⟨v, hv, t, ht⟩
        declared := by
          intro x v hx
          obtain ⟨s, -, -, -, -, hs, -⟩ := h.current x (h.declared x v hx)
          exact ⟨s, hs⟩
        bounded := h.bounded }
      le := h.le
      callStack := rfl
      vertex := rfl
      left := h.left
      right := h.right
      added := h.added
      current := by
        intro x s hx
        obtain ⟨s', v, v₁, v₂, t, hs', hv, hv₁, hv₂, -, heval⟩ := h.current x (hdone hx)
        rw [hx] at hs'
        cases hs'
        exact ⟨v, v₁, v₂, hv, hv₁, hv₂, heval⟩
      pathConstraint := by
        intro hrenames M
        unfold Merging.context
        dsimp only
        rw [substituteMerged_eq_self _ fun q hq u hu huq => hrenames ⟨q,
          (Term.mem_constants _ q).mp hq, huq ▸ (h.merged u hu).1⟩]
        simp only [List.mem_singleton, forall_eq]
        unfold Term.Holds
        rw [simplifier.eval_simplify]
        change Term.Holds M (Term.conjunction [_]) ↔ _
        rw [Term.holds_conjunction, List.forall_mem_singleton]
        unfold Term.Holds mergePathConstraints
        rw [simplifier.eval_simplify]
        refine Bool.or_eq_true_iff.trans (or_congr ?_ ?_)
        · exact Term.holds_conjunction M _
        · exact Term.holds_conjunction M _ }

theorem merge_eq {versions' : Versions} (h : merge simplifier versions c₁ c₂ = .ok (versions', m)) :
    c₁.state.vertex.label = c₂.state.vertex.label ∧ c₁.callStack.length = 1 ∧
      c₂.callStack.length = 1 ∧ ∃ valuations, mergeValuations
        c₂.state.symbolicValuations.entries c₁.state.symbolicValuations = .ok valuations := by
  unfold merge at h
  split_ifs at h with hassert
  obtain ⟨valuations, hvaluations, -⟩ := bind_eq_ok h
  simp only [ne_eq, Bool.or_eq_true, decide_eq_true_eq, not_or, not_not,
    Bool.not_eq_true, Bool.not_eq_false'] at hassert
  obtain ⟨⟨-, hlabel⟩, hframe⟩ := hassert
  have hdepth : c₁.callStack.length = 1 ∧ c₂.callStack.length = 1 := by
    unfold sameFrame at hframe
    split at hframe
    · rename_i h₁ h₂
      rw [h₁, h₂]
      exact ⟨rfl, rfl⟩
    · cases hframe
  exact ⟨hlabel, hdepth.1, hdepth.2, valuations, hvaluations⟩

theorem merge_spec {versions' : Versions} (hp : p.WellFormed) (hc₁ : c₁.Invariant p versions k)
    (hc₂ : c₂.Invariant p versions k) (hplaced₁ : c₁.Placed p) (hplaced₂ : c₂.Placed p)
    (h : merge simplifier versions c₁ c₂ = .ok (versions', m)) :
    Merged p simplifier versions versions' k c₁ c₂ m := by
  obtain ⟨hlabel, hdepth₁, hdepth₂, valuations, hvaluations⟩ := merge_eq h
  obtain ⟨versions₁, m₁, hm₁, hmerged⟩ := merge_of_valuations simplifier hp hc₁ hc₂
    hlabel (hplaced₁.stack.of_length_one hdepth₁) (hplaced₂.stack.of_length_one hdepth₂) hvaluations
  rw [hm₁] at h
  cases h
  exact hmerged

/-- What the merge of several contexts gives, one after the other. -/
inductive MergedAll (p : Program) (simplifier : Simplifier String) (k : ℕ) :
    Versions → Versions → Context → List Context → Context → Prop where
  | nil (versions : Versions) (c : Context) : MergedAll p simplifier k versions versions c [] c
  | cons {versions versions₁ versions' : Versions} {c c' m₁ m : Context} {cs : List Context}
      (h : Merged p simplifier versions versions₁ k c c' m₁)
      (hrest : MergedAll p simplifier k versions₁ versions' m₁ cs m) :
      MergedAll p simplifier k versions versions' c (c' :: cs) m

end Merger

end Ahorn.Etfa
