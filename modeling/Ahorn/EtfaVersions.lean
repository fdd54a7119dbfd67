import Ahorn.EtfaReachable

set_option autoImplicit false

/-!
# Names of versions are never reused

A name is defined once in a cycle: every operation that writes draws a version above the one the
executor remembers, and no live context has a name above it. Nothing here depends on what the
summaries say, or on the sorts of the program.
-/
namespace Ahorn.Etfa

variable {p : Program} {versions versions' : Versions} {k : ℕ} {c c' c₁ c₂ m : Context} {frame : Frame}
  {simplifier : Simplifier String} {solver : Solver String}
  {findApplicableSummaries : Context → Except String (List Summary)}

namespace Context

/-- No name and no current version of the context exceeds the versions of the executor. -/
structure Bounded (versions : Versions) (k : ℕ) (c : Context) : Prop where
  cycle : c.cycle = k
  names : ∀ {x v d e}, c.definitions (contextualized x v d) = some e →
    d ≤ k ∧ (d = k → ∃ w, versions.find? x = some w ∧ v ≤ w)
  locals : ∀ {x v}, c.state.flattenedNameToVersion.find? x = some v →
    ∃ w, versions.find? x = some w ∧ v ≤ w

/-- The second context defines what the first one does, and beyond that only names of versions above
the given ones. -/
structure Grows (versions : Versions) (k : ℕ) (c c' : Context) : Prop where
  keep : ∀ q e, c.definitions q = some e → c'.definitions q = some e
  added : ∀ q e, c'.definitions q = some e → c.definitions q = some e ∨
    ∃ x v, q = contextualized x v k ∧ ∀ w, versions.find? x = some w → w < v

theorem Bounded.mono (h : c.Bounded versions k) (hle : versions.Le versions') :
    c.Bounded versions' k where
  cycle := h.cycle
  names := by
    intro x v d e hd
    obtain ⟨hd, hv⟩ := h.names hd
    refine ⟨hd, fun heq => ?_⟩
    obtain ⟨w, hw, hvw⟩ := hv heq
    obtain ⟨w', hw', hww⟩ := hle x w hw
    exact ⟨w', hw', hvw.trans hww⟩
  locals := by
    intro x v hx
    obtain ⟨w, hw, hvw⟩ := h.locals hx
    obtain ⟨w', hw', hww⟩ := hle x w hw
    exact ⟨w', hw', hvw.trans hww⟩

theorem Bounded.of_eq (h : c.Bounded versions k) (hcycle : c'.cycle = c.cycle)
    (hvaluations : c'.state.symbolicValuations = c.state.symbolicValuations)
    (hversions : c'.state.flattenedNameToVersion = c.state.flattenedNameToVersion) :
    c'.Bounded versions k where
  cycle := hcycle.trans h.cycle
  names := by
    intro x v d e hd
    unfold definitions at hd
    rw [hvaluations] at hd
    exact h.names hd
  locals := by
    intro x v hx
    rw [hversions] at hx
    exact h.locals hx

theorem Bounded.fresh (h : c.Bounded versions k) {x : String} {v : ℕ}
    (hv : ∀ w, versions.find? x = some w → w < v) :
    c.definitions (contextualized x v k) = none := by
  cases hd : c.definitions (contextualized x v k) with
  | none => rfl
  | some e =>
    obtain ⟨w, hw, hle⟩ := (h.names hd).2 rfl
    exact absurd (hv w hw) (Nat.not_lt.mpr hle)

theorem Grows.of_eq (h : c'.state.symbolicValuations = c.state.symbolicValuations) :
    Grows versions k c c' where
  keep := by
    intro q e hq
    unfold definitions
    rw [h]
    exact hq
  added := by
    intro q e hq
    unfold definitions at hq
    rw [h] at hq
    exact Or.inl hq

theorem Grows.mono (h : Grows versions' k c c') (hle : versions.Le versions') :
    Grows versions k c c' where
  keep := h.keep
  added := by
    intro q e hq
    refine (h.added q e hq).imp id ?_
    rintro ⟨x, v, rfl, hv⟩
    refine ⟨x, v, rfl, fun w hw => ?_⟩
    obtain ⟨w', hw', hww⟩ := hle x w hw
    exact hww.trans_lt (hv w' hw')

theorem Agrees.symm (h : c.Agrees c') : c'.Agrees c :=
  fun n e e' he he' => (h n e' e he' he).symm

theorem Agrees.refl (c : Context) : c.Agrees c := by
  intro n e e' he he'
  rw [he] at he'
  exact Option.some.inj he'

theorem Grows.agrees (h : Grows versions k c c') (hm : m.Bounded versions k) (hagrees : m.Agrees c) :
    m.Agrees c' := by
  intro n e e' he he'
  rcases h.added n e' he' with he' | ⟨x, v, rfl, hv⟩
  · exact hagrees n e e' he he'
  · rw [hm.fresh hv] at he
    cases he

theorem Grows.self_agrees (h : Grows versions k c c') : c.Agrees c' := by
  intro n e e' he he'
  rw [h.keep n e he] at he'
  exact Option.some.inj he'

/-- One fresh version of a variable. -/
theorem Bounded.write (h : c.Bounded versions k) {x : String} {v w : ℕ} {e : SortedTerm String}
    (hw : versions.find? x = some w) (hv : w < v) (hcycle : c'.cycle = c.cycle)
    (hvaluations : c'.state.symbolicValuations =
      c.state.symbolicValuations.emplace (contextualized x v k) e)
    (hversions : c'.state.flattenedNameToVersion = c.state.flattenedNameToVersion.assign x v) :
    c'.Bounded (versions.assign x v) k ∧ Grows versions k c c' := by
  have habove : ∀ w', versions.find? x = some w' → w' < v := by
    intro w' hw'
    rw [hw] at hw'
    cases hw'
    exact hv
  have hfresh := h.fresh habove
  have hle := Versions.Le.assign hw hv.le
  have hback : ∀ q u, c'.definitions q = some u →
      c.definitions q = some u ∨ q = contextualized x v k := by
    intro q u hq
    by_cases hname : q = contextualized x v k
    · exact Or.inr hname
    · unfold definitions at hq
      rw [hvaluations, OrderedMap.find?_emplace_ne _ _ hname] at hq
      exact Or.inl hq
  have hself : (versions.assign x v).find? x = some v := by rw [OrderedMap.find?_assign, if_pos rfl]
  refine ⟨⟨hcycle.trans h.cycle, ?_, ?_⟩, ⟨?_, ?_⟩⟩
  · intro y u d t hd
    rcases hback _ t hd with hd | hname
    · exact (h.mono hle).names hd
    · obtain ⟨rfl, rfl, rfl⟩ := contextualized_injective hname
      exact ⟨le_rfl, fun _ => ⟨u, hself, le_rfl⟩⟩
  · intro y u hy
    rw [hversions, OrderedMap.find?_assign] at hy
    split_ifs at hy with hyx
    · cases hy
      exact ⟨v, hyx ▸ hself, le_rfl⟩
    · exact (h.mono hle).locals hy
  · intro q u hq
    unfold definitions
    rw [hvaluations, OrderedMap.find?_emplace_ne _ _ fun hname => by
      rw [hname, hfresh] at hq; cases hq]
    exact hq
  · intro q u hq
    exact (hback q u hq).imp id fun hname => ⟨x, v, hname, habove⟩

end Context

namespace Executor

open Context

variable {ex : Executor} {summary : Summary}

theorem visitAssignment_bounded {r : VariableReference} {e : Expression}
    (hc : c.Bounded versions k)
    (h : ex.visitAssignment frame r e versions c = .ok (versions', c')) :
    versions.Le versions' ∧ c'.Bounded versions' k ∧ Grows versions k c c' := by
  obtain ⟨t, -, h⟩ := bind_eq_ok h
  obtain ⟨w, hw, h⟩ := bind_eq_ok h
  obtain ⟨st₁, hst₁, h⟩ := bind_eq_ok h
  obtain ⟨st₂, hst₂, h⟩ := bind_eq_ok h
  obtain ⟨edge, -, h⟩ := bind_eq_ok h
  obtain ⟨next, -, h⟩ := bind_eq_ok h
  cases h
  obtain ⟨-, rfl⟩ := State.setVersion_eq hst₁
  obtain ⟨-, rfl⟩ := State.setSymbolicValuation_eq hst₂
  have hw := getVersion_eq hw
  refine ⟨Versions.Le.assign hw (Nat.le_succ w),
    hc.write (e := t) hw (Nat.lt_succ_self w) rfl ?_ rfl⟩
  rw [hc.cycle]
  rfl

theorem reversionValuations_names {used : OrderedMap String String}
    {entries : List (String × SortedTerm String)}
    {valuations valuations' : OrderedMap String (SortedTerm String)}
    (h : reversionValuations used entries valuations = .ok valuations') {q : String}
    {e : SortedTerm String} (hq : valuations'.find? q = some e) :
    valuations.find? q = some e ∨ ∃ x ∈ entries, used.find? x.1 = some q := by
  induction entries generalizing valuations with
  | nil =>
    cases h
    exact Or.inl hq
  | cons entry entries ih =>
    obtain ⟨n, s, t⟩ := entry
    obtain ⟨t', -, h⟩ := bind_eq_ok h
    cases hn : used.find? n with
    | none =>
      rw [hn] at h
      cases h
    | some n' =>
      rw [hn] at h
      rcases ih h with hq | ⟨x, hx, hq⟩
      · by_cases hname : q = n'
        · exact Or.inr ⟨_, List.mem_cons_self, hname ▸ hn⟩
        · rw [OrderedMap.find?_emplace_ne _ _ hname] at hq
          exact Or.inl hq
      · exact Or.inr ⟨x, List.mem_cons_of_mem _ hx, hq⟩

theorem applySummary_bounded (hc : c.Bounded versions k)
    (h : applySummary summary versions c = .ok (versions', c')) :
    versions.Le versions' ∧ c'.Bounded versions' k ∧ Grows versions k c c' := by
  obtain ⟨r, valuations, constraints, hparts⟩ := applySummary_parts h
  obtain ⟨names, hnames, hcovers⟩ := hparts.covers
  have hle : versions.Le versions' := by
    intro f v hv
    exact ⟨_, by rw [hparts.versions, hv, Option.map_some], Nat.le_max_left _ _⟩
  have hback : ∀ q e, c'.definitions q = some e → c.definitions q = some e ∨ ∃ n g,
      n ∈ names ∧ q = contextualized (decontextualize n) (versionIn summary versions c.state n) k ∧
      versions.find? (decontextualize n) = some g ∧ g < versionIn summary versions c.state n := by
    intro q e hq
    rw [hparts.definitions] at hq
    cases hd : c.definitions q with
    | some e' =>
      rw [hd, Option.some_or] at hq
      exact Or.inl hq
    | none =>
      rw [hd, Option.none_or] at hq
      rcases reversionValuations_names hparts.reversioned hq with hq | ⟨x, hx, hq⟩
      · cases hq
      · rw [hcovers.used] at hq
        split_ifs at hq with hmem
        cases hq
        have hn := (OrderedMap.find?_eq_some_iff _ _ _).mpr hx
        obtain ⟨g, hg⟩ := hparts.global hn
        refine Or.inr ⟨x.1, g, hmem, by rw [hc.cycle], hg, ?_⟩
        simp only [versionIn, hn, hg, Option.isSome_some, ↓reduceIte, Option.getD_some]
        omega
  refine ⟨hle, ⟨hparts.cycle.trans hc.cycle, ?_, ?_⟩, ⟨?_, ?_⟩⟩
  · intro x v d e hd
    rcases hback _ e hd with hd | ⟨n, g, hn, hname, hg, -⟩
    · exact (hc.mono hle).names hd
    · obtain ⟨rfl, rfl, rfl⟩ := contextualized_injective hname
      refine ⟨le_rfl, fun _ => ?_⟩
      obtain ⟨u, hu, hnu⟩ := hcovers.highest n hn
      refine ⟨_, by rw [hparts.versions, hg, Option.map_some], ?_⟩
      rw [hu]
      exact hnu.trans (Nat.le_max_right _ _)
  · intro x v hx
    rw [hparts.version] at hx
    cases hd : r.highest.find? x with
    | some u =>
      rw [hd, Option.some_or] at hx
      cases hx
      obtain ⟨w, hw⟩ := hparts.declared x v hd
      obtain ⟨g, hg, -⟩ := hc.locals hw
      refine ⟨_, by rw [hparts.versions, hg, Option.map_some], ?_⟩
      rw [hd]
      exact Nat.le_max_right _ _
    | none =>
      rw [hd, Option.none_or] at hx
      exact (hc.mono hle).locals hx
  · intro q e hq
    rw [hparts.definitions, hq, Option.some_or]
  · intro q e hq
    refine (hback q e hq).imp id ?_
    rintro ⟨n, g, -, rfl, hg, hlt⟩
    refine ⟨_, _, rfl, fun w hw => ?_⟩
    rw [hg] at hw
    cases hw
    exact hlt

theorem applySummaries_bounded {returnVertex : Vertex} {callStack : List Frame}
    {summaries : List Summary} {cs : List Context} (hc : c.Bounded versions k)
    (h : applySummaries returnVertex callStack c summaries versions = .ok (versions', cs)) :
    versions.Le versions' ∧ (∀ c' ∈ cs, c'.Bounded versions' k ∧ Grows versions k c c') ∧
      cs.Pairwise Agrees := by
  induction summaries generalizing versions cs with
  | nil =>
    cases h
    exact ⟨Versions.Le.refl _, fun _ h => absurd h List.not_mem_nil, List.Pairwise.nil⟩
  | cons summary summaries ih =>
    obtain ⟨⟨versions₁, c₁⟩, h₁, h⟩ := bind_eq_ok h
    obtain ⟨⟨versions₂, cs₂⟩, h₂, h⟩ := bind_eq_ok h
    cases h
    obtain ⟨hle₁, hc₁, hgrows₁⟩ := applySummary_bounded hc h₁
    obtain ⟨hle₂, hcs₂, hpairs⟩ := ih (hc.mono hle₁) h₂
    have hplace : Context.Bounded versions₁ k
        { moveTo returnVertex c₁ with callStack := callStack } := hc₁.of_eq rfl rfl rfl
    have hgrows : Grows versions k c { moveTo returnVertex c₁ with callStack := callStack } :=
      ⟨hgrows₁.keep, hgrows₁.added⟩
    refine ⟨hle₁.trans hle₂, fun c' hc' => ?_, List.pairwise_cons.mpr ⟨fun c' hc' => ?_, hpairs⟩⟩
    · rcases List.mem_cons.mp hc' with rfl | hc'
      · exact ⟨hplace.mono hle₂, hgrows⟩
      · exact ⟨(hcs₂ c' hc').1, (hcs₂ c' hc').2.mono hle₁⟩
    · exact (hcs₂ c' hc').2.agrees hplace hgrows.self_agrees.symm

theorem handleProgramExitVertex_bounded (hc : c.Bounded versions k)
    (h : ex.handleProgramExitVertex frame versions c = .ok (versions', c')) :
    c'.Bounded versions' (k + 1) := by
  unfold handleProgramExitVertex at h
  split_ifs at h with hdepth
  obtain ⟨⟨versions₁, st₁⟩, hcarry, h⟩ := bind_eq_ok h
  obtain ⟨st₂, hreset, h⟩ := bind_eq_ok h
  obtain ⟨next, -, h⟩ := bind_eq_ok h
  cases h
  rw [hc.cycle] at hcarry
  obtain ⟨hversion, -, hback, hglobal⟩ := carryOver_names hcarry
  obtain ⟨hvaluations, -, hlocal⟩ := resetVersions_spec hreset
  refine ⟨congrArg (· + 1) hc.cycle, ?_, ?_⟩
  · intro x v d e hd
    unfold definitions at hd
    dsimp only at hd
    rw [hvaluations] at hd
    rcases hback _ e hd with hd | ⟨y, u, hy, hname⟩
    · obtain ⟨hle, -⟩ := hc.names hd
      exact ⟨by omega, by omega⟩
    · obtain ⟨rfl, rfl, rfl⟩ := contextualized_injective hname
      exact ⟨le_rfl, fun _ => ⟨0, (hglobal x).trans (if_pos (List.mem_map_of_mem hy)), le_rfl⟩⟩
  · intro x v hx
    have hx := (hlocal x).symm.trans hx
    rw [hglobal]
    split_ifs at hx ⊢ with hmem
    · cases hx
      exact ⟨0, rfl, le_rfl⟩
    · rw [hversion] at hx
      exact hc.locals hx

/-- A step within the cycle grows the context, and its successors agree. -/
theorem execute_bounded {successors : Successors} (hc : c.Bounded versions k)
    (h : ex.execute versions c = .ok (versions', successors)) :
    (versions.Le versions' ∧ (∀ c' ∈ successors.contexts ++ successors.forked.toList,
        c'.Bounded versions' k ∧ Grows versions k c c') ∧
      (successors.contexts ++ successors.forked.toList).Pairwise Agrees) ∨
    (c.AtExit ∧ ∃ c', successors = ⟨[c'], none⟩ ∧ c'.Bounded versions' (k + 1)) := by
  obtain ⟨frame, frames, hstack, hexecutes⟩ := execute_cases h
  have hsingle : ∀ {c' : Context}, c'.Bounded versions' k → Grows versions k c c' →
      (∀ c'' ∈ [c'] ++ none.toList, c''.Bounded versions' k ∧ Grows versions k c c'') ∧
        ([c'] ++ none.toList).Pairwise Agrees := by
    intro c' hb hg
    refine ⟨fun c'' hc'' => ?_, List.pairwise_singleton _ _⟩
    obtain rfl : c'' = c' := List.mem_singleton.mp (by simpa using hc'')
    exact ⟨hb, hg⟩
  cases hexecutes with
  | move _ _ =>
    exact Or.inl ⟨Versions.Le.refl _, hsingle (hc.of_eq rfl rfl rfl) (Grows.of_eq rfl)⟩
  | assignment _ _ hstep =>
    obtain ⟨hle, hb, hg⟩ := visitAssignment_bounded hc hstep
    exact Or.inl ⟨hle, hsingle hb hg⟩
  | @call called _ _ _ _ _ _ hstep =>
    obtain ⟨typeName, callee, edge, summaries, -, -, -, -, -, hor⟩ := visitCall_cases hstep
    have hinside : (inside frame called callee edge.targetLabel c).Bounded versions k :=
      hc.of_eq rfl rfl rfl
    rcases hor with ⟨-, rfl, -, next, -, rfl⟩ | ⟨-, next, cs, -, happly, rfl⟩
    · exact Or.inl ⟨Versions.Le.refl _, hsingle (hinside.of_eq rfl rfl rfl) (Grows.of_eq rfl)⟩
    · obtain ⟨hle, hcs, hpairs⟩ := applySummaries_bounded hinside happly
      refine Or.inl ⟨hle, fun c' hc' => ?_, by simpa using hpairs⟩
      obtain ⟨hb, hg⟩ := hcs c' (by simpa using hc')
      exact ⟨hb, hg.keep, hg.added⟩
  | branch _ _ hstep =>
    obtain ⟨t, positive, negative, -, -, -, hboth⟩ := visitIf_cases hstep
    have hsame : ∀ c' ∈ successors.contexts ++ successors.forked.toList,
        c'.Bounded versions k ∧ Grows versions k c c' := by
      intro c' hc'
      rcases hboth c' hc' with rfl | rfl
      · exact ⟨hc.of_eq rfl rfl rfl, Grows.of_eq rfl⟩
      · exact ⟨hc.of_eq rfl rfl rfl, Grows.of_eq rfl⟩
    refine Or.inl ⟨Versions.Le.refl _, hsame, List.pairwise_iff_forall_sublist.mpr ?_⟩
    intro c₁ c₂ hsub
    -- both forks have the valuations of the context
    have hdef : ∀ c' ∈ [c₁, c₂], c'.definitions = c.definitions := by
      intro c' hc'
      rcases hboth c' (hsub.subset hc') with rfl | rfl <;> rfl
    intro n e e' he he'
    rw [hdef c₁ (by simp)] at he
    rw [hdef c₂ (by simp)] at he'
    exact Agrees.refl c n e e' he he'
  | programExit htype hstep =>
    exact Or.inr ⟨⟨(handleProgramExitVertex_returns hstep).1, htype⟩, _, rfl,
      handleProgramExitVertex_bounded hc hstep⟩
  | functionBlockExit _ hstep =>
    obtain ⟨callee, caller, callers, next, -, -, rfl⟩ := handleFunctionBlockExitVertex_returns hstep
    exact Or.inl ⟨Versions.Le.refl _, hsingle (hc.of_eq rfl rfl rfl) (Grows.of_eq rfl)⟩

end Executor

namespace Merger

open Context

/-- What the merge has drawn so far, from the union of the valuations. -/
structure Draws (versions : Versions) (k : ℕ) (valuations : OrderedMap String (SortedTerm String))
    (acc : Merging) : Prop where
  le : versions.Le acc.versions
  keep : ∀ n e, valuations.find? n = some e → acc.symbolicValuations.find? n = some e
  added : ∀ n e, acc.symbolicValuations.find? n = some e → valuations.find? n = some e ∨
    ∃ x v, n = contextualized x v k ∧ ∀ w, versions.find? x = some w → w < v
  names : ∀ {x v d e}, acc.symbolicValuations.find? (contextualized x v d) = some e →
    d ≤ k ∧ (d = k → ∃ w, acc.versions.find? x = some w ∧ v ≤ w)
  locals : ∀ {x v}, acc.flattenedNameToVersion.find? x = some v →
    ∃ w, acc.versions.find? x = some w ∧ v ≤ w

variable {valuations : OrderedMap String (SortedTerm String)} {acc acc' : Merging}

theorem Draws.draw (h : Draws versions k valuations acc) {x : String} {w : ℕ}
    {e : SortedTerm String} {merged : List ((SmtSort × String) × String)}
    (hw : acc.versions.find? x = some w) :
    Draws versions k valuations
      { versions := acc.versions.assign x (w + 1)
        symbolicValuations := acc.symbolicValuations.emplace (contextualized x (w + 1) k) e
        flattenedNameToVersion := acc.flattenedNameToVersion.emplace x (w + 1)
        mergedVariables := merged } := by
  have hle := Versions.Le.assign hw (Nat.le_succ w)
  have hself : (acc.versions.assign x (w + 1)).find? x = some (w + 1) := by
    rw [OrderedMap.find?_assign, if_pos rfl]
  have hfresh : acc.symbolicValuations.find? (contextualized x (w + 1) k) = none := by
    cases hd : acc.symbolicValuations.find? (contextualized x (w + 1) k) with
    | none => rfl
    | some e' =>
      obtain ⟨w', hw', hle⟩ := (h.names hd).2 rfl
      rw [hw] at hw'
      cases hw'
      omega
  have hback : ∀ n u, (acc.symbolicValuations.emplace (contextualized x (w + 1) k) e).find? n =
      some u → acc.symbolicValuations.find? n = some u ∨ n = contextualized x (w + 1) k := by
    intro n u hn
    by_cases hname : n = contextualized x (w + 1) k
    · exact Or.inr hname
    · rw [OrderedMap.find?_emplace_ne _ _ hname] at hn
      exact Or.inl hn
  refine ⟨h.le.trans hle, fun n u hn => ?_, fun n u hn => ?_, fun {y v d u} hd => ?_,
    fun {y v} hy => ?_⟩
  · have hn := h.keep n u hn
    dsimp only
    rw [OrderedMap.find?_emplace_ne _ _ fun hname => by rw [hname, hfresh] at hn; cases hn]
    exact hn
  · rcases hback n u hn with hn | hname
    · exact h.added n u hn
    · refine Or.inr ⟨x, w + 1, hname, fun w₀ hw₀ => ?_⟩
      obtain ⟨w', hw', hle⟩ := h.le x w₀ hw₀
      rw [hw] at hw'
      cases hw'
      omega
  · rcases hback _ u hd with hd | hname
    · obtain ⟨hdk, hv⟩ := h.names hd
      refine ⟨hdk, fun heq => ?_⟩
      obtain ⟨u, hu, hvu⟩ := hv heq
      obtain ⟨u', hu', huu⟩ := hle y u hu
      exact ⟨u', hu', hvu.trans huu⟩
    · obtain ⟨rfl, rfl, rfl⟩ := contextualized_injective hname
      exact ⟨le_rfl, fun _ => ⟨w + 1, hself, le_rfl⟩⟩
  · dsimp only at hy
    rw [OrderedMap.find?_emplace] at hy
    have hold : acc.flattenedNameToVersion.find? y = some v →
        ∃ w', (acc.versions.assign x (w + 1)).find? y = some w' ∧ v ≤ w' := by
      intro hy
      obtain ⟨u, hu, hvu⟩ := h.locals hy
      obtain ⟨u', hu', huu⟩ := hle y u hu
      exact ⟨u', hu', hvu.trans huu⟩
    split_ifs at hy with hyx
    · subst hyx
      cases hd : acc.flattenedNameToVersion.find? y with
      | none =>
        rw [hd, Option.none_or] at hy
        cases hy
        exact ⟨w + 1, hself, le_rfl⟩
      | some u =>
        rw [hd, Option.some_or] at hy
        exact hold (hd.trans hy)
    · exact hold hy

theorem mergeVariable_draws {x : String} {flattened : Variable} (hc₁ : c₁.Bounded versions k)
    (h : Draws versions k valuations acc)
    (hmerge : mergeVariable simplifier c₁.state c₂.state k x flattened acc = .ok acc') :
    Draws versions k valuations acc' := by
  obtain ⟨v₁, hv₁, hmerge⟩ := bind_eq_ok hmerge
  obtain ⟨v₂, -, hmerge⟩ := bind_eq_ok hmerge
  have hv₁ := State.getVersion_eq hv₁
  split_ifs at hmerge with hv
  · cases hmerge
    refine ⟨h.le, h.keep, h.added, h.names, fun {y v} hy => ?_⟩
    dsimp only at hy
    rw [OrderedMap.find?_emplace] at hy
    obtain ⟨w, hw, hvw⟩ := hc₁.locals hv₁
    obtain ⟨w', hw', hww⟩ := h.le x w hw
    split_ifs at hy with hyx
    · subst hyx
      cases hd : acc.flattenedNameToVersion.find? y with
      | none =>
        rw [hd, Option.none_or] at hy
        cases hy
        exact ⟨w', hw', hvw.trans hww⟩
      | some u =>
        rw [hd, Option.some_or] at hy
        exact h.locals (hd.trans hy)
    · exact h.locals hy
  · obtain ⟨e₁, -, hmerge⟩ := bind_eq_ok hmerge
    obtain ⟨e₂, -, hmerge⟩ := bind_eq_ok hmerge
    obtain ⟨w, hw, hmerge⟩ := bind_eq_ok hmerge
    have hw := Executor.getVersion_eq hw
    dsimp only at hmerge
    split_ifs at hmerge with he
    · cases hmerge
      exact h.draw hw
    · obtain ⟨s, -, hmerge⟩ := bind_eq_ok hmerge
      cases hmerge
      exact h.draw hw

theorem mergeVariables_draws {entries : List (String × Variable)} (hc₁ : c₁.Bounded versions k)
    (h : Draws versions k valuations acc)
    (hmerge : mergeVariables simplifier c₁.state c₂.state k entries acc = .ok acc') :
    Draws versions k valuations acc' := by
  induction entries generalizing acc with
  | nil =>
    cases hmerge
    exact h
  | cons entry entries ih =>
    obtain ⟨acc₁, hacc₁, hmerge⟩ := bind_eq_ok hmerge
    exact ih (mergeVariable_draws hc₁ h hacc₁) hmerge

/-- A merged context is bounded, and whatever agrees with both contexts agrees with it. -/
theorem merge_bounded (hc₁ : c₁.Bounded versions k) (hc₂ : c₂.Bounded versions k)
    (h : merge simplifier versions c₁ c₂ = .ok (versions', m)) :
    versions.Le versions' ∧ m.Bounded versions' k ∧ ∀ c : Context, c.Bounded versions k →
      c.Agrees c₁ → c.Agrees c₂ → c.Agrees m := by
  unfold merge at h
  split_ifs at h
  obtain ⟨valuations, hvaluations, h⟩ := bind_eq_ok h
  obtain ⟨frame, -, h⟩ := bind_eq_ok h
  obtain ⟨acc, hacc, h⟩ := bind_eq_ok h
  cases h
  obtain ⟨hfind, -⟩ := mergeValuations_spec hvaluations
  have hback : ∀ n e, valuations.find? n = some e →
      c₁.definitions n = some e ∨ c₂.definitions n = some e := by
    intro n e hn
    rw [hfind] at hn
    cases h₁ : c₁.state.symbolicValuations.find? n with
    | some e' =>
      rw [h₁, Option.some_or] at hn
      exact Or.inl (h₁.trans hn)
    | none =>
      rw [h₁, Option.none_or] at hn
      exact Or.inr hn
  rw [hc₁.cycle] at hacc
  have hstart : Draws versions k valuations ⟨versions, valuations, .empty, []⟩ :=
    ⟨Versions.Le.refl _, fun _ _ h => h, fun _ _ h => Or.inl h, fun {x v d e} hd =>
      (hback _ e hd).elim hc₁.names hc₂.names, fun {x v} h => by cases h⟩
  have hdraws := mergeVariables_draws hc₁ hstart hacc
  refine ⟨hdraws.le, ⟨hc₁.cycle, hdraws.names, hdraws.locals⟩, ?_⟩
  intro c hc hagrees₁ hagrees₂ n e e' he he'
  rcases hdraws.added n e' he' with he' | ⟨x, v, rfl, hv⟩
  · rcases hback n e' he' with he' | he'
    · exact hagrees₁ n e e' he he'
    · exact hagrees₂ n e e' he he'
  · rw [hc.fresh hv] at he
    cases he

theorem mergeAll_bounded {cs : List Context} (hc : c.Bounded versions k)
    (hcs : ∀ c' ∈ cs, c'.Bounded versions k)
    (h : mergeAll simplifier versions c cs = .ok (versions', m)) :
    versions.Le versions' ∧ m.Bounded versions' k ∧ ∀ c' : Context, c'.Bounded versions k →
      (∀ c'' ∈ c :: cs, c'.Agrees c'') → c'.Agrees m := by
  induction cs generalizing versions c with
  | nil =>
    cases h
    exact ⟨Versions.Le.refl _, hc, fun c' _ hagrees => hagrees _ List.mem_cons_self⟩
  | cons c₂ cs ih =>
    obtain ⟨⟨versions₁, m₁⟩, hm₁, h⟩ := bind_eq_ok h
    obtain ⟨hle₁, hb₁, hagrees₁⟩ := merge_bounded hc (hcs c₂ List.mem_cons_self) hm₁
    obtain ⟨hle, hb, hagrees⟩ := ih hb₁
      (fun c' hc' => (hcs c' (List.mem_cons_of_mem _ hc')).mono hle₁) h
    refine ⟨hle₁.trans hle, hb, fun c' hc' hall => ?_⟩
    refine hagrees c' (hc'.mono hle₁) fun c'' hc'' => ?_
    rcases List.mem_cons.mp hc'' with rfl | hc''
    · exact hagrees₁ c' hc' (hall c List.mem_cons_self)
        (hall c₂ (List.mem_cons_of_mem _ List.mem_cons_self))
    · exact hall c'' (List.mem_cons_of_mem _ (List.mem_cons_of_mem _ hc''))

end Merger

namespace Engine

open Context

/-- No live context exceeds the versions of the executor, and any two live ones agree. -/
structure Named (p : Program) (g : Engine) : Prop where
  bounded : Keeps p (fun versions k c => c.Bounded versions k) g
  agrees : ∀ c ∈ g.explorer ++ g.merger, ∀ c' ∈ g.explorer ++ g.merger, c.Agrees c'

theorem Named.live {g : Engine} (hg : Named p g) :
    ∀ c ∈ g.explorer ++ g.merger, c.Bounded g.versions g.cycle := by
  intro c hc
  rcases List.mem_append.mp hc with hc | hc
  · exact (hg.bounded.explorer c hc).1
  · exact (hg.bounded.merger c hc).1

theorem Named.explore {g : Engine} {rest rest' : List Context} {versions : Versions}
    {successors : Executor.Successors} (hp : p.WellFormed) (hg : Named p g)
    (hexplorer : g.explorer = rest ++ c :: rest')
    (h : (executor p simplifier solver findApplicableSummaries).execute g.versions c =
      .ok (versions, successors)) :
    Named p ((successors.contexts ++ successors.forked.toList).foldl (push p)
      { g with versions := versions, explorer := rest ++ rest' }) := by
  have hmem : c ∈ g.explorer ++ g.merger := by
    rw [hexplorer]
    exact List.mem_append_left _ (List.mem_append_right _ List.mem_cons_self)
  have hsub : ∀ x ∈ (rest ++ rest') ++ g.merger, x ∈ g.explorer ++ g.merger := by
    intro x hx
    rw [hexplorer]
    simp only [List.mem_append, List.mem_cons] at hx ⊢
    tauto
  have hstep := Executor.execute_bounded (hg.live c hmem) h
  refine ⟨hg.bounded.explore hp (fun h => h.cycle) (fun hle h => h.mono hle) hexplorer h
    (hstep.imp (fun h => ⟨h.1, fun c' hc' => (h.2.1 c' hc').1⟩) id), ?_⟩
  rcases hstep with ⟨hle, hcs, hpairs⟩ | ⟨hexit, c', rfl, hc'⟩
  · obtain ⟨-, -, -, hexplorer', hmerger'⟩ := foldl_push (p := p)
      (g := { g with versions := versions, explorer := rest ++ rest' })
      fun x hx => (hcs x hx).1.cycle
    have hlive : ∀ x ∈ ((successors.contexts ++ successors.forked.toList).foldl (push p)
        { g with versions := versions, explorer := rest ++ rest' }).explorer ++
        ((successors.contexts ++ successors.forked.toList).foldl (push p)
        { g with versions := versions, explorer := rest ++ rest' }).merger,
        x ∈ g.explorer ++ g.merger ∨ x ∈ successors.contexts ++ successors.forked.toList := by
      intro x hx
      rcases List.mem_append.mp hx with hx | hx
      · exact (hexplorer' x hx).imp (fun h => hsub x (List.mem_append_left _ h)) And.left
      · exact (hmerger' x hx).imp (fun h => hsub x (List.mem_append_right _ h)) And.left
    have hnew : ∀ x ∈ g.explorer ++ g.merger,
        ∀ y ∈ successors.contexts ++ successors.forked.toList, x.Agrees y :=
      fun x hx y hy => (hcs y hy).2.agrees (hg.live x hx) (hg.agrees x hx c hmem)
    intro x hx y hy
    rcases hlive x hx with hx | hx <;> rcases hlive y hy with hy | hy
    · exact hg.agrees x hx y hy
    · exact hnew x hx y hy
    · exact (hnew y hy x hx).symm
    · have : Std.Symm Context.Agrees := ⟨fun _ _ h => Agrees.symm h⟩
      exact hpairs.forall_of_forall (fun z _ => Agrees.refl z) hx hy
  · -- the context that leaves the program is the last one of its cycle
    obtain ⟨hall, hmerger⟩ := hg.bounded.exit c
      ((List.mem_append.mp hmem).elim id fun h => by
        rw [hexplorer]
        exact List.mem_append_right _ List.mem_cons_self) hexit
    have hempty : rest ++ rest' = [] := by
      have hlength := congrArg List.length (hall.symm.trans hexplorer)
      apply List.length_eq_zero_iff.mp
      simp only [List.length_append, List.length_cons, List.length_nil] at hlength ⊢
      omega
    have hpush : push p { g with versions := versions, explorer := [] } c' =
        { g with versions := versions, explorer := [], succeedingCycle := some c' } := by
      unfold push
      rw [if_neg]
      rw [hc'.cycle]
      exact Nat.ne_of_lt (Nat.lt_succ_self _)
    rw [hempty]
    simp only [Option.toList_none, List.append_nil, List.foldl_cons, List.foldl_nil]
    rw [hpush]
    intro x hx
    simp only [hmerger, List.append_nil] at hx
    exact absurd hx List.not_mem_nil

theorem Named.merge {g : Engine} {point : MergePoint} {cs : List Context}
    {versions : Versions} (hp : p.WellFormed) (hg : Named p g)
    (hwaiting : g.waiting point = c :: cs)
    (hfirst : ∀ c' ∈ g.merger, ∀ point', Merger.mergePointOf c' = some point' →
      Merger.before point' point = false)
    (h : Merger.mergeAll simplifier g.versions c cs = .ok (versions, m)) :
    Named p { g with
      versions := versions
      explorer := [m]
      merger := g.merger.filter (Merger.mergePointOf · ≠ some point) } := by
  have hmem := mem_waiting hwaiting
  have hlive : ∀ x ∈ g.merger, x ∈ g.explorer ++ g.merger := fun x => List.mem_append_right _
  have hb : ∀ x ∈ c :: cs, x.Bounded g.versions g.cycle :=
    fun x hx => (hg.bounded.merger x (hmem x hx).1).1
  obtain ⟨hle, hm, hagrees⟩ := Merger.mergeAll_bounded (hb c List.mem_cons_self)
    (fun x hx => hb x (List.mem_cons_of_mem _ hx)) h
  refine ⟨hg.bounded.merge hp (fun hle h => h.mono hle) hwaiting hfirst h ⟨hm, hle⟩, ?_⟩
  have hmerged : ∀ x ∈ g.merger, x.Agrees m := fun x hx =>
    hagrees x (hg.bounded.merger x hx).1 fun y hy => hg.agrees x (hlive x hx) y
      (hlive y (hmem y hy).1)
  intro x hx y hy
  simp only [List.cons_append, List.nil_append, List.mem_cons] at hx hy
  rcases hx with rfl | hx <;> rcases hy with rfl | hy
  · exact Agrees.refl _
  · exact (hmerged y (List.mem_of_mem_filter hy)).symm
  · exact hmerged x (List.mem_of_mem_filter hx)
  · exact hg.agrees x (hlive x (List.mem_of_mem_filter hx)) y (hlive y (List.mem_of_mem_filter hy))

theorem Named.initial {g : Engine} (hp : p.WellFormed) (h : Engine.initial p = .ok g) :
    Named p g := by
  have hinv := Invariant.initial hp h
  obtain ⟨vertex, hvertex, h⟩ := bind_eq_ok h
  obtain ⟨⟨versions, st⟩, hst, h⟩ := bind_eq_ok h
  cases h
  have hbounded : ∀ c : Context, c.Invariant p versions 0 → c.Bounded versions 0 := by
    intro c hc
    refine ⟨hc.cycle, hc.bounded, fun {x v} hx => ?_⟩
    obtain ⟨s, hs⟩ := hc.declared hx
    exact (hc.currentVersion hs hx).2
  refine ⟨⟨fun c hc => (hinv.explorer c hc).imp (hbounded c) id, fun c hc => absurd hc
    List.not_mem_nil, hinv.merges, hinv.exit, fun c hc => by cases hc⟩, ?_⟩
  intro c hc c' hc'
  simp only [List.append_nil, List.mem_singleton] at hc hc'
  rw [hc, hc']
  exact Agrees.refl _

theorem Reachable.named {g : Engine} (hp : p.WellFormed)
    (hg : Reachable p simplifier solver findApplicableSummaries g) : Named p g := by
  obtain ⟨g₀, hg₀, hrun⟩ := hg
  induction hrun with
  | refl => exact .initial hp hg₀
  | tail _ hstep ih =>
    cases hstep with
    | explore hexplorer hexecute => exact ih.explore hp hexplorer hexecute
    | merge _ hwaiting hfirst hmerge => exact ih.merge hp hwaiting hfirst hmerge
    | @nextCycle c hexplorer hmerger hnext =>
      refine ⟨ih.bounded.nextCycle hmerger hnext, fun x hx y hy => ?_⟩
      simp only [hmerger, List.append_nil, List.mem_singleton] at hx hy
      rw [hx, hy]
      exact Agrees.refl _

end Engine

end Ahorn.Etfa
