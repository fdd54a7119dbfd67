import Ahorn.PathPartition

set_option autoImplicit false

/-!
# The summaries of a unit

The summary of a path suits the stores its context admits, and describes what the unit does on them.
Paths that have parted never have the same assumptions, so no summary is taken for another one. In a
run of the engine that has come to its end every store suits exactly one summary of each unit.
-/
namespace Ahorn

namespace Etfa

/-- The vertex in the frame calls the unit. -/
structure Program.CallsAt (p : Program) (frame : Frame) (call : Vertex) (callee : Frame) : Prop where
  type : call.type = .regular
  instruction : ∃ called t₁ t₂ typeName,
    call.instruction = some (.callInstruction called t₁ t₂) ∧
    called.dataType = .derivedType typeName ∧ p.getCfg typeName = some callee.cfg ∧
    callee.scope = frame.scope ++ "." ++ called.name
  unit : callee.cfg.type = .functionBlock
  entry : ∃ edge next, frame.cfg.getInterproceduralCallEdge call.label = .ok edge ∧
    edge.targetLabel = callee.cfg.entryLabel ∧ callee.cfg.getVertex edge.targetLabel = .ok next
  back : ∃ edge next, frame.cfg.getIntraproceduralCallToReturnEdge call.label = .ok edge ∧
    frame.cfg.getVertex edge.targetLabel = .ok next

/-- What the call of a unit has done where it returns: the branches are taken, and the variables have
the last values the summary writes. -/
structure Returns (p : Program) (inputs : Inputs) (frame : Frame) (call : Vertex) (N : Model String)
    (summary : Summary) (branches : List Branch) (conf conf' : Configuration) : Prop where
  runs : p.Runs inputs conf conf'
  cycle : conf'.cycle = conf.cycle
  callStack : conf'.callStack = conf.callStack
  branches : conf'.branches = conf.branches ++ branches
  place : ∃ edge, frame.cfg.getIntraproceduralCallToReturnEdge call.label = .ok edge ∧
    frame.cfg.getVertex edge.targetLabel = .ok conf'.vertex
  written : ∀ f v e, summary.hardConstraints.find? (versioned f v) = some e →
    (∀ w e', summary.hardConstraints.find? (versioned f w) = some e' → w ≤ v) →
    conf'.store f = e.1.value (N e.1 (versioned f v))
  kept : ∀ f, (∀ v, summary.hardConstraints.find? (versioned f v) = none) →
    conf'.store f = conf.store f

/-- Executing the call at a vertex in a store with values of the sorts does what the summary says. -/
def Program.DescribesSorted (p : Program) (frame : Frame) (call : Vertex) (summary : Summary)
    (branches : List Branch) : Prop :=
  ∀ inputs conf N frames, p.SortsStore conf.store → conf.vertex = call →
    conf.callStack = frame :: frames →
    (∀ q ∈ summary.occurrences, summary.hardConstraints.find? q.2 = none →
      q.1.value (N q.1 q.2) = conf.store (decontextualize q.2)) →
    Definitions.Respects summary.hardConstraints.find? N →
    (∀ t ∈ summary.assumptions, t.Holds N) →
    ∃ conf', Returns p inputs frame call N summary branches conf conf'

end Etfa

namespace Summarization

open Etfa (Frame)

variable {p : Etfa.Program} {callee frame : Frame} {versions versions' : Versions}
variable {c c' : Context} {simplifier : Simplifier String} {solver : Solver String} {σ : Valuation}
variable {M N : Model String} {st st' : State} {ρ ρ' : String → String} {w w' : String → ℕ → ℕ}
variable {summary summary' : PathSummary}

section Numbers

theorem Renumbers.not_smaller {f : String} {v : ℕ} (h : Renumbers st ρ w) (h' : Renumbers st' ρ' w')
    (hsame : ∀ u ≤ v, st.Writes (versioned f u) ↔ st'.Writes (versioned f u))
    (hwrites : st.Writes (versioned f v)) (ih : ∀ u < v, st.Writes (versioned f u) →
      w f u = w' f u) : ¬ w f v < w' f v := by
  intro hlt
  obtain ⟨k, hk⟩ := h.written f
  obtain ⟨k', hk'⟩ := h'.written f
  have hwrites' := (hsame v le_rfl).mp hwrites
  have hpos : w f v ∈ Set.Icc 1 k := hk ▸ Set.mem_image_of_mem _ hwrites
  have hle : w' f v ∈ Set.Icc 1 k' := hk' ▸ Set.mem_image_of_mem _ hwrites'
  -- the number is that of an earlier version in the other numbering
  have hmem : w f v ∈ Set.Icc 1 k' := ⟨hpos.1, hlt.le.trans hle.2⟩
  rw [← hk'] at hmem
  obtain ⟨u, hu, heq⟩ := hmem
  have huv : u < v := by
    rcases lt_trichotomy u v with huv | rfl | hvu
    · exact huv
    · omega
    · have := h'.strictMono f v u (Or.inl hwrites') (Or.inl hu) hvu
      omega
  have hwritesU := (hsame u huv.le).mpr hu
  have hmono := h.strictMono f u v (Or.inl hwritesU) (Or.inl hwrites) huv
  have hsameU := ih u huv hwritesU
  omega

theorem Renumbers.agree {f : String} {v : ℕ} (h : Renumbers st ρ w) (h' : Renumbers st' ρ' w')
    (hv : st.Mentions (versioned f v)) (hv' : st'.Mentions (versioned f v))
    (hsame : ∀ u ≤ v, st.Writes (versioned f u) ↔ st'.Writes (versioned f u)) : w f v = w' f v := by
  have hwritten : ∀ u ≤ v, st.Writes (versioned f u) → w f u = w' f u := by
    intro u
    induction u using Nat.strong_induction_on with
    | _ u ih =>
      intro huv hwrites
      have hbelow : ∀ x ≤ u, st.Writes (versioned f x) ↔ st'.Writes (versioned f x) :=
        fun x hx => hsame x (hx.trans huv)
      have hih : ∀ x < u, st.Writes (versioned f x) → w f x = w' f x := fun x hx =>
        ih x hx (hx.le.trans huv)
      refine le_antisymm (not_lt.mp ?_) (not_lt.mp ?_)
      · exact h'.not_smaller h (fun x hx => (hbelow x hx).symm) ((hbelow u le_rfl).mp hwrites)
          fun x hx hx' => (hih x hx ((hbelow x hx.le).mpr hx')).symm
      · exact h.not_smaller h' hbelow hwrites hih
  by_cases hwrites : st.Writes (versioned f v)
  · exact hwritten v le_rfl hwrites
  · rw [h.read f v hv hwrites, h'.read f v hv' fun hw => hwrites ((hsame v le_rfl).mpr hw)]

end Numbers

section Summaries

theorem reversionLiteral_literals {reversionedNames : VersionedMap String} {l : String}
    (h : reversionLiteral reversionedNames st summary l = .ok summary') :
    summary'.assumptionLiterals = summary.assumptionLiterals := by
  obtain ⟨s₁, h₁, h⟩ := bind_eq_ok h
  have hfirst : s₁.assumptionLiterals = summary.assumptionLiterals := by
    unfold reversionAssumptions at h₁
    split at h₁
    · cases h₁
      rfl
    · obtain ⟨ts, -, h₁⟩ := bind_eq_ok h₁
      cases h₁
      rfl
  rw [← hfirst]
  unfold reversionHardConstraints at h
  split at h
  · cases h
    rfl
  · obtain ⟨es, -, h⟩ := bind_eq_ok h
    cases h
    rfl

theorem summarize_literals (hframe : c.getFrame = .ok callee) (h : summarize c = .ok summary) :
    flattenAssumptionLiterals callee c.state = .ok summary.assumptionLiterals := by
  unfold summarize at h
  rw [hframe] at h
  obtain ⟨literals, hliterals, h⟩ := bind_eq_ok (x := flattenAssumptionLiterals callee c.state) h
  obtain ⟨names, -, h⟩ := bind_eq_ok h
  obtain ⟨reversionedNames, -, h⟩ := bind_eq_ok h
  have hkeeps := foldlM_preserves (P := fun s : PathSummary => s.assumptionLiterals = literals)
    (fun l _ s s' hs hs' => (reversionLiteral_literals hs').trans hs) rfl h
  rw [hliterals, hkeeps]

/-- What the summarizer makes of a path. -/
structure Numbered (callee : Frame) (c : Context) (summary : PathSummary) (ρ : String → String)
    (w : String → ℕ → ℕ) : Prop where
  renumbers : Renumbers c.state ρ w
  reversions : Reversions c.state ρ summary
  assumptions : summary.assumptions = (assumed callee c.state).map (Term.rename ρ)

theorem Explored.summarize_ok (hcallee : Summarizable p callee) (h : Explored p callee versions c) :
    ∃ summary, summarize c = .ok summary ∧ ∃ ρ w, Numbered callee c summary ρ w := by
  obtain ⟨D, hD⟩ := h.valued
  obtain ⟨ρ, w, summary, hsummary, hnumbers, hreversions⟩ := h.path.summarize_ok
    (fun f v hv => by
      obtain ⟨f', v', s, hname, hf, hs⟩ := h.mentioned _ hv
      obtain ⟨rfl, rfl⟩ := versioned_injective hname
      obtain ⟨u, hu⟩ := Option.isSome_iff_exists.mp hf
      obtain ⟨x, hx, rfl⟩ := h.domain f u hu
      exact ⟨hcallee.plain x hx, x, hx, hcallee.elementary x hx s hs, rfl⟩)
    fun l l' n e e' hn hn' => by
      have hfirst := (hD.gives n e).mpr (Or.inl ⟨l, hn⟩)
      rw [(hD.gives n e').mpr (Or.inl ⟨l', hn'⟩)] at hfirst
      exact (Option.some.inj hfirst).symm
  refine ⟨summary, hsummary, ρ, w, hnumbers, hreversions, ?_⟩
  rw [hreversions.assumptions, assumed, summarize_literals h.path.getFrame hsummary]

theorem Parted.assumptions_ne {ts : List (Term String .bool)} {t u : Term String .bool}
    (h : Parted callee c c' ts t u) (hc : Explored p callee versions c)
    (hc' : Explored p callee versions c') (hn : Numbered callee c summary ρ w)
    (hn' : Numbered callee c' summary' ρ' w') : summary.assumptions ≠ summary'.assumptions := by
  intro heq
  rw [hn.assumptions, hn'.assumptions] at heq
  obtain ⟨r, hr⟩ := h.left
  obtain ⟨r', hr'⟩ := h.right
  rw [← hr, ← hr'] at heq
  simp only [List.append_assoc, List.singleton_append, List.map_append, List.map_cons] at heq
  have hlength : (ts.map (Term.rename ρ)).length = (ts.map (Term.rename ρ')).length := by
    rw [List.length_map, List.length_map]
  have hterm : t.rename ρ = u.rename ρ' := (List.cons.inj (List.append_inj heq hlength).2).1
  have ht : c.state.Files ⟨.bool, t⟩ :=
    mem_assumed hc (h.left.subset (List.mem_append_right _ (List.mem_singleton_self t)))
  have hu : c'.state.Files ⟨.bool, u⟩ :=
    mem_assumed hc' (h.right.subset (List.mem_append_right _ (List.mem_singleton_self u)))
  have hrename : u.rename ρ' = u.rename ρ := by
    refine Term.bind_congr u fun k hk => ?_
    have hmention : c.state.Mentions k.2 := Or.inr ⟨_, ht, k.1, h.occurrences hk⟩
    have hmention' : c'.state.Mentions k.2 := Or.inr ⟨_, hu, k.1, hk⟩
    obtain ⟨f, v, s, hkey, -⟩ := hc.mentioned k.2 hmention
    obtain ⟨s', n⟩ := k
    dsimp only at hkey hmention hmention' ⊢
    subst hkey
    rw [hn.renumbers.names f v hmention, hn'.renumbers.names f v hmention',
      hn.renumbers.agree hn'.renumbers hmention hmention' (h.alike f v s' (h.occurrences hk))]
  rw [hrename] at hterm
  have heval := congrArg (Term.eval (PartialModel.complete [])) hterm
  rw [Term.eval_rename, Term.eval_rename] at heval
  exact h.contrary _ heval.symm

theorem Apart.samePath_false (h : Apart callee c c') (hcallee : Summarizable p callee)
    (hc : Explored p callee versions c) (hc' : Explored p callee versions c')
    (hs : summarize c = .ok summary) (hs' : summarize c' = .ok summary') :
    summary.samePath summary'.toSummary = false := by
  obtain ⟨s₁, h₁, ρ, w, hn⟩ := hc.summarize_ok hcallee
  obtain ⟨s₂, h₂, ρ', w', hn'⟩ := hc'.summarize_ok hcallee
  rw [hs] at h₁
  rw [hs'] at h₂
  cases h₁
  cases h₂
  refine decide_eq_false ?_
  obtain ⟨ts, t, u, h | h⟩ := h
  · exact h.assumptions_ne hc hc' hn hn'
  · exact (h.assumptions_ne hc' hc hn' hn).symm

end Summaries

section Suits

variable {D : Definitions String}

theorem State.Defined.congr (h : st.Defined M) (heq : ∀ s n, st.Mentions n → N s n = M s n) :
    st.Defined N := by
  intro l n e hn
  rw [heq e.1 n (Or.inl ⟨l, e, hn⟩), h l n e hn]
  exact (Term.eval_congr e.2 fun k hk => heq k.1 k.2 (Or.inr ⟨e, Or.inr ⟨l, n, hn⟩, k.1, hk⟩)).symm

theorem Valued.closed_of_files (hD : Valued p c D) {e : SortedTerm String} (he : c.state.Files e) :
    D.Closed e.2 := by
  rcases he with ⟨l, t, ht, rfl⟩ | ⟨l, n, hn⟩
  · exact hD.closed l t ht
  · exact hD.acyclic.closed n e.1 e.2 ((hD.gives n e).mpr (Or.inl ⟨l, hn⟩))

theorem Reversions.mem_occurrences (h : Reversions st ρ summary) {q : SmtSort × String} :
    q ∈ summary.occurrences ↔
      ∃ e, st.Files e ∧ ∃ n, (q.1, n) ∈ e.2.occurrences ∧ q.2 = ρ n := by
  unfold Summary.occurrences
  rw [List.mem_append, List.mem_flatMap, List.mem_flatMap, h.assumptions]
  constructor
  · rintro (⟨⟨n, e⟩, hentry, hq⟩ | ⟨t, ht, hq⟩)
    · obtain ⟨l, n', e', hn', heq⟩ :=
        (h.hardConstraints n e).mp ((OrderedMap.find?_eq_some_iff _ _ _).mpr hentry)
      cases heq
      exact ⟨e', Or.inr ⟨l, n', hn'⟩, (Term.mem_occurrences_rename ρ e'.2 q).mp hq⟩
    · obtain ⟨t', ht', rfl⟩ := List.mem_map.mp ht
      obtain ⟨l, -, ht'⟩ := List.mem_flatMap.mp ht'
      exact ⟨⟨.bool, t'⟩, Or.inl ⟨l, t', ht', rfl⟩, (Term.mem_occurrences_rename ρ t' q).mp hq⟩
  · rintro ⟨e, ⟨l, t, ht, rfl⟩ | ⟨l, n, hn⟩, hq⟩
    · refine Or.inr ⟨t.rename ρ, List.mem_map_of_mem ?_, (Term.mem_occurrences_rename ρ t q).mpr hq⟩
      exact List.mem_flatMap.mpr ⟨l, h.literals l ht.filedUnder, ht⟩
    · refine Or.inl ⟨(ρ n, ⟨e.1, e.2.rename ρ⟩), ?_, (Term.mem_occurrences_rename ρ e.2 q).mpr hq⟩
      exact (OrderedMap.find?_eq_some_iff _ _ _).mp ((h.hardConstraints _ _).mpr ⟨l, n, e, hn, rfl⟩)

theorem Reversions.respects_iff (h : Reversions st ρ summary) :
    Definitions.Respects summary.hardConstraints.find? N ↔ st.Defined fun s n => N s (ρ n) := by
  constructor
  · intro hN l n e hn
    rw [← Term.eval_rename]
    exact hN (ρ n) e.1 (e.2.rename ρ) ((h.hardConstraints _ _).mpr ⟨l, n, e, hn, rfl⟩)
  · intro hN n s t hn
    obtain ⟨l, n', e', hn', heq⟩ := (h.hardConstraints _ _).mp hn
    cases heq
    rw [Term.eval_rename]
    exact hN l n' e' hn'

/-- The names a summary reads without writing them are versions 0. -/
theorem Numbered.reads_iff (hcallee : Summarizable p callee) (h : Explored p callee versions c)
    (hn : Numbered callee c summary ρ w) :
    (∀ q ∈ summary.occurrences, summary.hardConstraints.find? q.2 = none →
      q.1.value (N q.1 q.2) = σ (decontextualize q.2)) ↔
    ∀ x s, p.sortOf x = some s → c.state.Mentions (versioned x 0) →
      σ x = s.value (N s (ρ (versioned x 0))) := by
  obtain ⟨D, hD⟩ := h.valued
  have hunwritten : ∀ x, ¬ c.state.Writes (versioned x 0) := by
    intro x hwrites
    obtain ⟨f, v, u, hname, hpos, -⟩ := h.written _ hwrites
    obtain ⟨rfl, rfl⟩ := versioned_injective hname
    exact absurd hpos (Nat.lt_irrefl 0)
  have hplain : ∀ x v, c.state.Mentions (versioned x v) → Plain x := by
    intro x v hv
    obtain ⟨f, v', s, hname, hf, -⟩ := h.mentioned _ hv
    obtain ⟨rfl, -⟩ := versioned_injective hname
    obtain ⟨u, hu⟩ := Option.isSome_iff_exists.mp hf
    obtain ⟨y, hy, rfl⟩ := h.domain x u hu
    exact hcallee.plain y hy
  have hzero : ∀ x, c.state.Mentions (versioned x 0) → ρ (versioned x 0) = versioned x 0 := by
    intro x hx
    rw [hn.renumbers.names x 0 hx, hn.renumbers.read x 0 hx (hunwritten x)]
  constructor
  · intro hread x s hx hmention
    rcases hmention with hwrites | ⟨e, he, s', hk⟩
    · exact absurd hwrites (hunwritten x)
    have hmention : c.state.Mentions (versioned x 0) := Or.inr ⟨e, he, s', hk⟩
    obtain ⟨t, ht⟩ := hD.closed_of_files he _ hk
    rw [(hD.gives _ _).mpr (Or.inr ⟨x, s, hx, rfl, rfl⟩)] at ht
    cases ht
    have hvalue := hread (_, ρ (versioned x 0)) (hn.reversions.mem_occurrences.mpr ⟨e, he, _, hk, rfl⟩)
      (by
        rw [Option.eq_none_iff_forall_ne_some]
        intro u hu
        obtain ⟨l, n', e', hn', heq⟩ := (hn.reversions.hardConstraints _ _).mp hu
        have hsame := hn.renumbers.injective h.path.versioning hmention (Or.inl ⟨l, e', hn'⟩)
          (congrArg Prod.fst heq)
        exact hunwritten x (hsame ▸ ⟨l, e', hn'⟩))
    dsimp only at hvalue
    rw [hzero x hmention, decontextualize_versioned (hplain x 0 hmention)] at hvalue
    rw [hzero x hmention, hvalue]
  · rintro hread ⟨s, n⟩ hq hnone
    obtain ⟨e, he, n', hk, rfl⟩ := hn.reversions.mem_occurrences.mp hq
    have hmention : c.state.Mentions n' := Or.inr ⟨e, he, s, hk⟩
    obtain ⟨f, v, rfl, hsettled⟩ := h.path.versioning.mentions hmention
    have hnot : ¬ c.state.Writes (versioned f v) := by
      rintro ⟨l, e', hn'⟩
      rw [(hn.reversions.hardConstraints _ _).mpr ⟨l, _, e', hn', rfl⟩] at hnone
      cases hnone
    obtain rfl := hsettled.resolve_right hnot
    obtain ⟨t, ht⟩ := hD.closed_of_files he _ hk
    rcases (hD.gives _ _).mp ht with ⟨l, hl⟩ | ⟨x, s', hx, hname, heq⟩
    · exact absurd ⟨l, _, hl⟩ hnot
    · obtain ⟨rfl, -⟩ := versioned_injective hname
      cases heq
      dsimp only
      rw [← hread f _ hx hmention, hzero f hmention, decontextualize_versioned (hplain f 0 hmention)]

theorem Explored.suits_iff (hcallee : Summarizable p callee) (h : Explored p callee versions c)
    (hs : summarize c = .ok summary) (hσ : p.SortsStore σ) :
    Etfa.Suits σ summary.toSummary ↔ Admits p c σ := by
  classical
  obtain ⟨s₁, h₁, ρ, w, hn⟩ := h.summarize_ok hcallee
  rw [hs] at h₁
  cases h₁
  obtain ⟨D, hD⟩ := h.valued
  constructor
  · intro hsuits
    obtain ⟨M, hM, hread⟩ := hD.exists_defined hσ
    let N : Model String := fun s n => M s (Function.invFunOn ρ {n | c.state.Mentions n} n)
    have hinj : Set.InjOn ρ {n | c.state.Mentions n} := fun n hn' n' hn'' =>
      hn.renumbers.injective h.path.versioning hn' hn''
    have hN : ∀ s n, c.state.Mentions n → N s (ρ n) = M s n := fun s n hmention =>
      congrArg (M s) (hinj.leftInvOn_invFunOn hmention)
    have hrespects := hn.reversions.respects_iff.mpr (hM.congr hN)
    have hholds := hsuits N ((hn.reads_iff hcallee h).mpr fun x s hx hmention => by
      rw [hN s _ hmention]
      exact hread x s hx) hrespects
    exact ⟨M, ((hn.reversions.models N).mp ⟨hrespects, hholds⟩).congr fun s n hmention =>
      (hN s n hmention).symm, hread⟩
  · rintro ⟨M, hM, hread⟩ N hN hrespects
    have hreadN := (hn.reads_iff hcallee h).mp hN
    have hdefined := hn.reversions.respects_iff.mp hrespects
    let M₁ : Model String := fun s n => if c.state.Mentions n then N s (ρ n) else M s n
    have hM₁ : ∀ s n, c.state.Mentions n → M₁ s n = N s (ρ n) := fun s n hmention => if_pos hmention
    have hread₁ : ReadsStore p σ M₁ := by
      intro x s hx
      change σ x = s.value (if _ then _ else _)
      split_ifs with hmention
      · exact hreadN x s hx hmention
      · exact hread x s hx
    have hsame : ∀ l t, c.state.Assumes l t → t.eval (fun s n => N s (ρ n)) = t.eval M := by
      intro l t ht
      have heval := hD.eval_unique (hdefined.congr hM₁) hread₁ hM.hardConstraints hread
        (hD.closed l t ht)
      rw [← heval]
      exact Term.eval_congr t fun k hk =>
        (hM₁ k.1 k.2 (Or.inr ⟨⟨.bool, t⟩, Or.inl ⟨l, t, ht, rfl⟩, k.1, hk⟩)).symm
    refine ((hn.reversions.models N).mpr ⟨hdefined, fun l t ht => ?_⟩).assumptions
    unfold Term.Holds
    rw [hsame l t ht]
    exact hM.assumptions l t ht

/-- A summary of a path to the exit describes every call of the unit. -/
theorem Explored.describes (hcallee : Summarizable p callee) (h : Explored p callee versions c)
    (hexit : c.state.vertex.type = .exit) (hs : summarize c = .ok summary) {call : Vertex}
    (hcall : p.CallsAt frame call callee) :
    ∃ branches, p.DescribesSorted frame call summary.toSummary branches := by
  classical
  obtain ⟨s₁, h₁, ρ, w, hn⟩ := h.summarize_ok hcallee
  rw [hs] at h₁
  cases h₁
  obtain ⟨D, hD⟩ := h.valued
  obtain ⟨branches, hexecutes⟩ := h.executes
  obtain ⟨called, t₁, t₂, typeName, hinstruction, hdata, hcfg, hscope⟩ := hcall.instruction
  obtain ⟨callEdge, entry, hcallEdge, htarget, hentry⟩ := hcall.entry
  obtain ⟨returnEdge, next, hreturnEdge, hnext⟩ := hcall.back
  refine ⟨branches, fun inputs conf N frames hσ hvertex hstack hN hrespects hholds => ?_⟩
  have hreadN := (hn.reads_iff hcallee h).mp hN
  have hmodel := (hn.reversions.models N).mp ⟨hrespects, hholds⟩
  obtain ⟨I, hI⟩ := exists_readsStore hσ
  let M : Model String := fun s n => if c.state.Mentions n then N s (ρ n) else I s n
  have hM : ∀ s n, c.state.Mentions n → M s n = N s (ρ n) := fun s n hmention => if_pos hmention
  have hread : ReadsStore p conf.store M := by
    intro x s hx
    change conf.store x = s.value (if _ then _ else _)
    split_ifs with hmention
    · exact hreadN x s hx hmention
    · exact hI x s hx
  let conf₁ : Etfa.Configuration := { conf.moveTo entry with
    callStack := ⟨callee.cfg, callee.scope, returnEdge.targetLabel⟩ :: conf.callStack }
  have hstep₁ : p.step inputs conf = .ok conf₁ := by
    have henter : p.enter frame called conf = .ok conf₁ := by
      unfold Etfa.Program.enter
      rw [hvertex, hreturnEdge]
      dsimp only [bind, Except.bind]
      rw [hcallEdge]
      dsimp only
      rw [hdata]
      dsimp only
      rw [hcfg]
      dsimp only
      rw [hentry, ← hscope]
    unfold Etfa.Program.step
    rw [hstack]
    dsimp only
    unfold Etfa.Program.stepIn
    rw [hvertex, hcall.type, hinstruction]
    exact henter
  obtain ⟨conf₂, hreaches⟩ := hexecutes inputs M conf₁ returnEdge.targetLabel conf.callStack
    (hmodel.congr hM) rfl (htarget ▸ hentry) hread
  let conf₃ : Etfa.Configuration := { conf₂.moveTo next with callStack := conf.callStack }
  have hstep₂ : p.step inputs conf₂ = .ok conf₃ := by
    have hframes : conf₂.callStack = ⟨callee.cfg, callee.scope, returnEdge.targetLabel⟩ ::
      conf.callStack := hreaches.callStack
    have hleave : Etfa.Program.leave ⟨callee.cfg, callee.scope, returnEdge.targetLabel⟩
        conf.callStack conf₂ = .ok conf₃ := by
      unfold Etfa.Program.leave
      dsimp only [conf₃]
      rw [hstack]
      dsimp only [bind, Except.bind]
      rw [hnext]
    unfold Etfa.Program.step
    rw [hframes]
    dsimp only
    unfold Etfa.Program.stepIn
    rw [hreaches.vertex, hexit, hcall.unit]
    exact hleave
  have hsort : ∀ f v, c.state.Writes (versioned f v) → ∃ s, p.sortOf f = some s := by
    intro f v hwrites
    obtain ⟨f', v', s, hname, -, hs⟩ := h.mentioned _ (Or.inl hwrites)
    obtain ⟨rfl, -⟩ := versioned_injective hname
    exact ⟨s, hs⟩
  have hbegin : p.Runs inputs conf conf₁ := .single hstep₁
  refine ⟨conf₃, (hbegin.trans hreaches.runs).tail hstep₂,
    hreaches.cycle, rfl, hreaches.branches, ⟨returnEdge, hreturnEdge, hnext⟩, ?_, ?_⟩
  · intro f v e he hlast
    obtain ⟨l, n, e', hn', heq⟩ := (hn.reversions.hardConstraints _ _).mp he
    obtain ⟨f', v', u, rfl, hpos, hu, hle⟩ := h.written n ⟨l, e', hn'⟩
    obtain ⟨hname, rfl⟩ := Prod.mk.inj heq
    have hmention : c.state.Mentions (versioned f' v') := Or.inl ⟨l, e', hn'⟩
    rw [hn.renumbers.names f' v' hmention] at hname
    obtain ⟨rfl, rfl⟩ := versioned_injective hname
    -- the current version is written and has the highest number
    obtain ⟨l', e₂, hn₂⟩ : c.state.Writes (versioned f u) :=
      (h.path.versioning.current f u hu).resolve_left (by omega)
    have hmention₂ : c.state.Mentions (versioned f u) := Or.inl ⟨l', e₂, hn₂⟩
    have hfind := (hn.reversions.hardConstraints _ _).mpr ⟨l', _, e₂, hn₂, rfl⟩
    rw [hn.renumbers.names f u hmention₂] at hfind
    have hbound := hlast _ _ hfind
    obtain rfl : v' = u := by
      rcases hle.lt_or_eq with hlt | heq
      · have hmono := hn.renumbers.strictMono f v' u hmention hmention₂ hlt
        omega
      · exact heq
    obtain ⟨s, hs⟩ := hsort f v' ⟨l, e', hn'⟩
    obtain ⟨t, ht⟩ := hD.current f v' s hu hs
    rw [(hD.gives _ _).mpr (Or.inl ⟨l, hn'⟩)] at ht
    cases ht
    have hstore := hreaches.store f s hs
    rw [currentVersion_eq hu, hM s _ hmention, hn.renumbers.names f v' hmention] at hstore
    exact hstore
  · intro f hnone
    refine hreaches.unwritten f fun v ⟨l, e, hn'⟩ => ?_
    have hfind := (hn.reversions.hardConstraints _ _).mpr ⟨l, _, e, hn', rfl⟩
    rw [hn.renumbers.names f v (Or.inl ⟨l, e, hn'⟩), hnone] at hfind
    cases hfind

end Suits

section Runs

variable {g g' : Engine} {archive : List Context} {ex : Executor} {σ : Valuation}

def unitName (c : Context) : String :=
  match c.callStack with
  | frame :: _ => frame.cfg.name
  | [] => ""

theorem unitName_eq (h : c.getFrame = .ok frame) : unitName c = frame.cfg.name := by
  unfold Context.getFrame at h
  unfold unitName
  cases hstack : c.callStack with
  | nil =>
    rw [hstack] at h
    cases h
  | cons frame' frames =>
    rw [hstack] at h
    cases h
    rfl

/-- The contexts on their way through the unit. -/
def ofUnit (name : String) (cs : List Context) : List Context := cs.filter (unitName · = name)

theorem ofUnit_append (name : String) (cs cs' : List Context) :
    ofUnit name (cs ++ cs') = ofUnit name cs ++ ofUnit name cs' := List.filter_append _ _

theorem ofUnit_cons {name : String} (cs : List Context) (h : unitName c = name) :
    ofUnit name (c :: cs) = c :: ofUnit name cs := List.filter_cons_of_pos (decide_eq_true h)

theorem ofUnit_cons_of_ne {name : String} (cs : List Context) (h : unitName c ≠ name) :
    ofUnit name (c :: cs) = ofUnit name cs :=
  List.filter_cons_of_neg fun heq => h (of_decide_eq_true heq)

theorem ofUnit_eq_self {name : String} {cs : List Context} (h : ∀ c ∈ cs, unitName c = name) :
    ofUnit name cs = cs :=
  List.filter_eq_self.mpr fun c hc => decide_eq_true (h c hc)

theorem ofUnit_eq_nil {name : String} {cs : List Context} (h : ∀ c ∈ cs, unitName c ≠ name) :
    ofUnit name cs = [] :=
  List.filter_eq_nil_iff.mpr fun c hc hname => h c hc (of_decide_eq_true hname)

theorem Explored.mono (h : Explored p callee versions c) (hle : versions.Le versions') :
    Explored p callee versions' c where
  path := h.path
  place := h.place
  labelled := h.labelled
  valued := h.valued
  domain := h.domain
  bounded := fun f v s hv hs => by
    obtain ⟨w, hw, hvw⟩ := h.bounded f v s hv hs
    obtain ⟨w', hw', hww'⟩ := hle f w hw
    exact ⟨w', hw', hvw.trans hww'⟩
  written := h.written
  mentioned := h.mentioned
  executes := h.executes

/-- The contexts of a unit on the stack, and those that have come to its exit, which have left a
summary each, share the stores among them. -/
structure Covers (p : Etfa.Program) (callee : Frame) (g : Engine) (archive : List Context) : Prop where
  contexts : ∀ c ∈ g.contexts, ∃ frame, Summarizable p frame ∧ Explored p frame g.versions c ∧
    (frame.cfg.name = callee.cfg.name → frame = callee)
  archived : ∀ c ∈ archive, Explored p callee g.versions c ∧ c.state.vertex.type = .exit
  summaries : archive.map summarize =
    ((g.nameToSummaries.find? callee.cfg.name).getD []).map .ok
  apart : (ofUnit callee.cfg.name g.contexts ++ archive).Pairwise (Apart callee)
  admitting : ∀ σ, p.SortsStore σ → Partition.admitting (Admits p) σ
    (ofUnit callee.cfg.name g.contexts ++ archive) = 1

theorem Covers.explored (h : Covers p callee g archive)
    (hc : c ∈ ofUnit callee.cfg.name g.contexts ++ archive) : Explored p callee g.versions c := by
  rcases List.mem_append.mp hc with hc | hc
  · obtain ⟨hc, hname⟩ := List.mem_filter.mp hc
    obtain ⟨frame, -, hexplored, hframe⟩ := h.contexts c hc
    rw [← hframe ((unitName_eq hexplored.path.getFrame).symm.trans (of_decide_eq_true hname))]
    exact hexplored
  · exact (h.archived c hc).1

theorem Covers.exists_archived (h : Covers p callee g archive)
    (hs : summary ∈ (g.nameToSummaries.find? callee.cfg.name).getD []) :
    ∃ c ∈ archive, summarize c = .ok summary := by
  have hmem : .ok summary ∈ archive.map summarize := h.summaries ▸ List.mem_map_of_mem hs
  exact List.mem_map.mp hmem

/-- A step of a context that is not at the exit. -/
theorem Covers.execute (hp : p.WellSorted) (h : Covers p callee g archive) {rest cs : List Context}
    (hcontexts : g.contexts = c :: rest) (hexit : c.state.vertex.type ≠ .exit)
    (hcs : (executor simplifier solver).execute g.versions c = .ok (versions', cs)) :
    Covers p callee { g with versions := versions', contexts := cs.reverse ++ rest } archive := by
  have hmem : c ∈ g.contexts := hcontexts ▸ List.mem_cons_self
  obtain ⟨frame, hframe, hexplored, hcallee⟩ := h.contexts c hmem
  have hsucceeds := hexplored.execute hp hframe hexit hcs
  have hnames : ∀ c' ∈ cs.reverse, unitName c' = frame.cfg.name := fun c' hc' =>
    unitName_eq (hsucceeds.explored c' (List.mem_reverse.mp hc')).path.getFrame
  have hname := unitName_eq hexplored.path.getFrame
  have hcontexts' : ∀ c' ∈ cs.reverse ++ rest, ∃ frame, Summarizable p frame ∧
      Explored p frame versions' c' ∧ (frame.cfg.name = callee.cfg.name → frame = callee) := by
    intro c' hc'
    rcases List.mem_append.mp hc' with hc' | hc'
    · exact ⟨frame, hframe, hsucceeds.explored c' (List.mem_reverse.mp hc'), hcallee⟩
    · obtain ⟨frame', hframe', hexplored', hcallee'⟩ :=
        h.contexts c' (hcontexts ▸ List.mem_cons_of_mem _ hc')
      exact ⟨frame', hframe', hexplored'.mono hsucceeds.le, hcallee'⟩
  have harchived : ∀ c ∈ archive, Explored p callee versions' c ∧ c.state.vertex.type = .exit :=
    fun c hc => ⟨(h.archived c hc).1.mono hsucceeds.le, (h.archived c hc).2⟩
  by_cases hunit : frame.cfg.name = callee.cfg.name
  · obtain rfl := hcallee hunit
    have hbefore : ofUnit frame.cfg.name g.contexts ++ archive =
        c :: (ofUnit frame.cfg.name rest ++ archive) := by
      rw [hcontexts, ofUnit_cons rest hname, List.cons_append]
    have hafter : ofUnit frame.cfg.name (cs.reverse ++ rest) ++ archive =
        cs.reverse ++ (ofUnit frame.cfg.name rest ++ archive) := by
      rw [ofUnit_append, ofUnit_eq_self hnames, List.append_assoc]
    have hexploredAll : ∀ c' ∈ c :: (ofUnit frame.cfg.name rest ++ archive),
        Explored p frame g.versions c' := fun c' hc' => h.explored (hbefore ▸ hc')
    have hapart := h.apart
    rw [hbefore, List.pairwise_cons] at hapart
    refine ⟨hcontexts', harchived, h.summaries, ?_, fun σ hσ => ?_⟩
    · dsimp only
      rw [hafter, List.pairwise_append]
      refine ⟨List.pairwise_reverse.mpr (hsucceeds.apart.imp Apart.symm), hapart.2,
        fun c₁ hc₁ c₂ hc₂ => ?_⟩
      exact (hapart.1 c₂ hc₂).extend hexplored (hexploredAll c₂ (List.mem_cons_of_mem _ hc₂))
        (hsucceeds.extended c₁ (List.mem_reverse.mp hc₁)) (.refl _ _ _)
    · dsimp only
      have hone := h.admitting σ hσ
      rw [hbefore] at hone
      rw [hafter, Partition.admitting_perm ((List.reverse_perm cs).append_right _),
        hsucceeds.splits.replace, hone]
  · have hsame : ofUnit callee.cfg.name (cs.reverse ++ rest) =
        ofUnit callee.cfg.name g.contexts := by
      have hother : ∀ c' ∈ cs.reverse, unitName c' ≠ callee.cfg.name := fun c' hc' heq =>
        hunit ((hnames c' hc').symm.trans heq)
      rw [hcontexts, ofUnit_append, ofUnit_eq_nil hother, List.nil_append,
        ofUnit_cons_of_ne rest (hname.symm ▸ hunit)]
    refine ⟨hcontexts', harchived, h.summaries, ?_, fun σ hσ => ?_⟩
    · dsimp only
      rw [hsame]
      exact h.apart
    · dsimp only
      rw [hsame]
      exact h.admitting σ hσ

theorem summarizePath_eq {m m' : OrderedMap String (List PathSummary)} (hframe : c.getFrame = .ok frame)
    (h : summarizePath m c = .ok m') : ∃ summary, summarize c = .ok summary ∧
      (∀ name, name ≠ frame.cfg.name → m'.find? name = m.find? name) ∧
      ((∀ s ∈ (m.find? frame.cfg.name).getD [], s.samePath summary.toSummary = false) →
        (m'.find? frame.cfg.name).getD [] = (m.find? frame.cfg.name).getD [] ++ [summary]) := by
  unfold summarizePath at h
  rw [hframe] at h
  obtain ⟨summary, hsummary, h⟩ := bind_eq_ok (x := summarize c) h
  refine ⟨summary, hsummary, ?_⟩
  split at h
  · rename_i hnone
    cases h
    refine ⟨fun name hname => OrderedMap.find?_emplace_ne _ _ hname, fun _ => ?_⟩
    rw [OrderedMap.find?_emplace_self _ hnone, hnone]
    rfl
  · rename_i existing hexisting
    split_ifs at h with hany
    · cases h
      refine ⟨fun _ _ => rfl, fun hnone => ?_⟩
      obtain ⟨s, hs, hsame⟩ := List.any_eq_true.mp hany
      rw [hexisting] at hnone
      rw [hnone s hs] at hsame
      cases hsame
    · cases h
      refine ⟨fun name hname => ?_, fun _ => ?_⟩
      · rw [OrderedMap.find?_assign, if_neg hname]
      · rw [OrderedMap.find?_assign, if_pos rfl, hexisting]
        rfl

/-- A context that has come to the exit leaves its summary. -/
theorem Covers.exit (h : Covers p callee g archive) {rest : List Context}
    (hcontexts : g.contexts = c :: rest) (hexit : c.state.vertex.type = .exit)
    {nameToSummaries : OrderedMap String (List PathSummary)}
    (hsummaries : summarizePath g.nameToSummaries c = .ok nameToSummaries) :
    ∃ archive', Covers p callee { g with nameToSummaries := nameToSummaries, contexts := rest }
      archive' := by
  obtain ⟨frame, hframe, hexplored, hcallee⟩ := h.contexts c (hcontexts ▸ List.mem_cons_self)
  have hname := unitName_eq hexplored.path.getFrame
  have hrest : ∀ c' ∈ rest, ∃ frame, Summarizable p frame ∧ Explored p frame g.versions c' ∧
      (frame.cfg.name = callee.cfg.name → frame = callee) := fun c' hc' =>
    h.contexts c' (hcontexts ▸ List.mem_cons_of_mem _ hc')
  obtain ⟨summary, hsummary, hother, hsame⟩ := summarizePath_eq hexplored.path.getFrame hsummaries
  by_cases hunit : frame.cfg.name = callee.cfg.name
  · obtain rfl := hcallee hunit
    have hbefore : ofUnit frame.cfg.name g.contexts ++ archive =
        c :: (ofUnit frame.cfg.name rest ++ archive) := by
      rw [hcontexts, ofUnit_cons rest hname, List.cons_append]
    have hperm : (ofUnit frame.cfg.name rest ++ (archive ++ [c])).Perm
        (ofUnit frame.cfg.name g.contexts ++ archive) := by
      rw [hbefore, ← List.append_assoc]
      exact List.perm_append_singleton c _
    have hapart := h.apart
    rw [hbefore, List.pairwise_cons] at hapart
    refine ⟨archive ++ [c], hrest, fun c' hc' => ?_, ?_, ?_, fun σ hσ => ?_⟩
    · rcases List.mem_append.mp hc' with hc' | hc'
      · exact h.archived c' hc'
      · exact List.mem_singleton.mp hc' ▸ ⟨hexplored, hexit⟩
    · rw [hsame fun s hs => ?_]
      · rw [List.map_append, List.map_append, h.summaries, List.map_singleton, hsummary,
          List.map_singleton]
      · obtain ⟨c', hc', hs'⟩ := h.exists_archived hs
        exact ((hapart.1 c' (List.mem_append_right _ hc')).symm).samePath_false hframe
          (h.archived c' hc').1 hexplored hs' hsummary
    · exact (hperm.pairwise_iff fun hapart => hapart.symm).mpr h.apart
    · rw [Partition.admitting_perm hperm]
      exact h.admitting σ hσ
  · have hsameUnit : ofUnit callee.cfg.name rest = ofUnit callee.cfg.name g.contexts := by
      rw [hcontexts, ofUnit_cons_of_ne rest (hname.symm ▸ hunit)]
    refine ⟨archive, hrest, h.archived, ?_, ?_, fun σ hσ => ?_⟩
    · rw [hother _ (Ne.symm hunit)]
      exact h.summaries
    · dsimp only
      rw [hsameUnit]
      exact h.apart
    · dsimp only
      rw [hsameUnit]
      exact h.admitting σ hσ

theorem Covers.step (hp : p.WellSorted) (h : Covers p callee g archive)
    (hstep : g.step (executor simplifier solver) = .ok g') :
    ∃ archive', Covers p callee g' archive' := by
  unfold Engine.step at hstep
  split at hstep
  · cases hstep
  · rename_i c rest hcontexts
    split at hstep
    · rename_i hexit
      obtain ⟨nameToSummaries, hsummaries, hstep⟩ := bind_eq_ok hstep
      cases hstep
      exact h.exit hcontexts hexit hsummaries
    · rename_i hexit
      obtain ⟨⟨versions, cs⟩, hcs, hstep⟩ := bind_eq_ok hstep
      cases hstep
      exact ⟨archive, h.execute hp hcontexts hexit hcs⟩

/-- The engine begins with a context for the unit. -/
def Engine.Starts (p : Program) (callee : Frame) : Prop :=
  ∃ g₀ c, Engine.initial p = .ok g₀ ∧ c ∈ g₀.contexts ∧ c.getFrame = .ok callee

theorem initialContexts_nodup {hasCallees : String → Bool}
    (hnames : ∀ typeName cfg, p.getCfg typeName = some cfg → cfg.name = typeName)
    {vertices : List Vertex} {names : List String} {cs : List Context}
    (h : Engine.initialContexts (.of p hasCallees) frame vertices names = .ok cs) :
    (cs.map unitName).Nodup ∧ ∀ c ∈ cs, unitName c ∉ names := by
  induction vertices generalizing names cs with
  | nil =>
    cases h
    exact ⟨List.nodup_nil, fun _ hc => absurd hc List.not_mem_nil⟩
  | cons vertex vertices ih =>
    unfold Engine.initialContexts at h
    split at h
    · rename_i called _ _ _
      obtain ⟨edge, -, h⟩ := bind_eq_ok h
      cases htype : called.dataType with
      | derivedType typeName =>
        rw [htype] at h
        dsimp only at h
        split at h
        · exact ih h
        · rename_i hnew
          split at h
          · cases h
          · rename_i callee hcfg
            split at h
            · cases h
            · obtain ⟨c, hc, h⟩ := bind_eq_ok h
              obtain ⟨cs', hcs', h⟩ := bind_eq_ok h
              cases h
              obtain ⟨hnodup, hnot⟩ := ih hcs'
              have hname : unitName c = typeName :=
                (unitName_eq (PathContext.initial hc).getFrame).trans (hnames typeName callee hcfg)
              rw [List.map_cons, List.nodup_cons, List.forall_mem_cons, hname]
              refine ⟨⟨fun hmem => ?_, hnodup⟩, hnew, fun c' hc' hmem => ?_⟩
              · obtain ⟨c', hc', heq⟩ := List.mem_map.mp hmem
                exact hnot c' hc' (heq ▸ List.mem_cons_self)
              · exact hnot c' hc' (List.mem_cons_of_mem _ hmem)
      | int | real | bool | time | safeBool | enumeratedType _ | simpleType _ | inconclusiveType =>
        rw [htype] at h
        cases h
    · exact ih h

theorem ofUnit_eq_single {cs : List Context} (h : (cs.map unitName).Nodup) (hc : c ∈ cs) :
    ofUnit (unitName c) cs = [c] := by
  obtain ⟨before, after, rfl⟩ := List.append_of_mem hc
  rw [List.map_append, List.map_cons, List.nodup_append] at h
  obtain ⟨-, hafter, hne⟩ := h
  rw [ofUnit_append, ofUnit_eq_nil fun c' hc' => hne _ (List.mem_map_of_mem hc') _ List.mem_cons_self,
    ofUnit_cons after rfl, ofUnit_eq_nil fun c' hc' heq => ?_]
  · rfl
  · exact (List.nodup_cons.mp hafter).1 (heq ▸ List.mem_map_of_mem hc')

theorem Covers.initial {hasCallees : String → Bool} {g₀ : Engine}
    (hnames : ∀ typeName cfg, p.getCfg typeName = some cfg → cfg.name = typeName)
    (hunits : ∀ frame, Engine.Starts (.of p hasCallees) frame → Summarizable p frame)
    (hg₀ : Engine.initial (.of p hasCallees) = .ok g₀)
    (hstarts : Engine.Starts (.of p hasCallees) callee) : Covers p callee g₀ [] := by
  obtain ⟨g₁, c₀, hg₁, hc₀, hframe₀⟩ := hstarts
  rw [hg₀] at hg₁
  cases hg₁
  have hinitial := hg₀
  unfold Engine.initial at hinitial
  split_ifs at hinitial
  obtain ⟨cs, hcs, hinitial⟩ := bind_eq_ok hinitial
  cases hinitial
  have hnodup : (cs.reverse.map unitName).Nodup := by
    rw [List.map_reverse, List.nodup_reverse]
    exact (initialContexts_nodup hnames hcs).1
  have hversions : ∀ x s, p.sortOf x = some s → (OrderedMap.empty.emplaceAll
      (p.main.flattenedInterface.entries.map fun e => (e.1, 0)) : Versions).find? x = some 0 := by
    intro x s hx
    obtain ⟨v, hv⟩ := Etfa.Program.entry_of_sortOf hx
    rw [OrderedMap.find?_emplaceAll, OrderedMap.find?_empty, Option.none_or]
    refine OrderedMap.lookup_eq_some_of_mem (List.mem_map.mpr ⟨_, hv, rfl⟩) fun e he => ?_
    obtain ⟨e', -, heq⟩ := List.mem_map.mp he
    cases heq
    rfl
  have hexplored : ∀ c ∈ cs.reverse, ∀ frame, c.getFrame = .ok frame → Summarizable p frame ∧
      Explored p frame (OrderedMap.empty.emplaceAll
        (p.main.flattenedInterface.entries.map fun e => (e.1, 0))) c ∧
      ∀ σ, p.SortsStore σ → Admits p c σ := by
    intro c hc frame hframe
    obtain ⟨frame', hinitial⟩ := Engine.initialContexts_initial hcs c (List.mem_reverse.mp hc)
    rw [(PathContext.initial hinitial).getFrame] at hframe
    cases hframe
    exact ⟨hunits _ ⟨_, c, hg₀, hc, (PathContext.initial hinitial).getFrame⟩,
      Explored.initial hinitial hversions⟩
  have hsingle : ofUnit callee.cfg.name cs.reverse ++ [] = [c₀] := by
    rw [List.append_nil, ← unitName_eq hframe₀]
    exact ofUnit_eq_single hnodup hc₀
  refine ⟨fun c hc => ?_, fun c hc => absurd hc List.not_mem_nil, rfl, ?_, fun σ hσ => ?_⟩
  · obtain ⟨frame, hinitial⟩ := Engine.initialContexts_initial hcs c (List.mem_reverse.mp hc)
    have hframe := (PathContext.initial hinitial).getFrame
    obtain ⟨hsummarizable, hexplored, -⟩ := hexplored c hc frame hframe
    refine ⟨frame, hsummarizable, hexplored, fun heq => ?_⟩
    have hsame : c = c₀ := List.inj_on_of_nodup_map hnodup hc hc₀
      ((unitName_eq hframe).trans (heq.trans (unitName_eq hframe₀).symm))
    rw [hsame, hframe₀] at hframe
    exact (Except.ok.inj hframe).symm
  · dsimp only
    rw [hsingle]
    exact List.pairwise_singleton _ _
  · dsimp only
    rw [hsingle, Partition.admitting_single, if_pos ((hexplored c₀ hc₀ callee hframe₀).2.2 σ hσ)]

theorem Engine.Reachable.covers {hasCallees : String → Bool} (hp : p.WellSorted)
    (hnames : ∀ typeName cfg, p.getCfg typeName = some cfg → cfg.name = typeName)
    (hunits : ∀ frame, Engine.Starts (.of p hasCallees) frame → Summarizable p frame)
    (hg : g.Reachable (.of p hasCallees) (executor simplifier solver))
    (hstarts : Engine.Starts (.of p hasCallees) callee) : ∃ archive, Covers p callee g archive := by
  obtain ⟨g₀, hg₀, hrun⟩ := hg
  induction hrun with
  | refl => exact ⟨[], .initial hnames hunits hg₀ hstarts⟩
  | tail _ hstep ih =>
    obtain ⟨archive, h⟩ := ih
    exact h.step hp hstep

/-- Every summary that the engine generates describes every call of its unit, in whatever store with
values of the sorts it is executed: where the store satisfies the assumptions, the call returns, and
the variables have the values that the summary writes last. -/
theorem Engine.Reachable.summaries_describe {hasCallees : String → Bool} (hp : p.WellSorted)
    (hnames : ∀ typeName cfg, p.getCfg typeName = some cfg → cfg.name = typeName)
    (hunits : ∀ frame, Engine.Starts (.of p hasCallees) frame → Summarizable p frame)
    (hg : g.Reachable (.of p hasCallees) (executor simplifier solver))
    (hstarts : Engine.Starts (.of p hasCallees) callee)
    (hs : summary ∈ (g.nameToSummaries.find? callee.cfg.name).getD []) {call : Vertex}
    (hcall : p.CallsAt frame call callee) :
    ∃ branches, p.DescribesSorted frame call summary.toSummary branches := by
  obtain ⟨archive, h⟩ := hg.covers hp hnames hunits hstarts
  obtain ⟨c, hc, hsummary⟩ := h.exists_archived hs
  obtain ⟨hexplored, hexit⟩ := h.archived c hc
  exact hexplored.describes (hunits callee hstarts) hexit hsummary hcall

/-- When the engine has come to its end, every store with values of the sorts suits exactly one of the
summaries of a unit. -/
theorem Engine.Reachable.summaries_partition {hasCallees : String → Bool} (hp : p.WellSorted)
    (hnames : ∀ typeName cfg, p.getCfg typeName = some cfg → cfg.name = typeName)
    (hunits : ∀ frame, Engine.Starts (.of p hasCallees) frame → Summarizable p frame)
    (hg : g.Reachable (.of p hasCallees) (executor simplifier solver))
    (hstarts : Engine.Starts (.of p hasCallees) callee) (hend : g.contexts = [])
    (hσ : p.SortsStore σ) : ∃ before summary after,
      (g.nameToSummaries.find? callee.cfg.name).getD [] = before ++ summary :: after ∧
      Etfa.Suits σ summary.toSummary ∧ ∀ s ∈ before ++ after, ¬ Etfa.Suits σ s.toSummary := by
  obtain ⟨archive, h⟩ := hg.covers hp hnames hunits hstarts
  have hcallee := hunits callee hstarts
  have hone := h.admitting σ hσ
  rw [hend] at hone
  obtain ⟨before, c, after, rfl, hadmits, hothers⟩ := Partition.exists_only_of_admitting hone
  have hsummaries := h.summaries
  rw [List.map_append, List.map_cons] at hsummaries
  obtain ⟨before', rest', hlist, hbefore, hrest⟩ := List.map_eq_append_iff.mp hsummaries.symm
  obtain ⟨summary, after', rfl, hsummary, hafter⟩ := List.map_eq_cons_iff.mp hrest
  have hsuits : ∀ {d s}, d ∈ before ++ c :: after → summarize d = .ok s →
      (Etfa.Suits σ s.toSummary ↔ Admits p d σ) := fun hd hs =>
    (h.archived _ hd).1.suits_iff hcallee hs hσ
  refine ⟨before', summary, after', hlist, ?_, fun s hs => ?_⟩
  · exact (hsuits (List.mem_append_right _ List.mem_cons_self) hsummary.symm).mpr hadmits
  · have hmem : .ok s ∈ (before ++ after).map summarize := by
      rw [List.map_append, ← hbefore, ← hafter, ← List.map_append]
      exact List.mem_map_of_mem hs
    obtain ⟨d, hd, hsd⟩ := List.mem_map.mp hmem
    have hd' : d ∈ before ++ c :: after := by
      rcases List.mem_append.mp hd with hd | hd
      · exact List.mem_append_left _ hd
      · exact List.mem_append_right _ (List.mem_cons_of_mem _ hd)
    rw [hsuits hd' hsd]
    exact hothers d hd

end Runs

namespace Switch

def executed : Etfa.Program := ⟨callingF 7 [i, x], program.getCfg, 1⟩

def frameF : Frame := ⟨unit, "P.f", 2⟩

theorem mem_unit {l : ℤ} {v : Vertex} (h : unit.labelToVertex.find? l = some v) :
    v ∈ [⟨3, .entry, none⟩, branch, setting, toggling, exit] := by
  have hmem : (l, v) ∈ unit.labelToVertex.entries := (OrderedMap.find?_eq_some_iff _ _ _).mp h
  exact List.mem_map_of_mem (f := Prod.snd) hmem

theorem mem_callingF {l : ℤ} {v : Vertex} (h : executed.main.labelToVertex.find? l = some v) :
    v ∈ [⟨0, .entry, none⟩, ⟨1, .regular, some (.callInstruction instanceF 2 3)⟩,
      ⟨2, .exit, none⟩] := by
  have hmem : (l, v) ∈ executed.main.labelToVertex.entries :=
    (OrderedMap.find?_eq_some_iff _ _ _).mp h
  exact List.mem_map_of_mem (f := Prod.snd) hmem

theorem executed_instance {scope : String} {cfg : UnitCfg} (h : executed.Instance scope cfg) :
    scope = "P" ∧ cfg = executed.main ∨ scope = "P.f" ∧ cfg = unit := by
  induction h with
  | main => exact Or.inl ⟨rfl, rfl⟩
  | @called scope typeName cfg callee l t₁ t₂ v f _ hl hi htype hcfg ih =>
    rcases ih with ⟨rfl, rfl⟩ | ⟨rfl, rfl⟩
    · have hv := mem_callingF hl
      simp only [List.mem_cons, List.not_mem_nil, or_false] at hv
      rcases hv with rfl | rfl | rfl <;> cases hi
      cases htype
      cases hcfg
      exact Or.inr ⟨rfl, rfl⟩
    · have hv := mem_unit hl
      simp only [List.mem_cons, List.not_mem_nil, or_false] at hv
      rcases hv with rfl | rfl | rfl | rfl | rfl <;> cases hi

theorem entries_flattened : executed.main.flattenedInterface.entries =
    [("P.f.i", i), ("P.f.x", x)] := rfl

theorem executed_wellSorted : executed.WellSorted where
  sorted := by
    have hi' : executed.Resolves "P.f" (.variableAccess i) := ⟨.bool, rfl, rfl⟩
    have hx' : executed.Resolves "P.f" (.variableAccess x) := ⟨.bool, rfl, rfl⟩
    intro scope cfg h l v instruction hl hinstruction
    rcases executed_instance h with ⟨rfl, rfl⟩ | ⟨rfl, rfl⟩
    · have hv := mem_callingF hl
      simp only [List.mem_cons, List.not_mem_nil, or_false] at hv
      rcases hv with rfl | rfl | rfl <;> cases hinstruction
      exact trivial
    · have hv := mem_unit hl
      simp only [List.mem_cons, List.not_mem_nil, or_false] at hv
      rcases hv with rfl | rfl | rfl | rfl | rfl <;> cases hinstruction
      · exact fun q hq => List.mem_singleton.mp hq ▸ hi'
      · exact ⟨fun q hq => absurd hq List.not_mem_nil, rfl⟩
      · exact ⟨fun q hq => List.mem_singleton.mp hq ▸ hx', rfl⟩
  encodable := by
    intro n v hn
    have hmem := (OrderedMap.find?_eq_some_iff _ _ _).mp hn
    rw [entries_flattened] at hmem
    simp only [List.mem_cons, Prod.mk.injEq, List.not_mem_nil, or_false] at hmem
    rcases hmem with ⟨-, rfl⟩ | ⟨-, rfl⟩ <;> exact ⟨.bool, rfl, fun _ h => by cases h⟩

theorem executed_names (typeName : String) (cfg : UnitCfg)
    (h : executed.getCfg typeName = some cfg) : cfg.name = typeName := by
  change (if typeName = "F" then some unit else none) = some cfg at h
  split_ifs at h with hname
  cases h
  exact hname.symm

theorem summarizable_frameF : Summarizable executed frameF where
  isInstance :=
    have h : executed.Instance ("P" ++ "." ++ instanceF.name) unit :=
      .called (l := 1) .main rfl rfl rfl rfl
    h
  plain := by
    intro v hv
    simp only [frameF, unit, List.mem_cons, List.not_mem_nil, or_false] at hv
    rcases hv with rfl | rfl <;> (unfold Plain; decide)
  elementary := by
    intro v hv s _
    simp only [frameF, unit, List.mem_cons, List.not_mem_nil, or_false] at hv
    rcases hv with rfl | rfl <;> rfl
  noHavoc := by
    intro l v r hl
    have hv := mem_unit hl
    simp only [List.mem_cons, List.not_mem_nil, or_false] at hv
    rcases hv with rfl | rfl | rfl | rfl | rfl <;> simp [branch, setting, toggling, exit]
  additions := by
    intro l v e σ hl he _
    have hv := mem_unit hl
    simp only [List.mem_cons, List.not_mem_nil, or_false] at hv
    rcases hv with rfl | rfl | rfl | rfl | rfl <;> cases he <;> rfl

theorem starts_frameF (frame : Frame) (h : Engine.Starts (.of executed fun _ => false) frame) :
    frame = frameF := by
  obtain ⟨g₀, c, hg₀, hc, hframe⟩ := h
  have hinitial : Engine.initial (.of executed fun _ => false) =
      .ok (engineAt 0 [] [atEntry]) := rfl
  rw [hinitial] at hg₀
  cases hg₀
  obtain rfl := List.mem_singleton.mp hc
  cases hframe
  rfl

theorem reachable_end (solver : Solver String) :
    (engineAt 2 [toggledSummary, setSummary] []).Reachable (.of executed fun _ => false)
      (executor (.identity String) solver) := by
  obtain ⟨g₀, hinitial, hrun⟩ := reachable_set solver
  have hsummary : (engineAt 2 [toggledSummary] [setAtExit]).step
      (executor (.identity String) solver) =
      .ok (engineAt 2 [toggledSummary, setSummary] []) := rfl
  exact ⟨g₀, hinitial, hrun.tail hsummary⟩

theorem callsAt_f : executed.CallsAt ⟨executed.main, "P", 0⟩
    ⟨1, .regular, some (.callInstruction instanceF 2 3)⟩ frameF where
  type := rfl
  instruction := ⟨instanceF, 2, 3, "F", rfl, rfl, rfl, rfl⟩
  unit := rfl
  entry := ⟨_, _, rfl, rfl, rfl⟩
  back := ⟨_, _, rfl, rfl⟩

theorem sides_describe :
    (∃ branches, executed.DescribesSorted ⟨executed.main, "P", 0⟩
      ⟨1, .regular, some (.callInstruction instanceF 2 3)⟩ toggledSummary.toSummary branches) ∧
    ∃ branches, executed.DescribesSorted ⟨executed.main, "P", 0⟩
      ⟨1, .regular, some (.callInstruction instanceF 2 3)⟩ setSummary.toSummary branches := by
  have hunits : ∀ frame, Engine.Starts (.of executed fun _ => false) frame →
      Summarizable executed frame := fun frame h => starts_frameF frame h ▸ summarizable_frameF
  have hstarts : Engine.Starts (.of executed fun _ => false) frameF :=
    ⟨_, _, rfl, List.mem_cons_self, rfl⟩
  have hg := reachable_end (.classical String)
  exact ⟨Engine.Reachable.summaries_describe executed_wellSorted executed_names hunits hg hstarts
      List.mem_cons_self callsAt_f,
    Engine.Reachable.summaries_describe executed_wellSorted executed_names hunits hg hstarts
      (List.mem_cons_of_mem _ List.mem_cons_self) callsAt_f⟩

theorem sortsStore_false : executed.SortsStore fun _ => .bool false := by
  intro n s hn
  obtain ⟨v, hv⟩ := Etfa.Program.entry_of_sortOf hn
  rw [entries_flattened] at hv
  simp only [List.mem_cons, Prod.mk.injEq, List.not_mem_nil, or_false] at hv
  rcases hv with ⟨rfl, -⟩ | ⟨rfl, -⟩ <;> (cases hn; exact ⟨false, rfl⟩)

/-- The store suits one of the two sides only. -/
theorem sides_partition : ∃ before summary after,
    [toggledSummary, setSummary] = before ++ summary :: after ∧
      Etfa.Suits (fun _ => .bool false) summary.toSummary ∧
      ∀ s ∈ before ++ after, ¬ Etfa.Suits (fun _ => .bool false) s.toSummary :=
  Engine.Reachable.summaries_partition executed_wellSorted executed_names
    (fun frame h => starts_frameF frame h ▸ summarizable_frameF)
    (reachable_end (.classical String)) ⟨_, _, rfl, List.mem_cons_self, rfl⟩ rfl sortsStore_false

end Switch

end Summarization

end Ahorn
