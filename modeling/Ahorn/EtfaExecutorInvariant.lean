import Ahorn.EtfaInvariant

set_option autoImplicit false

/-!
# The executor preserves the invariant
-/
namespace Ahorn.Etfa

variable {p : Program} {versions versions' : Versions} {k : ℕ} {c c' : Context} {frame : Frame}

namespace State

theorem getVersion_eq {st : State} {x : String} {v : ℕ} (h : st.getVersion x = .ok v) :
    st.flattenedNameToVersion.find? x = some v := by
  unfold getVersion at h
  split at h
  · rename_i hv
    cases h
    exact hv
  · cases h

theorem getSymbolicValuation_eq {st : State} {n : String} {e : SortedTerm String}
    (h : st.getSymbolicValuation n = .ok e) : st.symbolicValuations.find? n = some e := by
  unfold getSymbolicValuation at h
  split at h
  · rename_i he
    cases h
    exact he
  · cases h

theorem setSymbolicValuation_eq {st st' : State} {n : String} {e : SortedTerm String}
    (h : st.setSymbolicValuation n e = .ok st') :
    st.symbolicValuations.find? n = none ∧
      st' = { st with symbolicValuations := st.symbolicValuations.emplace n e } := by
  unfold setSymbolicValuation at h
  split at h
  · cases h
  · rename_i hn
    cases h
    exact ⟨hn, rfl⟩

theorem setVersion_eq {st st' : State} {x : String} {v : ℕ} (h : st.setVersion x v = .ok st') :
    (∃ w, st.flattenedNameToVersion.find? x = some w) ∧
      st' = { st with flattenedNameToVersion := st.flattenedNameToVersion.assign x v } := by
  unfold setVersion at h
  split at h
  · rename_i hw
    cases h
    exact ⟨⟨_, hw⟩, rfl⟩
  · cases h

end State

theorem Executor.getVersion_eq {x : String} {v : ℕ} (h : Executor.getVersion versions x = .ok v) :
    versions.find? x = some v := by
  unfold Executor.getVersion at h
  split at h
  · rename_i hv
    cases h
    exact hv
  · cases h

theorem makeConstant_eq {n : String} {type : DataType} {e : SortedTerm String}
    (h : makeConstant n type = .ok e) :
    ∃ s, type.sort = .ok s ∧ e = ⟨s, .constant s n⟩ := by
  obtain ⟨s, hs, h⟩ := bind_eq_ok h
  cases h
  exact ⟨s, hs, rfl⟩

theorem find?_emplace_eq_union {m : OrderedMap String (SortedTerm String)} {n : String}
    (e : SortedTerm String) : (m.emplace n e).find? =
      Definitions.union (m.find? : Definitions String) (Definitions.define n e) := by
  funext q
  rw [OrderedMap.find?_emplace, Definitions.union, Definitions.define]
  by_cases hq : q = n
  · rw [if_pos hq, if_pos hq, hq]
  · rw [if_neg hq, if_neg hq, Option.or_none]

namespace Context

/-- What a term and its closedness are in the context stays so when a fresh name is defined. -/
theorem WellDefined.write (h : c.WellDefined p) {x : String} {s : SmtSort} {v : ℕ}
    (hx : p.sortOf x = some s) (hfresh : c.definitions (contextualized x v c.cycle) = none)
    {t : Term String s} (ht : c.definitions.Closed t) (hcycle : c'.cycle = c.cycle)
    (hvaluations : c'.state.symbolicValuations =
      c.state.symbolicValuations.emplace (contextualized x v c.cycle) ⟨s, t⟩)
    (hconstraint : c'.state.pathConstraint = c.state.pathConstraint)
    (hversions : c'.state.flattenedNameToVersion = c.state.flattenedNameToVersion.assign x v) :
    c'.WellDefined p ∧ c'.definitions =
      c.definitions.union (Definitions.define (contextualized x v c.cycle) ⟨s, t⟩) := by
  have hdef : c'.definitions =
      c.definitions.union (Definitions.define (contextualized x v c.cycle) ⟨s, t⟩) := by
    rw [definitions, hvaluations, find?_emplace_eq_union]
    rfl
  have hold : ∀ n e, c.definitions n = some e → c'.definitions n = some e := by
    intro n e hn
    rw [hdef]
    exact Definitions.union_left hn
  have hnew : c'.definitions (contextualized x v c.cycle) = some ⟨s, t⟩ := by
    rw [hdef, Definitions.union_right hfresh]
    exact if_pos rfl
  refine ⟨⟨?_, ?_, ?_, ?_⟩, hdef⟩
  · rw [hdef]
    exact h.acyclic.define hfresh (Or.inr ht)
  · intro u hu
    rw [hconstraint] at hu
    exact (h.closed u hu).mono hold
  · intro y s' hy
    rw [hversions, OrderedMap.find?_assign, hcycle]
    split_ifs with hyx
    · subst hyx
      rw [hx] at hy
      cases hy
      exact ⟨v, rfl, t, hnew⟩
    · obtain ⟨v', hv', t', ht'⟩ := h.current hy
      exact ⟨v', hv', t', hold _ _ ht'⟩
  · intro y v' hy
    rw [hversions, OrderedMap.find?_assign] at hy
    split_ifs at hy with hyx
    · subst hyx
      exact ⟨s, hx⟩
    · exact h.declared hy

theorem Invariant.write (h : c.Invariant p versions k) {x : String} {s : SmtSort} {v w : ℕ}
    (hx : p.sortOf x = some s) (hw : versions.find? x = some w) (hv : w < v)
    {t : Term String s} (ht : c.definitions.Closed t) (hcycle : c'.cycle = c.cycle)
    (hvaluations : c'.state.symbolicValuations =
      c.state.symbolicValuations.emplace (contextualized x v k) ⟨s, t⟩)
    (hconstraint : c'.state.pathConstraint = c.state.pathConstraint)
    (hversions : c'.state.flattenedNameToVersion = c.state.flattenedNameToVersion.assign x v) :
    c'.Invariant p (versions.assign x v) k := by
  have hfresh := h.fresh hw hv
  rw [← h.cycle] at hfresh hvaluations
  obtain ⟨hwell, hdef⟩ := h.wellDefined.write hx hfresh ht hcycle hvaluations hconstraint hversions
  apply hwell.invariant (hcycle.trans h.cycle)
  intro y v' d e hd
  cases hn : c.definitions (contextualized y v' d) with
  | some e' =>
    obtain ⟨hle, hb⟩ := h.bounded hn
    refine ⟨hle, fun heq => ?_⟩
    obtain ⟨u, hu, hvu⟩ := hb heq
    obtain ⟨u', hu', huu⟩ := Versions.Le.assign hw hv.le y u hu
    exact ⟨u', hu', hvu.trans huu⟩
  | none =>
    rw [hdef, Definitions.union_right hn, Definitions.define] at hd
    split_ifs at hd with hname
    obtain ⟨rfl, rfl, rfl⟩ := contextualized_injective hname
    exact ⟨h.cycle.le, fun _ => ⟨v', by rw [OrderedMap.find?_assign, if_pos rfl], le_rfl⟩⟩

end Context

namespace Executor

theorem access_eq {r : VariableReference} {u : SortedTerm String}
    (h : access frame c r = .ok u) :
    ∃ v s, c.state.flattenedNameToVersion.find? (frame.scope ++ "." ++ r.getName) = some v ∧
      r.getVariable.dataType.sort = .ok s ∧
      u = ⟨s, .constant s (contextualized (frame.scope ++ "." ++ r.getName) v c.cycle)⟩ := by
  obtain ⟨v, hv, h⟩ := bind_eq_ok h
  obtain ⟨s, hs, hu⟩ := makeConstant_eq h
  exact ⟨v, s, State.getVersion_eq hv, hs, hu⟩

theorem encode_closed {ex : Executor} {e : Expression} {u : SortedTerm String}
    (hc : c.WellDefined p) (hrefs : ∀ q ∈ e.references, p.Resolves frame.scope q)
    (h : ex.encode frame c e = .ok u) : c.definitions.Closed u.2 := by
  intro n hn
  obtain ⟨q, hq, u', hu', hn⟩ := Encoder.encode_occurrences e h n hn
  obtain ⟨v, s, hv, hs, rfl⟩ := access_eq hu'
  obtain ⟨s', hs', hsort⟩ := hrefs q hq
  rw [hs] at hsort
  cases hsort
  obtain rfl := List.mem_singleton.mp hn
  exact hc.currentVersion hs' hv

theorem encode_sort {ex : Executor} {e : Expression} {u : SortedTerm String}
    (h : ex.encode frame c e = .ok u) : u.1 = e.sort .rejected := by
  refine Encoder.encode_sort ?_ e h
  intro r t ht
  obtain ⟨v, s, -, hs, rfl⟩ := access_eq ht
  exact hs

theorem getVertex_eq {cfg : Cfg} {l : ℤ} {v : Vertex} (h : cfg.getVertex l = .ok v) :
    cfg.labelToVertex.find? l = some v := by
  unfold Cfg.getVertex at h
  split at h
  · rename_i hv
    cases h
    exact hv
  · cases h

theorem getOnlySuccessor_eq {cfg : Cfg} {l : ℤ} {v : Vertex} (h : cfg.getOnlySuccessor l = .ok v) :
    ∃ edge ∈ cfg.getOutgoingEdges l, cfg.labelToVertex.find? edge.targetLabel = some v := by
  unfold Cfg.getOnlySuccessor at h
  split at h
  · rename_i next hnext
    have hmem : next ∈ cfg.getSucceedingLabels l := by
      rw [hnext]
      exact List.mem_singleton.mpr rfl
    obtain ⟨edge, hedge, rfl⟩ := List.mem_map.mp hmem
    exact ⟨edge, hedge, getVertex_eq h⟩
  · cases h

theorem getEdgeOfType_eq {cfg : Cfg} {type : EdgeType} {l : ℤ} {edge : Edge}
    (h : cfg.getEdgeOfType type l = .ok edge) : edge ∈ cfg.getOutgoingEdges l ∧ edge.type = type := by
  unfold Cfg.getEdgeOfType at h
  split at h
  · rename_i hedge
    cases h
    have htype := List.find?_some hedge
    exact ⟨List.mem_of_find?_eq_some hedge, of_decide_eq_true htype⟩
  · cases h

/-- The second context is behind an edge out of the vertex of the first one, in the same frame. -/
def Leads (frame : Frame) (c c' : Context) : Prop :=
  c'.callStack = c.callStack ∧ ∃ edge ∈ frame.cfg.getOutgoingEdges c.state.vertex.label,
    frame.cfg.labelToVertex.find? edge.targetLabel = some c'.state.vertex

theorem moveTo_leads {next : Vertex}
    (h : frame.cfg.getOnlySuccessor c.state.vertex.label = .ok next) :
    Leads frame c (moveTo next c) :=
  ⟨rfl, getOnlySuccessor_eq h⟩

theorem visitAssignment_leads {ex : Executor} {r : VariableReference} {e : Expression}
    (h : ex.visitAssignment frame r e versions c = .ok (versions', c')) : Leads frame c c' := by
  obtain ⟨_, -, h⟩ := bind_eq_ok h
  obtain ⟨_, -, h⟩ := bind_eq_ok h
  obtain ⟨st₁, hst₁, h⟩ := bind_eq_ok h
  obtain ⟨st₂, hst₂, h⟩ := bind_eq_ok h
  obtain ⟨edge, hedge, h⟩ := bind_eq_ok h
  obtain ⟨next, hnext, h⟩ := bind_eq_ok h
  cases h
  obtain ⟨-, rfl⟩ := State.setVersion_eq hst₁
  obtain ⟨-, rfl⟩ := State.setSymbolicValuation_eq hst₂
  unfold Cfg.getIntraproceduralEdge at hedge
  split_ifs at hedge
  exact ⟨rfl, edge, (getEdgeOfType_eq hedge).1, getVertex_eq hnext⟩

/-- A branch forks over its two edges; where its term is unsatisfiable, only over the second. -/
theorem visitIf_edges {ex : Executor} {e : Expression} {successors : Successors}
    (h : ex.visitIf frame e c = .ok successors) : ∃ t trueEdge positive falseEdge negative,
      ex.encode frame c e = .ok ⟨.bool, t⟩ ∧
      frame.cfg.getTrueEdge c.state.vertex.label = .ok trueEdge ∧
      frame.cfg.getVertex trueEdge.targetLabel = .ok positive ∧
      frame.cfg.getFalseEdge c.state.vertex.label = .ok falseEdge ∧
      frame.cfg.getVertex falseEdge.targetLabel = .ok negative ∧
      let negated := ex.simplifier.simplify (Term.not t)
      let expressions := c.state.pathConstraint ++ c.state.symbolicValuations.entries.map equation
      (ex.solver.check (expressions ++ [t]) = true ∧ successors = ⟨[c.fork positive t],
        if ex.solver.check (expressions ++ [negated]) then some (c.fork negative negated)
        else none⟩) ∨
      (ex.solver.check (expressions ++ [t]) = false ∧
        successors = ⟨[c.fork negative negated], none⟩) := by
  obtain ⟨⟨s, t⟩, ht, h⟩ := bind_eq_ok h
  cases s with
  | int => cases h
  | bool =>
    obtain ⟨trueEdge, htrue, h⟩ := bind_eq_ok h
    obtain ⟨positive, hpositive, h⟩ := bind_eq_ok h
    obtain ⟨falseEdge, hfalse, h⟩ := bind_eq_ok h
    obtain ⟨negative, hnegative, h⟩ := bind_eq_ok h
    refine ⟨t, trueEdge, positive, falseEdge, negative, ht, htrue, hpositive, hfalse, hnegative, ?_⟩
    dsimp only at h
    split at h
    · rename_i hsat
      cases h
      exact Or.inl ⟨hsat, rfl⟩
    · rename_i hunsat
      cases h
      exact Or.inr ⟨Bool.eq_false_iff.mpr hunsat, rfl⟩

theorem visitIf_cases {ex : Executor} {e : Expression} {successors : Successors}
    (h : ex.visitIf frame e c = .ok successors) : ∃ t positive negative,
      ex.encode frame c e = .ok ⟨.bool, t⟩ ∧
      (∃ edge ∈ frame.cfg.getOutgoingEdges c.state.vertex.label, edge.type = .trueBranch ∧
        frame.cfg.labelToVertex.find? edge.targetLabel = some positive) ∧
      (∃ edge ∈ frame.cfg.getOutgoingEdges c.state.vertex.label, edge.type = .falseBranch ∧
        frame.cfg.labelToVertex.find? edge.targetLabel = some negative) ∧
      ∀ c' ∈ successors.contexts ++ successors.forked.toList, c' = c.fork positive t ∨
        c' = c.fork negative (ex.simplifier.simplify (.not t)) := by
  obtain ⟨t, trueEdge, positive, falseEdge, negative, ht, htrue, hpositive, hfalse, hnegative, h⟩ :=
    visitIf_edges h
  obtain ⟨htrueMem, htrueType⟩ := getEdgeOfType_eq htrue
  obtain ⟨hfalseMem, hfalseType⟩ := getEdgeOfType_eq hfalse
  refine ⟨t, positive, negative, ht, ⟨trueEdge, htrueMem, htrueType, getVertex_eq hpositive⟩,
    ⟨falseEdge, hfalseMem, hfalseType, getVertex_eq hnegative⟩, fun c' hc' => ?_⟩
  rcases h with ⟨-, rfl⟩ | ⟨-, rfl⟩
  · split_ifs at hc'
    · simpa using hc'
    · exact Or.inl (by simpa using hc')
  · exact Or.inr (by simpa using hc')

theorem visitIf_leads {ex : Executor} {e : Expression} {successors : Successors}
    (h : ex.visitIf frame e c = .ok successors) :
    ∀ c' ∈ successors.contexts ++ successors.forked.toList, Leads frame c c' := by
  obtain ⟨t, positive, negative, -, ⟨trueEdge, htrue, -, hpositive⟩,
    ⟨falseEdge, hfalse, -, hnegative⟩, hboth⟩ := visitIf_cases h
  intro c' hc'
  rcases hboth c' hc' with rfl | rfl
  · exact ⟨rfl, trueEdge, htrue, hpositive⟩
  · exact ⟨rfl, falseEdge, hfalse, hnegative⟩

theorem handleProgramExitVertex_returns {ex : Executor}
    (h : ex.handleProgramExitVertex frame versions c = .ok (versions', c')) :
    c.callStack.length = 1 ∧ c'.callStack = c.callStack ∧
      frame.cfg.labelToVertex.find? frame.returnLabel = some c'.state.vertex := by
  unfold handleProgramExitVertex at h
  split_ifs at h with hdepth
  obtain ⟨_, -, h⟩ := bind_eq_ok h
  obtain ⟨_, -, h⟩ := bind_eq_ok h
  obtain ⟨next, hnext, h⟩ := bind_eq_ok h
  cases h
  exact ⟨not_not.mp hdepth, rfl, getVertex_eq hnext⟩

theorem visitAssignment_cases {ex : Executor} {r : VariableReference} {e : Expression}
    (h : ex.visitAssignment frame r e versions c = .ok (versions', c')) :
    ∃ u w edge next, ex.encode frame c e = .ok u ∧
      versions.find? (frame.scope ++ "." ++ r.getName) = some w ∧
      c.definitions (contextualized (frame.scope ++ "." ++ r.getName) (w + 1) c.cycle) = none ∧
      frame.cfg.getIntraproceduralEdge c.state.vertex.label = .ok edge ∧
      frame.cfg.getVertex edge.targetLabel = .ok next ∧
      versions' = versions.assign (frame.scope ++ "." ++ r.getName) (w + 1) ∧
      c' = { c with
        state := {
          vertex := next
          symbolicValuations := c.state.symbolicValuations.emplace
            (contextualized (frame.scope ++ "." ++ r.getName) (w + 1) c.cycle) u
          pathConstraint := c.state.pathConstraint
          flattenedNameToVersion :=
            c.state.flattenedNameToVersion.assign (frame.scope ++ "." ++ r.getName) (w + 1) } } := by
  obtain ⟨u, hu, h⟩ := bind_eq_ok h
  obtain ⟨w, hw, h⟩ := bind_eq_ok h
  obtain ⟨st₁, hst₁, h⟩ := bind_eq_ok h
  obtain ⟨st₂, hst₂, h⟩ := bind_eq_ok h
  obtain ⟨edge, hedge, h⟩ := bind_eq_ok h
  obtain ⟨next, hnext, h⟩ := bind_eq_ok h
  cases h
  obtain ⟨-, rfl⟩ := State.setVersion_eq hst₁
  obtain ⟨hfresh, rfl⟩ := State.setSymbolicValuation_eq hst₂
  exact ⟨u, w, edge, next, hu, getVersion_eq hw, hfresh, hedge, hnext, rfl, rfl⟩

theorem visitAssignment_wellDefined {ex : Executor} {type : AssignmentType} {r : VariableReference}
    {e : Expression} (hc : c.WellDefined p)
    (hsorted : p.Sorted frame.scope (.assignmentInstruction type r e))
    (h : ex.visitAssignment frame r e versions c = .ok (versions', c')) : c'.WellDefined p := by
  obtain ⟨⟨s, t⟩, w, edge, next, ht, -, hfresh, -, -, -, rfl⟩ := visitAssignment_cases h
  have hsort := encode_sort ht
  dsimp only at hsort
  subst hsort
  refine And.left (hc.write hsorted.2 hfresh (encode_closed hc hsorted.1 ht) ?_ ?_ ?_ ?_) <;> rfl

theorem visitAssignment_invariant {ex : Executor} {type : AssignmentType} {r : VariableReference}
    {e : Expression} (hc : c.Invariant p versions k)
    (hsorted : p.Sorted frame.scope (.assignmentInstruction type r e))
    (h : ex.visitAssignment frame r e versions c = .ok (versions', c')) :
    c'.Invariant p versions' k ∧ versions.Le versions' := by
  obtain ⟨⟨s, t⟩, w, edge, next, ht, hw, -, -, -, rfl, rfl⟩ := visitAssignment_cases h
  have hsort := encode_sort ht
  dsimp only at hsort
  subst hsort
  refine ⟨hc.write hsorted.2 hw (Nat.lt_succ_self w)
    (encode_closed hc.wellDefined hsorted.1 ht) rfl ?_ rfl rfl, Versions.Le.assign hw (Nat.le_succ w)⟩
  rw [hc.cycle]

theorem moveTo_invariant (hc : c.Invariant p versions k) (next : Vertex) :
    (moveTo next c).Invariant p versions k :=
  hc.of_eq rfl rfl hc.closed rfl

theorem fork_closed {next : Vertex} {t : Term String .bool}
    (hc : ∀ u ∈ c.state.pathConstraint, c.definitions.Closed u) (ht : c.definitions.Closed t) :
    ∀ u ∈ (c.fork next t).state.pathConstraint, c.definitions.Closed u := by
  intro u hu
  rcases List.mem_append.mp hu with hu | hu
  · exact hc u hu
  · rw [List.mem_singleton.mp hu]
    exact ht

theorem fork_wellDefined (hc : c.WellDefined p) (next : Vertex) {t : Term String .bool}
    (ht : c.definitions.Closed t) : (c.fork next t).WellDefined p :=
  hc.of_eq rfl rfl (fork_closed hc.closed ht) rfl

theorem fork_invariant (hc : c.Invariant p versions k) (next : Vertex) {t : Term String .bool}
    (ht : c.definitions.Closed t) : (c.fork next t).Invariant p versions k :=
  hc.of_eq rfl rfl (fork_closed hc.closed ht) rfl

theorem visitIf_invariant {ex : Executor} {e : Expression} {t₁ t₂ : ℤ} {successors : Successors}
    (hc : c.Invariant p versions k) (hsorted : p.Sorted frame.scope (.ifInstruction e t₁ t₂))
    (h : ex.visitIf frame e c = .ok successors) :
    ∀ c' ∈ successors.contexts ++ successors.forked.toList, c'.Invariant p versions k := by
  obtain ⟨t, positive, negative, ht, -, -, hboth⟩ := visitIf_cases h
  have hclosed : c.definitions.Closed t := encode_closed hc.wellDefined hsorted ht
  have hnegated : c.definitions.Closed (ex.simplifier.simplify (.not t)) := fun n hn =>
    hclosed n (ex.simplifier.occurrences_simplify (Term.not t) hn)
  intro c' hc'
  rcases hboth c' hc' with rfl | rfl
  · exact fork_invariant hc positive hclosed
  · exact fork_invariant hc negative hnegated

theorem if_mem_cons {α : Type} (x y : String) (names : List String) (a b : α) :
    (if y ∈ names then a else if y = x then a else b) = if y ∈ x :: names then a else b := by
  by_cases hx : y = x
  · simp [hx]
  · simp [hx]

theorem carryOver_names {ex : Executor} {entries : List (String × Variable)} {st st' : State}
    (h : ex.carryOver k entries (versions, st) = .ok (versions', st')) :
    st'.flattenedNameToVersion = st.flattenedNameToVersion ∧
      (∀ n e, st.symbolicValuations.find? n = some e → st'.symbolicValuations.find? n = some e) ∧
      (∀ n e, st'.symbolicValuations.find? n = some e → st.symbolicValuations.find? n = some e ∨
        ∃ x v, (x, v) ∈ entries ∧ n = contextualized x 0 (k + 1)) ∧
      ∀ y, versions'.find? y = if y ∈ entries.map Prod.fst then some 0 else versions.find? y := by
  induction entries generalizing versions st with
  | nil =>
    cases h
    exact ⟨rfl, fun _ _ h => h, fun _ _ h => Or.inl h, fun _ => rfl⟩
  | cons entry entries ih =>
    obtain ⟨x, v⟩ := entry
    obtain ⟨e₀, -, h⟩ := bind_eq_ok h
    obtain ⟨st₁, hst₁, h⟩ := bind_eq_ok h
    obtain ⟨hfresh, rfl⟩ := State.setSymbolicValuation_eq hst₁
    obtain ⟨hver, hkeep, hback, hglobal⟩ := ih h
    refine ⟨hver, fun n e hn => hkeep n e ?_, fun n e hn => ?_, fun y => ?_⟩
    · dsimp only
      rw [OrderedMap.find?_emplace_ne _ _ fun hname => by rw [hname, hfresh] at hn; cases hn]
      exact hn
    · rcases hback n e hn with hn | ⟨y, u, hy, rfl⟩
      · by_cases hname : n = contextualized x 0 (k + 1)
        · exact Or.inr ⟨x, v, List.mem_cons_self, hname⟩
        · rw [OrderedMap.find?_emplace_ne _ _ hname] at hn
          exact Or.inl hn
      · exact Or.inr ⟨y, u, List.mem_cons_of_mem _ hy, rfl⟩
    · rw [hglobal, OrderedMap.find?_assign, List.map_cons, if_mem_cons]

/-- Every variable begins the next cycle with the valuation that is carried over for it. -/
theorem carryOver_carried {ex : Executor} {entries : List (String × Variable)} {st st' : State}
    (h : ex.carryOver k entries (versions, st) = .ok (versions', st')) (x : String) (v : Variable)
    (hx : (x, v) ∈ entries) : ∃ e, ex.carriedValuation k st x v = .ok e ∧
      st'.symbolicValuations.find? (contextualized x 0 (k + 1)) = some e := by
  induction entries generalizing versions st with
  | nil => exact absurd hx List.not_mem_nil
  | cons entry entries ih =>
    obtain ⟨y, u⟩ := entry
    obtain ⟨e, he, h⟩ := bind_eq_ok h
    obtain ⟨st₁, hst₁, h⟩ := bind_eq_ok h
    obtain ⟨hfresh, rfl⟩ := State.setSymbolicValuation_eq hst₁
    have hkeep := (carryOver_names h).2.1
    rcases List.mem_cons.mp hx with hx | hx
    · obtain ⟨rfl, rfl⟩ := Prod.mk.inj hx
      exact ⟨e, he, hkeep _ _ (OrderedMap.find?_emplace_self e hfresh)⟩
    · obtain ⟨e', he', hnew⟩ := ih h hx
      refine ⟨e', ?_, hnew⟩
      rw [← he', carriedValuation, carriedValuation]
      split_ifs with hinput
      · rfl
      · -- the valuations written in between are those of the next cycle
        have hold : ∀ w, State.getSymbolicValuation
            { st with symbolicValuations :=
                st.symbolicValuations.emplace (contextualized y 0 (k + 1)) e }
            (contextualized x w k) = st.getSymbolicValuation (contextualized x w k) := by
          intro w
          unfold State.getSymbolicValuation
          rw [OrderedMap.find?_emplace_ne]
          intro hname
          obtain ⟨-, -, hk⟩ := contextualized_injective hname
          omega
        simp only [hold]
        rfl

theorem carryOver_values {ex : Executor} {entries : List (String × Variable)} {st st' : State}
    (h : ex.carryOver k entries (versions, st) = .ok (versions', st')) (x : String) (v : Variable)
    (hx : (x, v) ∈ entries) (hinput : x ∉ ex.wholeProgramInputs) :
    ∃ w e, st.flattenedNameToVersion.find? x = some w ∧
      st.symbolicValuations.find? (contextualized x w k) = some e ∧
      st'.symbolicValuations.find? (contextualized x 0 (k + 1)) = some e := by
  obtain ⟨e, he, hnew⟩ := carryOver_carried h x v hx
  rw [carriedValuation, if_neg hinput] at he
  obtain ⟨w, hw, he⟩ := bind_eq_ok he
  exact ⟨w, e, State.getVersion_eq hw, State.getSymbolicValuation_eq he, hnew⟩

theorem carryOver_spec {ex : Executor} {entries : List (String × Variable)} {st st' : State}
    (hacyclic : Definitions.Acyclic st.symbolicValuations.find?)
    (hcurrent : ∀ x v, (x, v) ∈ entries → ∃ s, v.dataType.sort = .ok s ∧
      ∀ w, st.flattenedNameToVersion.find? x = some w →
        ∃ t, st.symbolicValuations.find? (contextualized x w k) = some ⟨s, t⟩)
    (h : ex.carryOver k entries (versions, st) = .ok (versions', st')) :
    Definitions.Acyclic st'.symbolicValuations.find? ∧
      ∀ x v, (x, v) ∈ entries → ∃ s t, v.dataType.sort = .ok s ∧
        st'.symbolicValuations.find? (contextualized x 0 (k + 1)) = some ⟨s, t⟩ := by
  induction entries generalizing versions st with
  | nil =>
    cases h
    exact ⟨hacyclic, fun _ _ h => absurd h List.not_mem_nil⟩
  | cons entry entries ih =>
    obtain ⟨x, v⟩ := entry
    obtain ⟨⟨s, t⟩, ht, h⟩ := bind_eq_ok h
    obtain ⟨st₁, hst₁, h⟩ := bind_eq_ok h
    obtain ⟨hfresh, rfl⟩ := State.setSymbolicValuation_eq hst₁
    obtain ⟨s', hs', hcur⟩ := hcurrent x v List.mem_cons_self
    have hvaluation : s = s' ∧ (t = .constant s (contextualized x 0 (k + 1)) ∨
        Definitions.Closed st.symbolicValuations.find? t) := by
      unfold carriedValuation at ht
      split_ifs at ht with hinput
      · obtain ⟨s'', hs'', he⟩ := makeConstant_eq ht
        rw [hs'] at hs''
        cases hs''
        cases he
        exact ⟨rfl, Or.inl rfl⟩
      · obtain ⟨w, hw, ht⟩ := bind_eq_ok ht
        have ht := State.getSymbolicValuation_eq ht
        obtain ⟨t', ht'⟩ := hcur w (State.getVersion_eq hw)
        rw [ht] at ht'
        cases ht'
        exact ⟨rfl, Or.inr (hacyclic.closed _ _ _ ht)⟩
    obtain ⟨rfl, hclosed⟩ := hvaluation
    have hdef := find?_emplace_eq_union (m := st.symbolicValuations)
      (n := contextualized x 0 (k + 1)) ⟨s, t⟩
    have hnew := OrderedMap.find?_emplace_self (⟨s, t⟩ : SortedTerm String) hfresh
    obtain ⟨hacy, hnext⟩ := ih
      (by
        rw [hdef]
        exact hacyclic.define hfresh hclosed)
      (by
        intro y u hy
        obtain ⟨s', hs', hcur⟩ := hcurrent y u (List.mem_cons_of_mem _ hy)
        refine ⟨s', hs', fun w hw => ?_⟩
        obtain ⟨t', ht'⟩ := hcur w hw
        refine ⟨t', ?_⟩
        rw [hdef]
        exact Definitions.union_left ht') h
    refine ⟨hacy, fun y u hy => ?_⟩
    rcases List.mem_cons.mp hy with hy | hy
    · cases hy
      exact ⟨s, t, hs', (carryOver_names h).2.1 _ _ hnew⟩
    · exact hnext y u hy

theorem resetVersions_spec {entries : List (String × Variable)} {st st' : State}
    (h : resetVersions entries st = .ok st') :
    st'.symbolicValuations = st.symbolicValuations ∧ st'.pathConstraint = st.pathConstraint ∧
      ∀ y, st'.flattenedNameToVersion.find? y =
        if y ∈ entries.map Prod.fst then some 0 else st.flattenedNameToVersion.find? y := by
  induction entries generalizing st with
  | nil =>
    cases h
    exact ⟨rfl, rfl, fun _ => rfl⟩
  | cons entry entries ih =>
    obtain ⟨st₁, hst₁, h⟩ := bind_eq_ok h
    obtain ⟨-, rfl⟩ := State.setVersion_eq hst₁
    obtain ⟨hval, hpc, hver⟩ := ih h
    refine ⟨hval, hpc, fun y => ?_⟩
    rw [hver, OrderedMap.find?_assign, List.map_cons, if_mem_cons]

theorem handleProgramExitVertex_cases {ex : Executor}
    (h : ex.handleProgramExitVertex frame versions c = .ok (versions', c')) :
    c.callStack.length = 1 ∧ ∃ st₁ st₂ next,
      ex.carryOver c.cycle frame.cfg.flattenedInterface.entries (versions, c.state) =
        .ok (versions', st₁) ∧
      resetVersions frame.cfg.flattenedInterface.entries st₁ = .ok st₂ ∧
      frame.cfg.getVertex frame.returnLabel = .ok next ∧
      c' = { c with
        cycle := c.cycle + 1
        state := { st₂ with pathConstraint := [], vertex := next } } := by
  unfold handleProgramExitVertex at h
  split_ifs at h with hdepth
  obtain ⟨⟨versions₁, st₁⟩, hcarry, h⟩ := bind_eq_ok h
  obtain ⟨st₂, hreset, h⟩ := bind_eq_ok h
  obtain ⟨next, hnext, h⟩ := bind_eq_ok h
  cases h
  exact ⟨not_not.mp hdepth, st₁, st₂, next, hcarry, hreset, hnext, rfl⟩

/-- The exit of the program starts the next cycle with version 0 of every variable. -/
theorem handleProgramExitVertex_wellDefined {ex : Executor} (hp : p.WellSorted)
    (hc : c.WellDefined p) (hframe : frame.cfg = p.main)
    (h : ex.handleProgramExitVertex frame versions c = .ok (versions', c')) :
    c'.WellDefined p := by
  obtain ⟨-, st₁, st₂, next, hcarry, hreset, -, rfl⟩ := handleProgramExitVertex_cases h
  rw [hframe] at hcarry hreset
  obtain ⟨hver, -, -, -⟩ := carryOver_names hcarry
  obtain ⟨hacyclic, hvaluation⟩ := carryOver_spec hc.acyclic (by
    intro x v hx
    obtain ⟨s, hs, hxs⟩ := hp.sortOf_entry hx
    exact ⟨s, hs, fun w hw => hc.currentVersion hxs hw⟩) hcarry
  obtain ⟨hval, -, hlocal⟩ := resetVersions_spec hreset
  refine ⟨?_, fun t ht => absurd ht List.not_mem_nil, ?_, ?_⟩
  · change Definitions.Acyclic st₂.symbolicValuations.find?
    rw [hval]
    exact hacyclic
  · intro x s hx
    obtain ⟨v, hv⟩ := Program.entry_of_sortOf hx
    obtain ⟨s', t, hs', ht⟩ := hvaluation x v hv
    obtain ⟨s'', hs'', hx'⟩ := hp.sortOf_entry hv
    rw [hx] at hx'
    cases hx'
    rw [hs'] at hs''
    cases hs''
    refine ⟨0, (hlocal x).trans (if_pos (List.mem_map_of_mem hv)), t, ?_⟩
    change st₂.symbolicValuations.find? _ = _
    rw [hval]
    exact ht
  · intro x v hx
    have hx := (hlocal x).symm.trans hx
    split_ifs at hx with hmem
    · obtain ⟨⟨y, u⟩, hu, rfl⟩ := List.mem_map.mp hmem
      obtain ⟨s, -, hs⟩ := hp.sortOf_entry hu
      exact ⟨s, hs⟩
    · rw [hver] at hx
      exact hc.declared hx

theorem handleProgramExitVertex_invariant {ex : Executor} (hp : p.WellFormed)
    (hc : c.Invariant p versions k) (hframe : frame.cfg = p.main)
    (h : ex.handleProgramExitVertex frame versions c = .ok (versions', c')) :
    c'.Invariant p versions' (k + 1) := by
  have hwell := handleProgramExitVertex_wellDefined hp.toWellSorted hc.wellDefined hframe h
  obtain ⟨-, st₁, st₂, next, hcarry, hreset, -, rfl⟩ := handleProgramExitVertex_cases h
  rw [hc.cycle] at hcarry
  obtain ⟨-, -, hback, hglobal⟩ := carryOver_names hcarry
  obtain ⟨hval, -, -⟩ := resetVersions_spec hreset
  apply hwell.invariant (congrArg (· + 1) hc.cycle)
  intro x v d e hd
  change st₂.symbolicValuations.find? _ = _ at hd
  rw [hval] at hd
  rcases hback _ _ hd with hd | ⟨y, u, hy, hname⟩
  · obtain ⟨hle, -⟩ := hc.bounded hd
    exact ⟨by omega, by omega⟩
  · obtain ⟨rfl, rfl, rfl⟩ := contextualized_injective hname
    exact ⟨le_rfl, fun _ => ⟨0, (hglobal x).trans (if_pos (List.mem_map_of_mem hy)), le_rfl⟩⟩

def inside (frame : Frame) (called : Variable) (callee : UnitCfg) (returnLabel : ℤ) (c : Context) :
    Context :=
  { c with callStack := ⟨callee, frame.scope ++ "." ++ called.name, returnLabel⟩ :: c.callStack }

/-- A call applies the summaries that were found, or enters the callee where there is none. -/
theorem visitCall_edges {ex : Executor} {called : Variable} {successors : Successors}
    (h : ex.visitCall frame called versions c = .ok (versions', successors)) :
    ∃ typeName callee returnEdge callEdge summaries, called.dataType = .derivedType typeName ∧
      ex.getCfg typeName = some callee ∧
      frame.cfg.getIntraproceduralCallToReturnEdge c.state.vertex.label = .ok returnEdge ∧
      frame.cfg.getInterproceduralCallEdge c.state.vertex.label = .ok callEdge ∧
      ex.findApplicableSummaries (inside frame called callee returnEdge.targetLabel c) =
        .ok summaries ∧
      ((summaries = [] ∧ versions' = versions ∧ ∃ next,
          callee.getVertex callEdge.targetLabel = .ok next ∧
          successors = ⟨[moveTo next (inside frame called callee returnEdge.targetLabel c)], none⟩) ∨
        (summaries ≠ [] ∧ ∃ next cs, frame.cfg.getVertex returnEdge.targetLabel = .ok next ∧
          applySummaries next c.callStack (inside frame called callee returnEdge.targetLabel c)
            summaries versions = .ok (versions', cs) ∧ successors = ⟨cs, none⟩)) := by
  obtain ⟨returnEdge, hreturn, h⟩ := bind_eq_ok h
  obtain ⟨callEdge, hcall, h⟩ := bind_eq_ok h
  split at h
  · rename_i typeName hdata
    split at h
    · cases h
    · rename_i callee hcallee
      obtain ⟨summaries, hsummaries, h⟩ := bind_eq_ok h
      refine ⟨typeName, callee, returnEdge, callEdge, summaries, hdata, hcallee, hreturn, hcall,
        hsummaries, ?_⟩
      split_ifs at h with hempty
      · obtain ⟨next, hnext, h⟩ := bind_eq_ok h
        cases h
        exact Or.inl ⟨List.isEmpty_iff.mp hempty, rfl, next, hnext, rfl⟩
      · obtain ⟨next, hnext, h⟩ := bind_eq_ok h
        obtain ⟨⟨versions₁, cs⟩, happly, h⟩ := bind_eq_ok h
        cases h
        exact Or.inr ⟨fun hnil => hempty (List.isEmpty_iff.mpr hnil), next, cs, hnext, happly, rfl⟩
  · cases h

theorem visitCall_cases {ex : Executor} {called : Variable} {successors : Successors}
    (h : ex.visitCall frame called versions c = .ok (versions', successors)) :
    ∃ typeName callee edge summaries, called.dataType = .derivedType typeName ∧
      ex.getCfg typeName = some callee ∧
      edge ∈ frame.cfg.getOutgoingEdges c.state.vertex.label ∧
      edge.type = .intraproceduralCallToReturn ∧
      ex.findApplicableSummaries (inside frame called callee edge.targetLabel c) = .ok summaries ∧
      ((summaries = [] ∧ versions' = versions ∧ ∃ l next, callee.labelToVertex.find? l = some next ∧
          successors = ⟨[moveTo next (inside frame called callee edge.targetLabel c)], none⟩) ∨
        (summaries ≠ [] ∧ ∃ next cs, frame.cfg.labelToVertex.find? edge.targetLabel = some next ∧
          applySummaries next c.callStack (inside frame called callee edge.targetLabel c) summaries
            versions = .ok (versions', cs) ∧ successors = ⟨cs, none⟩)) := by
  obtain ⟨typeName, callee, returnEdge, callEdge, summaries, hdata, hcallee, hreturn, -, hsummaries,
    hor⟩ := visitCall_edges h
  obtain ⟨hmem, htype⟩ := getEdgeOfType_eq hreturn
  refine ⟨typeName, callee, returnEdge, summaries, hdata, hcallee, hmem, htype, hsummaries, ?_⟩
  rcases hor with ⟨hnil, hversions, next, hnext, hsuccessors⟩ | ⟨hne, next, cs, hnext, happly, hcs⟩
  · exact Or.inl ⟨hnil, hversions, _, next, getVertex_eq hnext, hsuccessors⟩
  · exact Or.inr ⟨hne, next, cs, getVertex_eq hnext, happly, hcs⟩

theorem applySummaries_returns {returnVertex : Vertex} {callStack : List Frame}
    {summaries : List Summary} {cs : List Context}
    (h : applySummaries returnVertex callStack c summaries versions = .ok (versions', cs)) :
    ∀ c' ∈ cs, c'.callStack = callStack ∧ c'.state.vertex = returnVertex := by
  induction summaries generalizing versions cs with
  | nil =>
    cases h
    exact fun _ h => absurd h List.not_mem_nil
  | cons summary summaries ih =>
    obtain ⟨⟨versions₁, c₁⟩, -, h⟩ := bind_eq_ok h
    obtain ⟨⟨versions₂, cs₂⟩, h₂, h⟩ := bind_eq_ok h
    cases h
    intro c' hc'
    rcases List.mem_cons.mp hc' with rfl | hc'
    · exact ⟨rfl, rfl⟩
    · exact ih h₂ c' hc'

theorem handleFunctionBlockExitVertex_returns (h : handleFunctionBlockExitVertex frame c = .ok c') :
    ∃ callee caller callers next, c.callStack = callee :: caller :: callers ∧
      caller.cfg.labelToVertex.find? frame.returnLabel = some next ∧
      c' = { moveTo next c with callStack := caller :: callers } := by
  unfold handleFunctionBlockExitVertex at h
  split at h
  · rename_i callee caller callers hcallers
    obtain ⟨next, hnext, h⟩ := bind_eq_ok h
    cases h
    exact ⟨callee, caller, callers, next, hcallers, getVertex_eq hnext, rfl⟩
  · cases h

/-- What one execution of a context does, by the kind of its vertex. -/
inductive Executes (ex : Executor) (frame : Frame) (versions : Versions) (c : Context) :
    Versions → Successors → Prop where
  | move {next : Vertex} (hkind : c.state.vertex.type = .entry ∨
        (c.state.vertex.type = .regular ∧ c.state.vertex.instruction = none))
      (hnext : frame.cfg.getOnlySuccessor c.state.vertex.label = .ok next) :
      Executes ex frame versions c versions ⟨[moveTo next c], none⟩
  | assignment {type : AssignmentType} {r : VariableReference} {e : Expression}
      {versions' : Versions} {c' : Context} (htype : c.state.vertex.type = .regular)
      (hinstruction : c.state.vertex.instruction = some (.assignmentInstruction type r e))
      (h : ex.visitAssignment frame r e versions c = .ok (versions', c')) :
      Executes ex frame versions c versions' ⟨[c'], none⟩
  | call {called : Variable} {t₁ t₂ : ℤ} {versions' : Versions} {successors : Successors}
      (htype : c.state.vertex.type = .regular)
      (hinstruction : c.state.vertex.instruction = some (.callInstruction called t₁ t₂))
      (h : ex.visitCall frame called versions c = .ok (versions', successors)) :
      Executes ex frame versions c versions' successors
  | branch {e : Expression} {t₁ t₂ : ℤ} {successors : Successors}
      (htype : c.state.vertex.type = .regular)
      (hinstruction : c.state.vertex.instruction = some (.ifInstruction e t₁ t₂))
      (h : ex.visitIf frame e c = .ok successors) :
      Executes ex frame versions c versions successors
  | programExit {versions' : Versions} {c' : Context} (htype : c.state.vertex.type = .exit)
      (h : ex.handleProgramExitVertex frame versions c = .ok (versions', c')) :
      Executes ex frame versions c versions' ⟨[c'], none⟩
  | functionBlockExit {c' : Context} (htype : c.state.vertex.type = .exit)
      (h : handleFunctionBlockExitVertex frame c = .ok c') :
      Executes ex frame versions c versions ⟨[c'], none⟩

theorem execute_cases {ex : Executor} {successors : Successors}
    (h : ex.execute versions c = .ok (versions', successors)) :
    ∃ frame frames, c.callStack = frame :: frames ∧
      Executes ex frame versions c versions' successors := by
  obtain ⟨frame, hframe, h⟩ := bind_eq_ok h
  obtain ⟨frames, hstack⟩ : ∃ frames, c.callStack = frame :: frames := by
    unfold Context.getFrame at hframe
    split at hframe
    · cases hframe
      exact ⟨_, by assumption⟩
    · cases hframe
  refine ⟨frame, frames, hstack, ?_⟩
  split at h
  · rename_i htype
    obtain ⟨c₁, hc₁, h⟩ := bind_eq_ok h
    cases h
    unfold handleEntryVertex at hc₁
    split at hc₁
    · cases hc₁
    · obtain ⟨next, hnext, hc₁⟩ := bind_eq_ok hc₁
      cases hc₁
      exact .move (Or.inl htype) hnext
  · rename_i htype
    split at h
    · rename_i hinstruction
      obtain ⟨c₁, hc₁, h⟩ := bind_eq_ok h
      cases h
      obtain ⟨next, hnext, hc₁⟩ := bind_eq_ok hc₁
      cases hc₁
      exact .move (Or.inr ⟨htype, hinstruction⟩) hnext
    · rename_i hinstruction
      obtain ⟨⟨versions₁, c₁⟩, hc₁, h⟩ := bind_eq_ok h
      cases h
      exact .assignment htype hinstruction hc₁
    · rename_i hinstruction
      exact .call htype hinstruction h
    · rename_i hinstruction
      obtain ⟨successors₁, hsuccessors, h⟩ := bind_eq_ok h
      cases h
      exact .branch htype hinstruction hsuccessors
    · cases h
    · cases h
    · cases h
  · rename_i htype
    split at h
    · obtain ⟨⟨versions₁, c₁⟩, hc₁, h⟩ := bind_eq_ok h
      cases h
      exact .programExit htype hc₁
    · obtain ⟨c₁, hc₁, h⟩ := bind_eq_ok h
      cases h
      exact .functionBlockExit htype hc₁
    · cases h

end Executor

end Ahorn.Etfa
