import Ahorn.BasicBlockRuns

set_option autoImplicit false

/-!
# Calls in graphs of basic blocks

The pass looks a return edge up by the label it leads to. So a call has its own return edge behind
the pass exactly if the first edge back to its return label is fit for it.
-/
namespace Ahorn

/-- The return edges that belong to a call in the block of a leader. -/
def BlockCfg.returnEdgesOf (cfg : BlockCfg) (leader : ℤ) : List Edge :=
  cfg.edges.filter fun e => e.type = .interproceduralReturn ∧ e.callLabel = some leader

/-- Each call has one return edge, from the exit of its callee to where it returns. -/
def CallUnit.Paired (u : CallUnit BlockCfg) : Prop :=
  ∀ b v, u.graph.labelToVertex.find? b = some v → ∀ w intra inter,
    .callInstruction w intra inter ∈ v.instructions →
    ∃ callee ∈ u.callees, callee.entryLabel = inter ∧ u.graph.returnEdgesOf b =
      [⟨callee.exitLabel, intra, some u.name, some b, .interproceduralReturn⟩]

namespace CallUnit

open BasicBlockPass

/-- The first return edge behind the call at the end of a block is that of the call, if it is the
leader, and else at least that of a call of the same callee. -/
def returnsOwn (u : CallUnit Cfg) (s : OrderedMap ℤ Unit) (leader : ℤ) : Bool :=
  match u.graph.instruction? (blockLast u.graph s leader) with
  | some (.callInstruction _ intra inter) =>
    match u.graph.getInterproceduralReturnEdge intra with
    | .ok e =>
      if blockLast u.graph s leader = leader then e.callLabel == some leader
      else u.callees.any fun g => g.entryLabel == inter && g.exitLabel == e.sourceLabel
    | .error _ => true
  | _ => true

def returnsApart (u : CallUnit Cfg) : Bool :=
  match leaders u.graph with
  | .ok s => s.keys.all (u.returnsOwn s)
  | .error _ => true

namespace BuiltFrom

variable {u : CallUnit Cfg} {M : Module} {exitLabels : String → Option ℤ}

section Pairing

variable (h : u.BuiltFrom M exitLabels) {s : OrderedMap ℤ Unit} (hs : leaders u.graph = .ok s)
include h

theorem returnEdge_cases {e : Edge} (he : e ∈ u.graph.edges)
    (htype : e.type = .interproceduralReturn) : ∃ l w inter, ∃ callee ∈ u.callees,
      M.labelToInstruction.find? l = some (.callInstruction w e.targetLabel inter) ∧
      callee.entryLabel = inter ∧
      e = ⟨callee.exitLabel, e.targetLabel, some u.name, some l, .interproceduralReturn⟩ := by
  rcases h.edge_cases he with rfl | ⟨l, i, t, -, -, -, rfl⟩ | ⟨l, c, t, x, -, he⟩ |
    ⟨l, w, intra, inter, callee, hcallee, hi, hentry, he⟩
  · cases htype
  · cases htype
  · rcases he with rfl | rfl <;> cases htype
  · simp only [callEdges, List.mem_cons, List.not_mem_nil, or_false] at he
    rcases he with rfl | rfl | rfl
    · cases htype
    · cases htype
    · exact ⟨l, w, inter, callee, hcallee, hi, hentry, rfl⟩

theorem find?_of_instruction? {l : ℤ} {i : Instruction} (hi : u.graph.instruction? l = some i) :
    M.labelToInstruction.find? l = some i := by
  unfold Cfg.instruction? at hi
  obtain ⟨v, hv, hvi⟩ := Option.bind_eq_some_iff.mp hi
  rcases (h.graph.vertex_iff h.closed).mp hv with ⟨-, rfl⟩ | ⟨-, rfl⟩ | ⟨j, hj, -, rfl⟩
  · cases hvi
  · cases hvi
  · cases hvi
    exact hj

theorem returnEdge_ok {l : ℤ} {w : Variable} {intra inter : ℤ}
    (hi : u.graph.instruction? l = some (.callInstruction w intra inter)) :
    ∃ l₀ w₀ inter₀, ∃ callee ∈ u.callees,
      M.labelToInstruction.find? l₀ = some (.callInstruction w₀ intra inter₀) ∧
      callee.entryLabel = inter₀ ∧ u.graph.getInterproceduralReturnEdge intra =
        .ok ⟨callee.exitLabel, intra, some u.name, some l₀, .interproceduralReturn⟩ := by
  obtain ⟨e, he, hok, rfl, htype⟩ := h.getInterproceduralReturnEdge_ok (h.find?_of_instruction? hi)
  obtain ⟨l₀, w₀, inter₀, callee, hcallee, hi₀, hentry, heq⟩ := h.returnEdge_cases he htype
  exact ⟨l₀, w₀, inter₀, callee, hcallee, hi₀, hentry, by rw [hok, heq]⟩

include hs

theorem blockLast_of_call {b : ℤ} (hb : s.find? b = some ()) {w : Variable} {intra inter : ℤ}
    (hmem : .callInstruction w intra inter ∈
      (blockLabels u.graph s b).filterMap u.graph.instruction?) :
    u.graph.instruction? (blockLast u.graph s b) = some (.callInstruction w intra inter) := by
  obtain ⟨l, hl, hi⟩ := List.mem_filterMap.mp hmem
  obtain ⟨pre, suf, heq⟩ := List.append_of_mem hl
  cases suf with
  | nil =>
    rw [blockLast_eq heq]
    exact hi
  | cons c suf =>
    have hf := (h.isBlock hs hb).next heq
    obtain ⟨j, hj, hwrite⟩ := h.closed.preceded hf.1
    rw [add_sub_cancel_right, h.find?_of_instruction? hi] at hj
    cases hj
    cases hwrite

omit h hs in
theorem filter_blockEdges (b c : ℤ) : ((blockEdges u.graph s c).filter fun e =>
    e.type = .interproceduralReturn ∧ e.callLabel = some b) =
      (returnEdges u.graph c (blockLast u.graph s c)).filter (·.callLabel = some b) := by
  unfold blockEdges
  rw [List.filter_append, List.filter_eq_nil_iff.mpr, List.nil_append]
  · apply List.filter_congr
    intro e he
    have htype : e.type = .interproceduralReturn := by
      unfold returnEdges at he
      split at he
      · split at he
        · rw [List.mem_singleton.mp he]
        · cases he
      · cases he
    simp [htype]
  · intro e he
    obtain ⟨e₀, -, rfl⟩ := List.mem_map.mp he
    simp

omit h hs in
theorem returnEdges_call {b : ℤ} {w : Variable} {intra inter : ℤ}
    (hi : u.graph.instruction? (blockLast u.graph s b) = some (.callInstruction w intra inter))
    {e : Edge} (he : u.graph.getInterproceduralReturnEdge intra = .ok e) :
    returnEdges u.graph b (blockLast u.graph s b) =
      [⟨e.sourceLabel, e.targetLabel, e.callerName,
        if blockLast u.graph s b = b then e.callLabel else some b, .interproceduralReturn⟩] := by
  unfold returnEdges
  simp only [hi, he]

omit h hs in
theorem call_of_returnEdges {b : ℤ} {e : Edge}
    (he : e ∈ returnEdges u.graph b (blockLast u.graph s b)) : ∃ w intra inter,
      u.graph.instruction? (blockLast u.graph s b) = some (.callInstruction w intra inter) := by
  unfold returnEdges at he
  cases hi : u.graph.instruction? (blockLast u.graph s b) with
  | none =>
    rw [hi] at he
    cases he
  | some i =>
    rw [hi] at he
    cases i <;> first | cases he | exact ⟨_, _, _, rfl⟩

omit h hs in
theorem returnsOwn_call {b : ℤ} {w : Variable} {intra inter : ℤ}
    (hi : u.graph.instruction? (blockLast u.graph s b) = some (.callInstruction w intra inter))
    {e : Edge} (he : u.graph.getInterproceduralReturnEdge intra = .ok e) :
    u.returnsOwn s b = true ↔ if blockLast u.graph s b = b then e.callLabel = some b
      else ∃ g ∈ u.callees, g.entryLabel = inter ∧ g.exitLabel = e.sourceLabel := by
  unfold returnsOwn
  simp only [hi, he]
  split_ifs <;> simp

omit hs in
theorem returnEdges_other {b c : ℤ} (hne : c ≠ b) (hown : u.returnsOwn s c = true) :
    (returnEdges u.graph c (blockLast u.graph s c)).filter (·.callLabel = some b) = [] := by
  apply List.filter_eq_nil_iff.mpr
  intro e he
  obtain ⟨w, intra, inter, hi⟩ := call_of_returnEdges he
  obtain ⟨l₀, w₀, inter₀, callee, -, -, -, hok⟩ := h.returnEdge_ok hi
  rw [returnEdges_call hi hok] at he
  rw [returnsOwn_call hi hok] at hown
  rw [List.mem_singleton.mp he]
  split_ifs at hown with hlast
  · rw [if_pos hlast, hown]
    simp [hne]
  · rw [if_neg hlast]
    simp [hne]

/-- The calls are paired exactly if the edges found are fit. -/
theorem paired_iff {u' : CallUnit BlockCfg} (hname : u'.name = u.name)
    (hcallees : List.Forall₂ (fun (g : Cfg) (g' : BlockCfg) => g'.entryLabel = g.entryLabel ∧
      g'.exitLabel = g.exitLabel) u.callees u'.callees)
    (hedges : u'.graph.edges = s.keys.flatMap (blockEdges u.graph s))
    (hvertex : ∀ l, u'.graph.labelToVertex.find? l =
      if s.find? l = some () then some (blockVertex u.graph s l) else none) :
    u'.Paired ↔ ∀ b ∈ s.keys, u.returnsOwn s b = true := by
  have hof : ∀ b, u'.graph.returnEdgesOf b = s.keys.flatMap fun c =>
      (returnEdges u.graph c (blockLast u.graph s c)).filter (·.callLabel = some b) := by
    intro b
    unfold BlockCfg.returnEdgesOf
    rw [hedges, List.filter_flatMap]
    congr 1
    funext c
    exact filter_blockEdges b c
  constructor
  · intro hpaired b hb
    rw [mem_keys] at hb
    cases hi : u.graph.instruction? (blockLast u.graph s b) with
    | none =>
      unfold returnsOwn
      rw [hi]
    | some i =>
      by_cases hcall : ∃ w intra inter, i = .callInstruction w intra inter
      · obtain ⟨w, intra, inter, rfl⟩ := hcall
        obtain ⟨l₀, w₀, inter₀, callee, hcallee, hi₀, hentry, hok⟩ := h.returnEdge_ok hi
        have hv : u'.graph.labelToVertex.find? b = some (blockVertex u.graph s b) := by
          rw [hvertex, if_pos hb]
        have hmem : .callInstruction w intra inter ∈ (blockVertex u.graph s b).instructions := by
          rw [BlockVertex.instructions_blockVertex]
          refine List.mem_filterMap.mpr ⟨_, ?_, hi⟩
          obtain ⟨rest, hblock⟩ := (h.isBlock hs hb).begins
          unfold blockLast
          rw [hblock, List.getLastD_eq_getLast?, List.getLast?_eq_some_getLast (by simp)]
          exact List.getLast_mem _
        obtain ⟨callee', hcallee', hentry', hreturn⟩ := hpaired b _ hv w intra inter hmem
        rw [returnsOwn_call hi hok]
        split_ifs with hlast
        · -- the edge of a leader is copied, so some block has found the edge of this very call
          have hedge : (⟨callee'.exitLabel, intra, some u'.name, some b, .interproceduralReturn⟩ :
              Edge) ∈ u'.graph.returnEdgesOf b := by
            rw [hreturn]
            exact List.mem_cons_self
          rw [hof] at hedge
          obtain ⟨c, hc, hedge⟩ := List.mem_flatMap.mp hedge
          obtain ⟨hedge, -⟩ := List.mem_filter.mp hedge
          obtain ⟨w₁, intra₁, inter₁, hi₁⟩ := call_of_returnEdges hedge
          obtain ⟨l₁, -, -, callee₁, -, -, -, hok₁⟩ := h.returnEdge_ok hi₁
          rw [returnEdges_call hi₁ hok₁, List.mem_singleton, Edge.mk.injEq] at hedge
          obtain ⟨-, rfl, -, hlabel, -⟩ := hedge
          rw [hok] at hok₁
          have hl : some l₀ = some l₁ := congrArg Edge.callLabel (Except.ok.inj hok₁)
          split_ifs at hlabel with hlast₁
          · exact hl.trans hlabel.symm
          · cases hlabel
            exact absurd hlast hlast₁
        · have hedge : (⟨callee.exitLabel, intra, some u.name, some b, .interproceduralReturn⟩ :
              Edge) ∈ u'.graph.returnEdgesOf b := by
            rw [hof]
            refine List.mem_flatMap.mpr ⟨b, mem_keys.mpr hb, List.mem_filter.mpr ⟨?_, by simp⟩⟩
            rw [returnEdges_call hi hok, if_neg hlast]
            exact List.mem_cons_self
          rw [hreturn, List.mem_singleton, Edge.mk.injEq] at hedge
          obtain ⟨g, hg, hgentry, hgexit⟩ := exists_of_forall₂ hcallees.flip hcallee'
          exact ⟨g, hg, hgentry ▸ hentry', by rw [← hgexit]; exact hedge.1.symm⟩
      · unfold returnsOwn
        rw [hi]
        cases i <;> first | rfl | exact absurd ⟨_, _, _, rfl⟩ hcall
  · intro hown b v hv w intra inter hmem
    rw [hvertex] at hv
    split_ifs at hv with hb
    cases hv
    rw [BlockVertex.instructions_blockVertex] at hmem
    have hi := h.blockLast_of_call hs hb hmem
    obtain ⟨l₀, w₀, inter₀, callee, hcallee, hi₀, hentry, hok⟩ := h.returnEdge_ok hi
    have hedge := returnEdges_call hi hok
    have hfit := (returnsOwn_call hi hok).mp (hown b (mem_keys.mpr hb))
    have hreturn : u'.graph.returnEdgesOf b =
        (returnEdges u.graph b (blockLast u.graph s b)).filter (·.callLabel = some b) := by
      rw [hof]
      unfold OrderedMap.keys
      rw [List.flatMap_map]
      refine flatMap_eq_of_key s.sorted ((OrderedMap.find?_eq_some_iff _ _ _).mp hb) _ ?_
      intro x hx hne
      exact h.returnEdges_other hne (hown x.1 (List.mem_map_of_mem hx))
    rw [hreturn, hedge, hname]
    split_ifs at hfit ⊢ with hlast
    · obtain ⟨g, hg, hgentry, hgexit⟩ := exists_of_forall₂ hcallees hcallee
      have hl : l₀ = b := Option.some.inj hfit
      subst hl
      rw [hlast] at hi
      have hsame := h.find?_of_instruction? hi
      rw [hi₀] at hsame
      cases hsame
      refine ⟨g, hg, hgentry.trans hentry, ?_⟩
      rw [hgexit]
      simp
    · obtain ⟨g, hg, hgentry, hgexit⟩ := hfit
      obtain ⟨g', hg', hgentry', hgexit'⟩ := exists_of_forall₂ hcallees hg
      refine ⟨g', hg', hgentry'.trans hgentry, ?_⟩
      rw [hgexit', hgexit]
      simp

end Pairing

end BuiltFrom

end CallUnit

namespace BasicBlockPass

theorem transform_labels {cfg : Cfg} {cfg' : BlockCfg} (h : transform cfg = .ok cfg') :
    cfg'.entryLabel = cfg.entryLabel ∧ cfg'.exitLabel = cfg.exitLabel := by
  unfold transform at h
  obtain ⟨s, -, h⟩ := bind_eq_ok h
  obtain ⟨blocks, -, h⟩ := bind_eq_ok h
  cases h
  exact ⟨rfl, rfl⟩

theorem apply_eq_ok {t : CallTree Cfg} {t' : CallTree BlockCfg} (h : apply t = .ok t') :
    ∃ r, t.apply (fun cfg (_ : Unit) => (transform cfg).map fun cfg' => (cfg', ())) () = .ok r ∧
      r.1 = t' := by
  unfold apply at h
  cases hr : t.apply (fun cfg (_ : Unit) => (transform cfg).map fun cfg' => (cfg', ())) () with
  | error e =>
    rw [hr] at h
    cases h
  | ok r =>
    rw [hr] at h
    cases h
    exact ⟨r, rfl, rfl⟩

theorem makes_transform {cfg : Cfg} {cfg' : BlockCfg}
    (h : Makes (fun cfg (_ : Unit) => (transform cfg).map fun cfg' => (cfg', ())) cfg cfg') :
    transform cfg = .ok cfg' := by
  obtain ⟨s, s', h⟩ := h
  dsimp only at h
  cases hok : transform cfg with
  | error e =>
    rw [hok] at h
    cases h
  | ok g =>
    rw [hok] at h
    cases h
    rfl

/-- The calls of every unit are paired behind the pass exactly if, for every call, the first return
edge to its return label is fit for it. -/
theorem apply_paired_iff (t : CallTree Cfg) (h : t.Built) :
    (∃ t', apply t = .ok t' ∧ ∀ u ∈ t'.units, u.Paired) ↔
      ∀ u ∈ t.units, u.returnsApart = true := by
  have hunit : ∀ {u : CallUnit Cfg} {u' : CallUnit BlockCfg}, u ∈ t.units → u'.name = u.name →
      transform u.graph = .ok u'.graph →
      List.Forall₂ (fun cfg cfg' => transform cfg = .ok cfg') u.callees u'.callees →
      (u'.Paired ↔ u.returnsApart = true) := by
    intro u u' hu hname hok hcallees
    obtain ⟨M, exitLabels, hbuilt⟩ := h u hu
    obtain ⟨s, hs, -⟩ := hbuilt.leaders_ok
    obtain ⟨cfg', hok', -, -, hedges, hvertex⟩ := hbuilt.transform_eq hs
    rw [hok] at hok'
    cases hok'
    rw [hbuilt.paired_iff hs hname (hcallees.imp fun _ _ => transform_labels) hedges hvertex]
    unfold CallUnit.returnsApart
    simp only [hs, List.all_eq_true]
  have hunits : ∀ {t'}, apply t = .ok t' → List.Forall₂ (fun (u : CallUnit Cfg)
      (u' : CallUnit BlockCfg) => u'.name = u.name ∧ transform u.graph = .ok u'.graph ∧
        List.Forall₂ (fun cfg cfg' => transform cfg = .ok cfg') u.callees u'.callees)
      t.units t'.units := by
    intro t' hok
    obtain ⟨r, hr, rfl⟩ := apply_eq_ok hok
    refine (t.apply_visits () _ r.2 hr).1.made.imp ?_
    rintro u u' ⟨hname, hmakes, hcallees⟩
    exact ⟨hname, makes_transform hmakes, hcallees.imp fun _ _ => makes_transform⟩
  obtain ⟨t', hok, -⟩ := apply_ok h
  have hforall := hunits hok
  constructor
  · rintro ⟨t'', hok', hpaired⟩ u hu
    rw [hok] at hok'
    cases hok'
    obtain ⟨u', hu', hname, hgraph, hcallees⟩ := exists_of_forall₂ hforall hu
    exact (hunit hu hname hgraph hcallees).mp (hpaired u' hu')
  · intro hapart
    refine ⟨t', hok, ?_⟩
    intro u' hu'
    obtain ⟨u, hu, hname, hgraph, hcallees⟩ := exists_of_forall₂ hforall.flip hu'
    exact (hunit hu hname hgraph hcallees).mpr (hapart u hu)

section Calling

/-- `y := 1; f();` -/
def callingBody : StatementList :=
  .cons (.assignmentStatement (.variableAccess chosen) (.integerConstant 1))
    (.cons (.invocationStatement firstInstance [] []) .nil)

def callingInterface : Interface := .ofVariables [chosen, firstInstance] (by decide)

def calling : SourceProject where
  toProject := .ranked
    ((OrderedMap.empty.emplace "First" emptyInterface).emplace "Main" callingInterface)
    (fun name => if name = "Main" then 1 else 0) (by decide)
  bodyOf := fun name => if name = "Main" then callingBody else .nil
  declared := by
    intro name i hi v hv
    by_cases h : name = "Main"
    · subst h
      obtain rfl : callingInterface = i := Option.some.inj hi
      revert v
      decide
    · rw [if_neg h] at hv
      cases hv

def callingTree : Except String (CallTree Cfg) :=
  calling.compileModules 4 >>= fun c => calling.callTree c 4 "Main"

theorem callingTree_built {t : CallTree Cfg} (h : callingTree = .ok t) : t.Built := by
  obtain ⟨c, hc, ht⟩ := bind_eq_ok h
  exact SourceProject.compileModules_built hc ht

theorem callingTree_paired : ∃ t, callingTree = .ok t ∧
    ∃ t', apply t = .ok t' ∧ ∀ u ∈ t'.units, u.Paired :=
  ⟨_, rfl, (apply_paired_iff _ (callingTree_built rfl)).mpr (by decide)⟩

/-- The call in the ELSE part gets a copy of the return edge of the call before it. -/
theorem choosingTree_not_paired : ¬ ∃ t t', choosingTree = .ok t ∧ apply t = .ok t' ∧
    ∀ u ∈ t'.units, u.Paired := by
  rintro ⟨t, t', htree, hok, hpaired⟩
  have hboth : (choosingTree >>= apply) = .ok t' := by
    rw [htree]
    exact hok
  have hnone : ((choosingTree >>= apply).toOption.map fun t' => t'.root.returnEdgesOf 9) =
      some [] := by decide
  have hcall : ((choosingTree >>= apply).toOption.map fun t' =>
      (t'.root.labelToVertex.find? 9).map (·.instructions)) =
        some (some [.callInstruction secondInstance 10 2]) := by decide
  rw [hboth] at hnone hcall
  obtain ⟨v, hv, hinstructions⟩ := Option.map_eq_some_iff.mp (Option.some.inj hcall)
  obtain ⟨u, hu, hroot⟩ := t'.mem_units_of_callee.1
  rw [← hroot] at hv
  have hempty : u.graph.returnEdgesOf 9 = [] := by
    rw [hroot]
    exact Option.some.inj hnone
  obtain ⟨callee, -, -, hreturn⟩ := hpaired u hu 9 v hv secondInstance 10 2 (by
    rw [hinstructions]
    exact List.mem_cons_self)
  rw [hempty] at hreturn
  cases hreturn

end Calling

end BasicBlockPass

end Ahorn
