import Ahorn.AcyclicGraphs
import Ahorn.ReuseMerger

set_option autoImplicit false

/-!
# Paths of assumption literals

After a change, the paths through the encoded unit are collected from the literal of the exit on, to
see which of them still need a summary. The literals form a graph; where it has no cycles, every path
from the entry to the exit is found, and found once.
-/
namespace Ahorn.Reuse

open AcyclicGraph
open Etfa (Frame)
open Relation (ReflTransGen TransGen)
open Summarization (State Context Versions literalName)

section Code

variable (st : State) (entryName : String)

/-- Follow a path back as long as there is only one literal in front of the current one. It ends at
the entry, or where several literals, or none, come first. -/
def followPath : ℕ → Term String .bool → List (Term String .bool) →
    Except String (List (Term String .bool) × Option (List (Term String .bool)))
  | 0, _, _ => .error "out of fuel"
  | fuel + 1, current, path =>
    if literalText current = entryName then .ok (current :: path, none)
    else do
      match ← st.getAssumptionLiterals (literalText current) with
      | [preceding] => followPath fuel preceding (current :: path)
      | preceding => .ok (current :: path, some preceding)

/-- Close the open paths, the last one first. A path stands with its first literal in front, and an
open one is held as that literal and what comes behind it. -/
def closePaths (fuel : ℕ) : ℕ → List (Term String .bool × List (Term String .bool)) →
    List (List (Term String .bool)) → Except String (List (List (Term String .bool)))
  | _, [], closedPaths => .ok closedPaths
  | 0, _ :: _, _ => .error "out of fuel"
  | n + 1, (current, path) :: openPaths, closedPaths => do
    let (path, preceding?) ← followPath st entryName fuel current path
    match preceding? with
    | none => closePaths fuel n openPaths (closedPaths ++ [path])
    | some preceding =>
      closePaths fuel n ((preceding.map fun p => (p, path)).reverse ++ openPaths) closedPaths

end Code

def determineAssumptionLiteralPaths (fuel : ℕ) (c : Context) :
    Except String (List (List (Term String .bool))) := do
  let frame ← c.getFrame
  let assumptionLiteral := Term.constant .bool c.state.assumptionLiteral
  let preceding ← c.state.getAssumptionLiterals c.state.assumptionLiteral
  let closedPaths ← closePaths c.state (literalName frame.scope frame.cfg.entryLabel) fuel fuel
    (preceding.map fun p => (p, [assumptionLiteral])).reverse []
  if closedPaths = [] then .error "assertion failed" else .ok closedPaths

section Graph

variable {m m' m₁ m₂ : OrderedMap String (List (Term String .bool))}
variable {first l : String} {a b p : Term String .bool}

def literalsAt (m : OrderedMap String (List (Term String .bool))) (literal : String) :
    List (Term String .bool) :=
  (m.find? literal).getD []

/-- One literal stands in front of another one. -/
def Leads (m : OrderedMap String (List (Term String .bool))) (a b : Term String .bool) : Prop :=
  a ∈ literalsAt m (literalText b)

theorem literalsAt_eq {ps : List (Term String .bool)} (h : m.find? l = some ps) :
    literalsAt m l = ps := by
  unfold literalsAt
  rw [h]
  rfl

/-- All literals can be reached from the first one, the only one with the truth value in front. -/
structure LiteralGraph (first : String) (m : OrderedMap String (List (Term String .bool))) :
    Prop where
  isKey : (m.find? first).isSome
  nodup : ∀ l, (literalsAt m l).Nodup
  closed : ∀ l, ∀ p ∈ literalsAt m l,
    (∃ n, p = .constant .bool n ∧ (m.find? n).isSome) ∨ l = first ∧ p = .booleanValue true
  reachable : ∀ l, (m.find? l).isSome →
    ReflTransGen (Leads m) (.constant .bool first) (.constant .bool l)

theorem unite_eq (ps : List (Term String .bool)) (p : Term String .bool) :
    Merger.unite ps p = if p ∈ ps then ps else ps ++ [p] := by
  unfold Merger.unite
  simp only [List.contains_iff_mem]

theorem mem_unite {ps : List (Term String .bool)} :
    a ∈ Merger.unite ps p ↔ a ∈ ps ∨ a = p := by
  rw [unite_eq]
  split_ifs with hp
  · rw [or_iff_left_of_imp]
    rintro rfl
    exact hp
  · rw [List.mem_append, List.mem_singleton]

theorem nodup_unite {ps : List (Term String .bool)} (h : ps.Nodup) :
    (Merger.unite ps p).Nodup := by
  rw [unite_eq]
  split_ifs with hp
  · exact h
  · exact List.nodup_append.mpr ⟨h, List.nodup_singleton p, fun x hx y hy =>
      List.mem_singleton.mp hy ▸ fun heq => hp (heq ▸ hx)⟩

/-- A graph grows by a literal behind one that is there. -/
theorem LiteralGraph.push (h : LiteralGraph first m) {n : String} (hn : (m.find? n).isSome)
    (hm' : ∀ k, m'.find? k =
      if k = l then some (Merger.unite (literalsAt m l) (.constant .bool n)) else m.find? k) :
    LiteralGraph first m' := by
  have hat : ∀ k, literalsAt m' k =
      if k = l then Merger.unite (literalsAt m l) (.constant .bool n) else literalsAt m k := by
    intro k
    unfold literalsAt
    rw [hm']
    split_ifs <;> rfl
  have hkey : ∀ k, (m.find? k).isSome → (m'.find? k).isSome := by
    intro k hk
    rw [hm']
    split_ifs
    · rfl
    · exact hk
  have hleads : ∀ a b, Leads m a b → Leads m' a b := by
    intro a b hab
    unfold Leads at hab ⊢
    rw [hat]
    split_ifs with heq
    · exact mem_unite.mpr (Or.inl (heq ▸ hab))
    · exact hab
  refine ⟨hkey _ h.isKey, ?_, ?_, ?_⟩
  · intro k
    rw [hat]
    split_ifs
    · exact nodup_unite (h.nodup l)
    · exact h.nodup k
  · intro k p hp
    rw [hat] at hp
    split_ifs at hp with heq
    · subst heq
      rcases mem_unite.mp hp with hp | rfl
      · exact (h.closed k p hp).imp_left fun ⟨n, hp, hn⟩ => ⟨n, hp, hkey n hn⟩
      · exact Or.inl ⟨n, rfl, hkey n hn⟩
    · exact (h.closed k p hp).imp_left fun ⟨n, hp, hn⟩ => ⟨n, hp, hkey n hn⟩
  · intro k hk
    by_cases hold : (m.find? k).isSome
    · exact ReflTransGen.mono hleads _ _ (h.reachable k hold)
    · -- the literal is new
      have heq : k = l := by
        by_contra hne
        rw [hm', if_neg hne] at hk
        exact hold hk
      subst heq
      have hstep : Leads m' (.constant .bool n) (.constant .bool k) := by
        change _ ∈ literalsAt m' k
        rw [hat, if_pos rfl]
        exact mem_unite.mpr (Or.inr rfl)
      exact (ReflTransGen.mono hleads _ _ (h.reachable n hn)).tail hstep

theorem mem_foldl_unite {ps qs : List (Term String .bool)} :
    a ∈ qs.foldl Merger.unite ps ↔ a ∈ ps ∨ a ∈ qs := by
  induction qs generalizing ps with
  | nil => simp
  | cons q qs ih => rw [List.foldl_cons, ih, mem_unite, List.mem_cons, or_assoc]

theorem nodup_foldl_unite {ps qs : List (Term String .bool)} (h : ps.Nodup) :
    (qs.foldl Merger.unite ps).Nodup := by
  induction qs generalizing ps with
  | nil => exact h
  | cons q qs ih => exact ih (nodup_unite h)

theorem literalsAt_mergeLiterals (m : OrderedMap String (List (Term String .bool)))
    (entry : String × List (Term String .bool)) (k : String) :
    ((Merger.mergeLiterals m entry).find? k).isSome = ((m.find? k).isSome || k = entry.1) ∧
    (∀ a, a ∈ literalsAt (Merger.mergeLiterals m entry) k ↔
      a ∈ literalsAt m k ∨ k = entry.1 ∧ a ∈ entry.2) ∧
    ((literalsAt m k).Nodup → entry.2.Nodup → (literalsAt (Merger.mergeLiterals m entry) k).Nodup) := by
  unfold Merger.mergeLiterals literalsAt
  cases hfind : m.find? entry.1 with
  | none =>
    dsimp only
    rw [OrderedMap.find?_emplace]
    by_cases hk : k = entry.1
    · subst hk
      rw [if_pos rfl, hfind]
      simp
    · simp only [hk, if_false, false_and, or_false, decide_false, Bool.or_false]
      exact ⟨trivial, fun _ => trivial, fun h _ => h⟩
  | some literals =>
    dsimp only
    rw [OrderedMap.find?_assign]
    by_cases hk : k = entry.1
    · subst hk
      rw [if_pos rfl, hfind]
      simpa [mem_foldl_unite] using fun h _ => nodup_foldl_unite h
    · simp only [hk, if_false, false_and, or_false, decide_false, Bool.or_false]
      exact ⟨trivial, fun _ => trivial, fun h _ => h⟩

theorem literalsAt_foldl (entries : List (String × List (Term String .bool)))
    (m : OrderedMap String (List (Term String .bool))) (k : String) :
    (((entries.foldl Merger.mergeLiterals m).find? k).isSome = true ↔
      (m.find? k).isSome = true ∨ ∃ ps, (k, ps) ∈ entries) ∧
    (∀ a, a ∈ literalsAt (entries.foldl Merger.mergeLiterals m) k ↔
      a ∈ literalsAt m k ∨ ∃ ps, (k, ps) ∈ entries ∧ a ∈ ps) ∧
    ((literalsAt m k).Nodup → (∀ e ∈ entries, e.2.Nodup) →
      (literalsAt (entries.foldl Merger.mergeLiterals m) k).Nodup) := by
  induction entries generalizing m with
  | nil => simp
  | cons entry entries ih =>
    obtain ⟨hkey, hmem, hnodup⟩ := ih (Merger.mergeLiterals m entry)
    obtain ⟨hkey', hmem', hnodup'⟩ := literalsAt_mergeLiterals m entry k
    obtain ⟨n, ps⟩ := entry
    refine ⟨?_, ?_, ?_⟩
    · rw [List.foldl_cons, hkey, hkey', Bool.or_eq_true, decide_eq_true_eq, or_assoc]
      refine or_congr_right ⟨?_, ?_⟩
      · rintro (rfl | ⟨qs, hqs⟩)
        · exact ⟨ps, List.mem_cons_self⟩
        · exact ⟨qs, List.mem_cons_of_mem _ hqs⟩
      · rintro ⟨qs, hqs⟩
        rcases List.mem_cons.mp hqs with heq | hqs
        · exact Or.inl (congrArg Prod.fst heq)
        · exact Or.inr ⟨qs, hqs⟩
    · intro a
      rw [List.foldl_cons, hmem, hmem', or_assoc]
      refine or_congr_right ⟨?_, ?_⟩
      · rintro (⟨rfl, ha⟩ | ⟨qs, hqs, ha⟩)
        · exact ⟨ps, List.mem_cons_self, ha⟩
        · exact ⟨qs, List.mem_cons_of_mem _ hqs, ha⟩
      · rintro ⟨qs, hqs, ha⟩
        rcases List.mem_cons.mp hqs with heq | hqs
        · cases heq
          exact Or.inl ⟨rfl, ha⟩
        · exact Or.inr ⟨qs, hqs, ha⟩
    · intro hm hentries
      rw [List.forall_mem_cons] at hentries
      exact hnodup (hnodup' hm hentries.1) hentries.2

/-- The graphs of two contexts are united. -/
theorem LiteralGraph.merge (h₁ : LiteralGraph first m₁) (h₂ : LiteralGraph first m₂) :
    LiteralGraph first (m₂.entries.foldl Merger.mergeLiterals m₁) := by
  have hentries : ∀ k ps, (k, ps) ∈ m₂.entries ↔ m₂.find? k = some ps := fun k ps =>
    (OrderedMap.find?_eq_some_iff m₂ k ps).symm
  have hkey : ∀ k, ((m₂.entries.foldl Merger.mergeLiterals m₁).find? k).isSome = true ↔
      (m₁.find? k).isSome = true ∨ (m₂.find? k).isSome = true := by
    intro k
    rw [(literalsAt_foldl m₂.entries m₁ k).1, Option.isSome_iff_exists (x := m₂.find? k)]
    simp only [hentries]
  have hmem : ∀ k a, a ∈ literalsAt (m₂.entries.foldl Merger.mergeLiterals m₁) k ↔
      a ∈ literalsAt m₁ k ∨ a ∈ literalsAt m₂ k := by
    intro k a
    rw [(literalsAt_foldl m₂.entries m₁ k).2.1 a]
    simp only [hentries]
    unfold literalsAt
    cases m₂.find? k <;> simp
  constructor
  · exact (hkey first).mpr (Or.inl h₁.isKey)
  · intro k
    refine (literalsAt_foldl m₂.entries m₁ k).2.2 (h₁.nodup k) fun e he => ?_
    rw [← literalsAt_eq ((hentries e.1 e.2).mp he)]
    exact h₂.nodup e.1
  · intro k p hp
    rcases (hmem k p).mp hp with hp | hp
    · exact (h₁.closed k p hp).imp_left fun ⟨n, hp, hn⟩ => ⟨n, hp, (hkey n).mpr (Or.inl hn)⟩
    · exact (h₂.closed k p hp).imp_left fun ⟨n, hp, hn⟩ => ⟨n, hp, (hkey n).mpr (Or.inr hn)⟩
  · intro k hk
    rcases (hkey k).mp hk with hk | hk
    · exact ReflTransGen.mono (fun _ _ hab => (hmem _ _).mpr (Or.inl hab)) _ _ (h₁.reachable k hk)
    · exact ReflTransGen.mono (fun _ _ hab => (hmem _ _).mpr (Or.inr hab)) _ _ (h₂.reachable k hk)

end Graph

section Encoding

variable {simplifier : Simplifier String} {solver : Solver String} {old : Bool}
variable {frame callee : Frame} {versions versions' : Versions} {c c' c₁ c₂ : Context}
variable {st st' : State} {first literal : String}

/-- The contexts that come up while a unit is encoded, in whatever order they are taken and merged. -/
inductive Encoded (simplifier : Simplifier String) (solver : Solver String) (old : Bool)
    (frame callee : Frame) : Context → Prop
  | initial {c : Context} (h : Summarization.initialContext frame callee = .ok c) :
    Encoded simplifier solver old frame callee c
  | execute {versions versions' : Versions} {c c' : Context} {cs : List Context}
    (h : Encoded simplifier solver old frame callee c)
    (hexecute : (executor simplifier solver old).execute versions c = .ok (versions', cs))
    (hc' : c' ∈ cs) : Encoded simplifier solver old frame callee c'
  | merge {versions versions' : Versions} {c₁ c₂ c : Context}
    (h₁ : Encoded simplifier solver old frame callee c₁)
    (h₂ : Encoded simplifier solver old frame callee c₂)
    (hmerge : Merger.merge simplifier versions c₁ c₂ = .ok (versions', c)) :
    Encoded simplifier solver old frame callee c

/-- The current literal belongs to the graph, and there is a literal in front of it unless the
context has not left the entry. -/
structure Placed (first : String) (st : State) : Prop where
  graph : LiteralGraph first st.assumptionLiterals
  isKey : (st.assumptionLiterals.find? st.assumptionLiteral).isSome
  started : st.vertex.type = .entry ∨ ∃ n,
    Leads st.assumptionLiterals (.constant .bool n) (.constant .bool st.assumptionLiteral)

theorem Placed.of_eq (h : Placed first st) (hvertex : st'.vertex = st.vertex)
    (hliteral : st'.assumptionLiteral = st.assumptionLiteral)
    (hliterals : st'.assumptionLiterals = st.assumptionLiterals) : Placed first st' := by
  obtain ⟨hgraph, hkey, hstarted⟩ := h
  constructor
  · rwa [hliterals]
  · rwa [hliterals, hliteral]
  · rwa [hliterals, hliteral, hvertex]

theorem find?_pushAssumptionLiteral {p : Term String .bool}
    (h : st.pushAssumptionLiteral true literal p = .ok st') (k : String) :
    st'.assumptionLiterals.find? k =
      if k = literal then some (Merger.unite (literalsAt st.assumptionLiterals literal) p)
      else st.assumptionLiterals.find? k := by
  unfold State.pushAssumptionLiteral at h
  unfold literalsAt
  cases hfind : st.assumptionLiterals.find? literal with
  | none =>
    rw [hfind] at h
    cases h
    dsimp only
    rw [OrderedMap.find?_emplace, hfind]
    rfl
  | some existing =>
    rw [hfind] at h
    rw [unite_eq]
    rw [Option.getD_some]
    by_cases hp : p ∈ existing
    · rw [if_pos hp]
      simp only [if_true, if_pos hp] at h
      cases h
      by_cases hk : k = literal
      · rw [if_pos hk, hk, hfind]
      · rw [if_neg hk]
    · rw [if_neg hp]
      simp only [if_true, if_neg hp] at h
      cases h
      exact OrderedMap.find?_assign _ _ _ _

theorem Placed.push (h : Placed first st)
    (hst : st.pushAssumptionLiteral true literal (.constant .bool st.assumptionLiteral) = .ok st')
    {st'' : State} (hliteral : st''.assumptionLiteral = literal)
    (hliterals : st''.assumptionLiterals = st'.assumptionLiterals) : Placed first st'' := by
  have hfind := find?_pushAssumptionLiteral hst
  rw [← hliterals] at hfind
  have hself : st''.assumptionLiterals.find? literal = some (Merger.unite
      (literalsAt st.assumptionLiterals literal) (.constant .bool st.assumptionLiteral)) := by
    rw [hfind, if_pos rfl]
  constructor
  · exact h.graph.push h.isKey hfind
  · rw [hliteral, hself]
    rfl
  · refine Or.inr ⟨st.assumptionLiteral, ?_⟩
    rw [hliteral]
    change _ ∈ literalsAt st''.assumptionLiterals literal
    rw [literalsAt_eq hself]
    exact mem_unite.mpr (Or.inr rfl)

theorem Placed.enter (h : Placed first st) {vertex : Vertex}
    (hst : st.enter true literal vertex = .ok st') : Placed first st' := by
  obtain ⟨st₁, hpush, hst⟩ := bind_eq_ok hst
  cases hst
  exact h.push hpush rfl rfl

/-- What an encoded context has in common with the first one. -/
structure Encoding (frame callee : Frame) (c : Context) : Prop where
  callStack : c.callStack = [callee, frame]
  placed : Placed (literalName callee.scope callee.cfg.entryLabel) c.state

theorem Encoding.getFrame (h : Encoding frame callee c) : c.getFrame = .ok callee := by
  unfold Context.getFrame
  rw [h.callStack]

theorem Encoding.initial (h : Summarization.initialContext frame callee = .ok c)
    (hentry : ∀ v, callee.cfg.getVertex callee.cfg.entryLabel = .ok v → v.type = .entry) :
    Encoding frame callee c := by
  obtain ⟨v, hv, h⟩ := bind_eq_ok h
  cases h
  have hfind : ∀ k, (OrderedMap.empty.emplace
      (literalName callee.scope callee.cfg.entryLabel) [Term.booleanValue (N := String) true]).find? k =
      if k = literalName callee.scope callee.cfg.entryLabel then some [.booleanValue true]
      else none := fun k => OrderedMap.find?_emplace _ _ _ k
  refine ⟨rfl, ⟨?_, ?_, ?_, ?_⟩, ?_, Or.inl (hentry v hv)⟩
  · rw [hfind, if_pos rfl]
    rfl
  · intro l
    unfold literalsAt
    rw [hfind]
    split_ifs
    · exact List.nodup_singleton _
    · exact List.nodup_nil
  · intro l p hp
    unfold literalsAt at hp
    rw [hfind] at hp
    split_ifs at hp with heq
    · exact Or.inr ⟨heq, List.mem_singleton.mp hp⟩
    · cases hp
  · intro l hl
    rw [hfind] at hl
    split_ifs at hl with heq
    · exact heq ▸ .refl
    · cases hl
  · rw [hfind, if_pos rfl]
    rfl

theorem Encoding.enter (h : Encoding frame callee c) {vertex : Vertex}
    (hst : c.state.enter true literal vertex = .ok st) :
    Encoding frame callee { c with state := st } :=
  ⟨h.callStack, h.placed.enter hst⟩

theorem Encoding.write (h : Encoding frame callee c) {name : String} {version : ℕ}
    {encoded : SortedTerm String}
    (hc' : (executor simplifier solver old).write callee name version encoded versions c =
      .ok (versions', c')) : Encoding frame callee c' := by
  unfold Summarization.Executor.write at hc'
  obtain ⟨st, hst, hc'⟩ := bind_eq_ok hc'
  obtain ⟨edge, -, hc'⟩ := bind_eq_ok hc'
  obtain ⟨next, -, hc'⟩ := bind_eq_ok hc'
  obtain ⟨st', hst', hc'⟩ := bind_eq_ok hc'
  cases hc'
  have hplaced : Placed (literalName callee.scope callee.cfg.entryLabel) st := by
    unfold State.setVersion at hst
    split at hst
    · cases hst
      exact h.placed.of_eq rfl rfl rfl
    · cases hst
  obtain ⟨hvertex, hliteral, hliterals⟩ :=
    State.pushHardConstraint_eq st.assumptionLiteral (versioned name version) encoded st
  exact ⟨h.callStack, (hplaced.of_eq hvertex hliteral hliterals).enter hst'⟩

theorem Encoding.take (h : Encoding frame callee c) {literal : String} {vertex : Vertex}
    {side : Term String .bool}
    (hc' : (executor simplifier solver old).take literal vertex side c = .ok c') :
    Encoding frame callee c' := by
  unfold Summarization.Executor.take at hc'
  obtain ⟨st, hst, hc'⟩ := bind_eq_ok hc'
  cases hc'
  exact ⟨h.callStack, h.placed.push hst rfl (State.pushAssumption_eq side st)⟩

theorem Encoding.execute (h : Encoding frame callee c) {cs : List Context}
    (hcs : (executor simplifier solver old).execute versions c = .ok (versions', cs))
    (hc' : c' ∈ cs) : Encoding frame callee c' := by
  cases Summarization.Executor.execute_leads h.getFrame hcs hc' with
  | enter hst => exact h.enter hst
  | assign _ hwrite | havoc _ hwrite => exact h.write hwrite
  | take _ _ htake => exact h.take htake

theorem Encoding.merge (h₁ : Encoding frame callee c₁) (h₂ : Encoding frame callee c₂)
    (h : Merger.merge simplifier versions c₁ c₂ = .ok (versions', c)) :
    Encoding frame callee c := by
  unfold Merger.merge at h
  split_ifs at h with hne
  obtain ⟨merging, -, h⟩ := bind_eq_ok h
  obtain ⟨hardConstraints, -, h⟩ := bind_eq_ok h
  cases h
  rw [not_or, not_not, not_not] at hne
  have hgraph := h₁.placed.graph.merge h₂.placed.graph
  have hmem := fun k => literalsAt_foldl c₂.state.assumptionLiterals.entries
    c₁.state.assumptionLiterals k
  refine ⟨h₁.callStack, hgraph, ((hmem _).1).mpr (Or.inl h₁.placed.isKey), ?_⟩
  exact h₁.placed.started.imp_right fun ⟨n, hn⟩ => ⟨n, ((hmem _).2.1 _).mpr (Or.inl hn)⟩

theorem Encoded.encoding (h : Encoded simplifier solver old frame callee c)
    (hentry : ∀ v, callee.cfg.getVertex callee.cfg.entryLabel = .ok v → v.type = .entry) :
    Encoding frame callee c := by
  induction h with
  | initial h => exact .initial h hentry
  | execute _ hexecute hc' ih => exact ih.execute hexecute hc'
  | merge _ _ hmerge ih₁ ih₂ => exact ih₁.merge ih₂ hmerge

end Encoding

section Search

variable {st : State} {first n : String} {last : Term String .bool}
variable {path π : List (Term String .bool)}

noncomputable def literalDepth (st : State) (n : String) : ℕ :=
  depth (Leads st.assumptionLiterals) (st.assumptionLiterals.keys.map (.constant .bool))
    (.constant .bool n)

theorem mem_constants (hn : (st.assumptionLiterals.find? n).isSome) :
    Term.constant .bool n ∈ st.assumptionLiterals.keys.map (.constant .bool) :=
  List.mem_map_of_mem (OrderedMap.mem_keys_iff.mpr (Option.isSome_iff_exists.mp hn))

theorem literalDepth_lt (hacyclic : Acyclic (Leads st.assumptionLiterals)) {k : String}
    (hk : (st.assumptionLiterals.find? k).isSome)
    (h : Leads st.assumptionLiterals (.constant .bool k) (.constant .bool n)) :
    literalDepth st k < literalDepth st n :=
  depth_lt_depth hacyclic (mem_constants hk) h

theorem literalDepth_lt_length (hacyclic : Acyclic (Leads st.assumptionLiterals))
    (hn : (st.assumptionLiterals.find? n).isSome) :
    literalDepth st n < st.assumptionLiterals.entries.length := by
  have hlt := depth_lt_length hacyclic (mem_constants hn)
  rwa [List.length_map, OrderedMap.keys, List.length_map] at hlt

theorem LiteralGraph.exists_key (hgraph : LiteralGraph first st.assumptionLiterals)
    (hn : n ≠ first) {a : Term String .bool} (ha : a ∈ literalsAt st.assumptionLiterals n) :
    ∃ k, a = .constant .bool k ∧ (st.assumptionLiterals.find? k).isSome :=
  (hgraph.closed n a ha).resolve_right fun h => hn h.1

theorem followPath_first {fuel : ℕ} (hn : n = first) :
    followPath st first (fuel + 1) (.constant .bool n) path =
      .ok (.constant .bool n :: path, none) :=
  if_pos hn

theorem followPath_single {fuel : ℕ} {p : Term String .bool} (hn : n ≠ first)
    (hp : st.assumptionLiterals.find? n = some [p]) :
    followPath st first (fuel + 1) (.constant .bool n) path =
      followPath st first fuel p (.constant .bool n :: path) := by
  have hget : st.getAssumptionLiterals n = .ok [p] := by
    unfold State.getAssumptionLiterals
    rw [hp]
  rw [followPath, if_neg (show ¬ literalText (.constant .bool n) = first from hn)]
  change (st.getAssumptionLiterals n >>= _) = _
  rw [hget]
  rfl

theorem followPath_several {fuel : ℕ} {ps : List (Term String .bool)} (hn : n ≠ first)
    (hps : st.assumptionLiterals.find? n = some ps) (hseveral : ∀ p, ps ≠ [p]) :
    followPath st first (fuel + 1) (.constant .bool n) path =
      .ok (.constant .bool n :: path, some ps) := by
  have hget : st.getAssumptionLiterals n = .ok ps := by
    unfold State.getAssumptionLiterals
    rw [hps]
  rw [followPath, if_neg (show ¬ literalText (.constant .bool n) = first from hn)]
  change (st.getAssumptionLiterals n >>= _) = _
  rw [hget]
  cases ps with
  | nil => rfl
  | cons p rest =>
    cases rest with
    | nil => exact absurd rfl (hseveral p)
    | cons _ _ => rfl

theorem followPath_spec (hgraph : LiteralGraph first st.assumptionLiterals)
    (hacyclic : Acyclic (Leads st.assumptionLiterals))
    (hn : (st.assumptionLiterals.find? n).isSome)
    (hpath : IsPath (Leads st.assumptionLiterals) (.constant .bool n) last
      (.constant .bool n :: path)) :
    ∃ k rest, (∀ fuel, literalDepth st n < fuel → followPath st first fuel (.constant .bool n) path =
        .ok (.constant .bool k :: rest, if k = first then none else st.assumptionLiterals.find? k)) ∧
      (st.assumptionLiterals.find? k).isSome ∧ literalDepth st k ≤ literalDepth st n ∧
      IsPath (Leads st.assumptionLiterals) (.constant .bool k) last (.constant .bool k :: rest) ∧
      .constant .bool n :: path <:+ .constant .bool k :: rest ∧
      ∀ π, IsPath (Leads st.assumptionLiterals) (.constant .bool first) last π →
        .constant .bool n :: path <:+ π → .constant .bool k :: rest <:+ π := by
  induction hdepth : literalDepth st n using Nat.strong_induction_on generalizing n path with
  | _ d ih =>
    subst hdepth
    by_cases hfirst : n = first
    · refine ⟨n, path, fun fuel hfuel => ?_, hn, le_refl _, hpath, List.suffix_refl _,
        fun _ _ hs => hs⟩
      obtain ⟨j, rfl⟩ := Nat.exists_eq_add_of_lt hfuel
      rw [if_pos hfirst]
      exact followPath_first hfirst
    · obtain ⟨preceding, hfind⟩ := Option.isSome_iff_exists.mp hn
      by_cases hsingle : ∃ p, preceding = [p]
      · obtain ⟨p, rfl⟩ := hsingle
        have hmem : p ∈ literalsAt st.assumptionLiterals n := by
          rw [literalsAt_eq hfind]
          exact List.mem_singleton_self p
        obtain ⟨k, rfl, hk⟩ := hgraph.exists_key hfirst hmem
        have hleads : Leads st.assumptionLiterals (.constant .bool k) (.constant .bool n) := hmem
        have hlt := literalDepth_lt hacyclic hk hleads
        obtain ⟨k', rest, hfollow, hkey, hle, hrest, hsuffix, hall⟩ :=
          ih _ hlt hk (hpath.cons hleads) rfl
        refine ⟨k', rest, fun fuel hfuel => ?_, hkey, hle.trans hlt.le, hrest,
          (List.suffix_cons _ _).trans hsuffix, fun π hπ hs => hall π hπ ?_⟩
        · obtain ⟨j, rfl⟩ := Nat.exists_eq_add_of_lt hfuel
          rw [followPath_single hfirst hfind]
          exact hfollow _ (by omega)
        · obtain ⟨a, ha, hs⟩ := hπ.exists_suffix hs fun heq => hfirst (Term.constant.inj heq)
          change a ∈ literalsAt st.assumptionLiterals n at ha
          rw [literalsAt_eq hfind, List.mem_singleton] at ha
          exact ha ▸ hs
      · refine ⟨n, path, fun fuel hfuel => ?_, hn, le_refl _, hpath, List.suffix_refl _,
          fun _ _ hs => hs⟩
        obtain ⟨j, rfl⟩ := Nat.exists_eq_add_of_lt hfuel
        rw [if_neg hfirst, hfind]
        exact followPath_several hfirst hfind fun p hp => hsingle ⟨p, hp⟩

/-- The loop closes the open paths: in their place it adds all complete paths that end like one of
them, each once. -/
def Closes (st : State) (first : String) (last : Term String .bool)
    (openPaths : List (Term String .bool × List (Term String .bool)))
    (closed : List (List (Term String .bool))) : Prop :=
  (∃ n, ∀ fuel, st.assumptionLiterals.entries.length ≤ fuel → ∀ j others before,
    closePaths st first fuel (n + j) (openPaths ++ others) before =
      closePaths st first fuel j others (before ++ closed)) ∧
  closed.Nodup ∧ ∀ π, π ∈ closed ↔
    IsPath (Leads st.assumptionLiterals) (.constant .bool first) last π ∧
      ∃ x ∈ openPaths, x.1 :: x.2 <:+ π

theorem Closes.nil : Closes st first last [] [] := by
  refine ⟨⟨0, fun fuel _ j others before => ?_⟩, List.nodup_nil, fun π => ?_⟩
  · rw [Nat.zero_add, List.nil_append, List.append_nil]
  · simp

theorem Closes.append {p₁ p₂ : List (Term String .bool × List (Term String .bool))}
    {c₁ c₂ : List (List (Term String .bool))} (h₁ : Closes st first last p₁ c₁)
    (h₂ : Closes st first last p₂ c₂)
    (hdisjoint : ∀ x ∈ p₁, ∀ y ∈ p₂, ∀ π, x.1 :: x.2 <:+ π → ¬ y.1 :: y.2 <:+ π) :
    Closes st first last (p₁ ++ p₂) (c₁ ++ c₂) := by
  obtain ⟨⟨n₁, hrun₁⟩, hnodup₁, hmem₁⟩ := h₁
  obtain ⟨⟨n₂, hrun₂⟩, hnodup₂, hmem₂⟩ := h₂
  refine ⟨⟨n₁ + n₂, fun fuel hfuel j others before => ?_⟩, ?_, fun π => ?_⟩
  · rw [Nat.add_assoc, List.append_assoc, hrun₁ fuel hfuel, hrun₂ fuel hfuel, List.append_assoc]
  · refine List.nodup_append.mpr ⟨hnodup₁, hnodup₂, ?_⟩
    rintro π hπ₁ _ hπ₂ rfl
    obtain ⟨-, x, hx, hxs⟩ := (hmem₁ π).mp hπ₁
    obtain ⟨-, y, hy, hys⟩ := (hmem₂ π).mp hπ₂
    exact hdisjoint x hx y hy π hxs hys
  · rw [List.mem_append, hmem₁, hmem₂, ← and_or_left]
    simp only [List.mem_append, or_and_right, exists_or]

variable (st first last path) in
theorem Closes.list {ps : List (Term String .bool)} (hps : ps.Nodup)
    (h : ∀ p ∈ ps, ∃ closed, Closes st first last [(p, path)] closed) :
    ∃ closed, Closes st first last (ps.map fun p => (p, path)) closed := by
  induction ps with
  | nil => exact ⟨[], .nil⟩
  | cons p ps ih =>
    rw [List.forall_mem_cons] at h
    obtain ⟨hnot, hps⟩ := List.nodup_cons.mp hps
    obtain ⟨c₁, h₁⟩ := h.1
    obtain ⟨c₂, h₂⟩ := ih hps h.2
    refine ⟨c₁ ++ c₂, h₁.append h₂ fun x hx y hy π hxs hys => ?_⟩
    obtain rfl := List.mem_singleton.mp hx
    obtain ⟨q, hq, rfl⟩ := List.mem_map.mp hy
    have heq : p = q := eq_of_suffixes hxs hys
    exact hnot (heq ▸ hq)

theorem exists_closes (hgraph : LiteralGraph first st.assumptionLiterals)
    (hacyclic : Acyclic (Leads st.assumptionLiterals))
    (hn : (st.assumptionLiterals.find? n).isSome)
    (hpath : IsPath (Leads st.assumptionLiterals) (.constant .bool n) last
      (.constant .bool n :: path)) :
    ∃ closed, Closes st first last [(.constant .bool n, path)] closed := by
  induction hdepth : literalDepth st n using Nat.strong_induction_on generalizing n path with
  | _ d ih =>
    subst hdepth
    obtain ⟨k, rest, hfollow, hk, hle, hrest, hsuffix, hall⟩ :=
      followPath_spec hgraph hacyclic hn hpath
    have hfuel : ∀ fuel, st.assumptionLiterals.entries.length ≤ fuel →
        literalDepth st n < fuel := fun fuel hfuel =>
      (literalDepth_lt_length hacyclic hn).trans_le hfuel
    by_cases hfirst : k = first
    · subst hfirst
      refine ⟨[.constant .bool k :: rest], ⟨1, fun fuel hlength j others before => ?_⟩,
        List.nodup_singleton _, fun π => ?_⟩
      · rw [Nat.add_comm, List.singleton_append, closePaths, hfollow fuel (hfuel fuel hlength),
          if_pos rfl]
        rfl
      · rw [List.mem_singleton]
        constructor
        · rintro rfl
          exact ⟨hrest, _, List.mem_singleton_self _, hsuffix⟩
        · rintro ⟨hπ, x, hx, hs⟩
          obtain rfl := List.mem_singleton.mp hx
          exact hπ.eq_of_suffix hacyclic (hall π hπ hs)
    · obtain ⟨preceding, hfind⟩ := Option.isSome_iff_exists.mp hk
      have hnodup : preceding.reverse.Nodup :=
        List.nodup_reverse.mpr (literalsAt_eq hfind ▸ hgraph.nodup k)
      obtain ⟨closed, ⟨N, hrun⟩, hclosed, hmem⟩ :=
        Closes.list st first last (.constant .bool k :: rest) hnodup fun p hp => by
            rw [List.mem_reverse, ← literalsAt_eq hfind] at hp
            obtain ⟨q, rfl, hq⟩ := hgraph.exists_key hfirst hp
            have hleads : Leads st.assumptionLiterals (.constant .bool q) (.constant .bool k) := hp
            have hlt := (literalDepth_lt hacyclic hq hleads).trans_le hle
            exact ih _ hlt hq (hrest.cons hleads) rfl
      refine ⟨closed, ⟨N + 1, fun fuel hlength j others before => ?_⟩, hclosed, fun π => ?_⟩
      · rw [Nat.add_right_comm, List.singleton_append, closePaths,
          hfollow fuel (hfuel fuel hlength), if_neg hfirst, hfind, ← hrun fuel hlength,
          List.map_reverse]
        rfl
      · rw [hmem]
        refine and_congr_right fun hπ => ⟨?_, ?_⟩
        · rintro ⟨x, hx, hs⟩
          obtain ⟨p, -, rfl⟩ := List.mem_map.mp hx
          exact ⟨_, List.mem_singleton_self _, hsuffix.trans ((List.suffix_cons p _).trans hs)⟩
        · rintro ⟨x, hx, hs⟩
          obtain rfl := List.mem_singleton.mp hx
          obtain ⟨a, ha, hs⟩ := hπ.exists_suffix (hall π hπ hs) fun heq =>
            hfirst (Term.constant.inj heq)
          change a ∈ literalsAt st.assumptionLiterals k at ha
          rw [literalsAt_eq hfind] at ha
          exact ⟨_, List.mem_map_of_mem (List.mem_reverse.mpr ha), hs⟩

end Search

section Results

variable {simplifier : Simplifier String} {solver : Solver String} {old : Bool}
variable {frame callee : Frame} {c : Context}

/-- The paths of literals from the entry to the current literal. -/
def IsLiteralPath (callee : Frame) (c : Context) : List (Term String .bool) → Prop :=
  IsPath (Leads c.state.assumptionLiterals)
    (.constant .bool (literalName callee.scope callee.cfg.entryLabel))
    (.constant .bool c.state.assumptionLiteral)

theorem Placed.ne_first {first : String} {st : State} (h : Placed first st)
    (hacyclic : Acyclic (Leads st.assumptionLiterals)) (hexit : st.vertex.type = .exit) :
    st.assumptionLiteral ≠ first := by
  intro heq
  obtain ⟨n, hn⟩ := h.started.resolve_left fun hentry => by
    rw [hexit] at hentry
    cases hentry
  have hkey : (st.assumptionLiterals.find? n).isSome := by
    rcases h.graph.closed st.assumptionLiteral _ hn with ⟨k, hk, hkey⟩ | ⟨-, htrue⟩
    · cases hk
      exact hkey
    · cases htrue
  have hcycle := Relation.TransGen.tail' (h.graph.reachable n hkey) hn
  rw [heq] at hcycle
  exact hacyclic _ hcycle

theorem determineAssumptionLiteralPaths_exact
    (hentry : ∀ v, callee.cfg.getVertex callee.cfg.entryLabel = .ok v → v.type = .entry)
    (h : Encoded simplifier solver old frame callee c) (hexit : c.state.vertex.type = .exit)
    (hacyclic : Acyclic (Leads c.state.assumptionLiterals)) :
    ∃ n paths, (∀ m, n ≤ m → determineAssumptionLiteralPaths m c = .ok paths) ∧ paths.Nodup ∧
      ∀ π, π ∈ paths ↔ IsLiteralPath callee c π := by
  have hencoding := h.encoding hentry
  have hgraph := hencoding.placed.graph
  have hne := hencoding.placed.ne_first hacyclic hexit
  obtain ⟨preceding, hfind⟩ := Option.isSome_iff_exists.mp hencoding.placed.isKey
  have hnodup : preceding.reverse.Nodup :=
    List.nodup_reverse.mpr (literalsAt_eq hfind ▸ hgraph.nodup _)
  obtain ⟨paths, ⟨N, hrun⟩, hpaths, hmem⟩ := Closes.list c.state
    (literalName callee.scope callee.cfg.entryLabel) (.constant .bool c.state.assumptionLiteral)
    [.constant .bool c.state.assumptionLiteral] hnodup fun p hp => by
      rw [List.mem_reverse, ← literalsAt_eq hfind] at hp
      obtain ⟨q, rfl, hq⟩ := hgraph.exists_key hne hp
      exact exists_closes hgraph hacyclic hq ((IsPath.single _ _).cons hp)
  have hall : ∀ π, π ∈ paths ↔ IsLiteralPath callee c π := by
    intro π
    refine (hmem π).trans ⟨fun hπ => hπ.1, fun hπ => ⟨hπ, ?_⟩⟩
    obtain ⟨a, ha, hs⟩ := hπ.exists_suffix hπ.last_suffix fun heq => hne (Term.constant.inj heq)
    change a ∈ literalsAt c.state.assumptionLiterals c.state.assumptionLiteral at ha
    rw [literalsAt_eq hfind] at ha
    exact ⟨_, List.mem_map_of_mem (List.mem_reverse.mpr ha), hs⟩
  refine ⟨N + c.state.assumptionLiterals.entries.length, paths, fun m hm => ?_, hpaths, hall⟩
  have hclose : closePaths c.state (literalName callee.scope callee.cfg.entryLabel) m m
      (preceding.map fun p => (p, [.constant .bool c.state.assumptionLiteral])).reverse [] =
      .ok paths := by
    obtain ⟨j, rfl⟩ := Nat.exists_eq_add_of_le (show N ≤ m by omega)
    have hclosed := hrun (N + j) (by omega) j [] []
    rw [List.append_nil, List.map_reverse] at hclosed
    rw [hclosed]
    cases j <;> rfl
  obtain ⟨π, hπ⟩ := IsPath.exists_of_reachable (hgraph.reachable _ hencoding.placed.isKey)
  have hnonempty : paths ≠ [] := List.ne_nil_of_mem ((hall π).mpr hπ)
  have hget : c.state.getAssumptionLiterals c.state.assumptionLiteral = .ok preceding := by
    unfold State.getAssumptionLiterals
    rw [hfind]
  unfold determineAssumptionLiteralPaths
  rw [hencoding.getFrame]
  change (c.state.getAssumptionLiterals c.state.assumptionLiteral >>= _) = _
  rw [hget]
  change (closePaths c.state (literalName callee.scope callee.cfg.entryLabel) m m
      (preceding.map fun p => (p, [.constant .bool c.state.assumptionLiteral])).reverse [] >>= _) = _
  rw [hclose]
  exact if_neg hnonempty

end Results

namespace Conditional

def a : Variable := ⟨"a", .bool, .input, none⟩

def x : Variable := ⟨"x", .bool, .output, none⟩

/-- IF a THEN x := TRUE; END_IF; -/
def unit : UnitCfg where
  labelToVertex := .emplaceAll .empty [(0, ⟨0, .entry, none⟩),
    (1, ⟨1, .regular, some (.ifInstruction (.reference (.variableAccess a)) 2 3)⟩),
    (2, ⟨2, .regular, some (.assignmentInstruction .regular (.variableAccess x)
      (.booleanConstant true))⟩),
    (3, ⟨3, .exit, none⟩)]
  edges := [⟨0, 1, none, none, .intraprocedural⟩, ⟨1, 2, none, none, .trueBranch⟩,
    ⟨1, 3, none, none, .falseBranch⟩, ⟨2, 3, none, none, .intraprocedural⟩]
  entryLabel := 0
  exitLabel := 3
  type := .functionBlock
  name := "F"
  interface := [a, x]
  flattenedInterface := .emplaceAll .empty [("F.a", a), ("F.x", x)]

def program : UnitCfg where
  labelToVertex := .empty
  edges := []
  entryLabel := 0
  exitLabel := 1
  type := .program
  name := "P"
  interface := []
  flattenedInterface := .emplaceAll .empty [("P.f.a", a), ("P.f.x", x)]

def main : Frame := ⟨program, "P", 0⟩

def callee : Frame := ⟨unit, "P.f", 2⟩

def vertexAt (l : ℤ) : Vertex := (unit.labelToVertex.find? l).getD ⟨0, .entry, none⟩

def literal (l : ℤ) : Term String .bool := .constant .bool (literalName "P.f" l)

def versionsOf (version : ℕ) : Versions := .emplaceAll .empty [("P.f.a", 0), ("P.f.x", version)]

/-- A context at a vertex. The literals are given with those in front of them. -/
def contextAt (l : ℤ) (literals : List (ℤ × List (Term String .bool)))
    (assumptions : List (ℤ × List (Term String .bool)))
    (hardConstraints : List (ℤ × OrderedMap String (SortedTerm String))) (version : ℕ) : Context where
  state := {
    vertex := vertexAt l
    assumptionLiteral := literalName "P.f" l
    assumptionLiterals :=
      .emplaceAll .empty (literals.map fun e => (literalName "P.f" e.1, e.2))
    assumptions := .emplaceAll .empty (assumptions.map fun e => (literalName "P.f" e.1, e.2))
    hardConstraints :=
      .emplaceAll .empty (hardConstraints.map fun e => (literalName "P.f" e.1, e.2))
    flattenedNameToVersion := versionsOf version }
  callStack := [callee, main]

def condition : Term String .bool := .constant .bool "P.f.a_0"

def branching : Context :=
  contextAt 1 [(0, [.booleanValue true]), (1, [literal 0])] [] [] 0

def taking : Context :=
  contextAt 2 [(0, [.booleanValue true]), (1, [literal 0]), (2, [literal 1])]
    [(2, [condition])] [] 0

def skipping : Context :=
  contextAt 3 [(0, [.booleanValue true]), (1, [literal 0]), (3, [literal 1])]
    [(3, [.not condition])] [] 0

def written : OrderedMap String (SortedTerm String) :=
  .emplace .empty "P.f.x_1" ⟨.bool, .booleanValue true⟩

def assigned : Context :=
  contextAt 3 [(0, [.booleanValue true]), (1, [literal 0]), (2, [literal 1]), (3, [literal 2])]
    [(2, [condition])] [(2, written)] 1

/-- Both contexts at the exit, where the version of `x` is merged. -/
def merged : Context :=
  contextAt 3 [(0, [.booleanValue true]), (1, [literal 0]), (2, [literal 1]),
      (3, [literal 2, literal 1])]
    [(2, [condition]), (3, [.not condition])]
    [(1, .emplace .empty "P.f.x_2" ⟨.bool, .constant .bool "P.f.x_0"⟩),
      (2, written.emplace "P.f.x_2" ⟨.bool, .constant .bool "P.f.x_1"⟩)] 2

variable {solver : Solver String}

theorem encoded_branching :
    Encoded (.identity String) solver false main callee branching := by
  have h₀ : Encoded (.identity String) solver false main callee
      (contextAt 0 [(0, [.booleanValue true])] [] [] 0) := .initial rfl
  have h₁ : (executor (.identity String) solver false).execute (versionsOf 0)
      (contextAt 0 [(0, [.booleanValue true])] [] [] 0) = .ok (versionsOf 0, [branching]) := rfl
  exact h₀.execute h₁ List.mem_cons_self

/-- Everything is true but the named constants. -/
def modelWithout (names : List String) : Model String
  | .bool, n => decide (n ∉ names)
  | .int, _ => (0 : ℤ)

/-- What is asked of the solver about a side of the branch. -/
def question (l : ℤ) (side : Term String .bool) : List (Term String .bool) :=
  branching.state.encoding (.identity String) ++
    [.connective .implies (literal l) (literal 1), .connective .implies (literal l) side, literal l]

theorem positive_holds : ∀ t ∈ question 2 condition, t.Holds (modelWithout []) := by
  decide +kernel

theorem negative_holds :
    ∀ t ∈ question 3 (.not condition), t.Holds (modelWithout ["P.f.a_0"]) := by
  decide +kernel

theorem execute_branching : (executor (.identity String) solver false).execute (versionsOf 0)
    branching = .ok (versionsOf 0, [taking, skipping]) :=
  have hframe : branching.getFrame = .ok callee := rfl
  Summarization.Executor.execute_fork hframe rfl rfl rfl rfl rfl rfl rfl
    ((solver.check_iff _).mpr ⟨_, positive_holds⟩) ((solver.check_iff _).mpr ⟨_, negative_holds⟩)
    rfl rfl

theorem merge_exits : Merger.merge (.identity String) (versionsOf 1) assigned skipping =
    .ok (versionsOf 2, merged) := rfl

variable (solver) in
theorem encoded_merged : Encoded (.identity String) solver false main callee merged := by
  have htaking : Encoded (.identity String) solver false main callee taking :=
    encoded_branching.execute execute_branching (by simp)
  have hskipping : Encoded (.identity String) solver false main callee skipping :=
    encoded_branching.execute execute_branching (by simp)
  have hassign : (executor (.identity String) solver false).execute (versionsOf 0) taking =
      .ok (versionsOf 1, [assigned]) := rfl
  exact (htaking.execute hassign List.mem_cons_self).merge hskipping merge_exits

/-- Where a literal stands, the truth value in front of all others. -/
def rank (t : Term String .bool) : ℕ :=
  ([literalName "P.f" 0, literalName "P.f" 1, literalName "P.f" 2,
    literalName "P.f" 3].idxOf (literalText t) + 1) % 5

theorem acyclic_merged : Acyclic (Leads merged.state.assumptionLiterals) := by
  have hentries : ∀ e ∈ merged.state.assumptionLiterals.entries, ∀ a ∈ e.2,
      rank a < rank (.constant .bool e.1) := by decide +kernel
  have hleads : ∀ a b, Leads merged.state.assumptionLiterals a b → rank a < rank b := by
    intro a b hab
    unfold Leads literalsAt at hab
    cases hfind : merged.state.assumptionLiterals.find? (literalText b) with
    | none =>
      rw [hfind] at hab
      cases hab
    | some ps =>
      rw [hfind] at hab
      exact hentries _ ((OrderedMap.find?_eq_some_iff _ _ _).mp hfind) a hab
  have htrans : ∀ a b, TransGen (Leads merged.state.assumptionLiterals) a b → rank a < rank b := by
    intro a b hab
    induction hab with
    | single h => exact hleads _ _ h
    | tail _ h ih => exact ih.trans (hleads _ _ h)
  exact fun a ha => lt_irrefl _ (htrans a a ha)

theorem paths_merged : ∃ n paths,
    (∀ m, n ≤ m → determineAssumptionLiteralPaths m merged = .ok paths) ∧ paths.Nodup ∧
      ∀ π, π ∈ paths ↔ IsLiteralPath callee merged π :=
  determineAssumptionLiteralPaths_exact (fun _ h => by cases h; rfl)
    (encoded_merged (.classical String)) rfl acyclic_merged

/-- Two paths lead to the exit: past the assignment, and through it. -/
example : determineAssumptionLiteralPaths 4 merged =
    .ok [[literal 0, literal 1, literal 3], [literal 0, literal 1, literal 2, literal 3]] := rfl

end Conditional

end Ahorn.Reuse
