import Mathlib.Data.List.Chain
import Ahorn.EtfaReachable

set_option autoImplicit false

/-!
# The merge is sound and exact where it renames no constraint

The merged context denotes the union of what the contexts denote, as long as no constant of the path
constraints is one of the merged constants. Where one is, the merged path constraint speaks of the
value behind the branch in the place of the one the branch was decided on.
-/
namespace Ahorn.Etfa

variable {p : Program} {versions versions' : Versions} {k : ℕ} {c c₁ c₂ m m' : Context}
  {cs : List Context} {simplifier : Simplifier String} {solver : Solver String}
  {findApplicableSummaries : Context → Except String (List Summary)}

/-- The context denotes what the given ones denote together: it admits the inputs one of them admits,
and then every flattened variable has the value it has there. -/
structure Context.Denotes (p : Program) (m : Context) (cs : List Context) : Prop where
  holds : ∀ inputs, (∃ M, m.Holds inputs M) ↔ ∃ c ∈ cs, ∃ M, c.Holds inputs M
  values : ∀ inputs M M' c, c ∈ cs → m.Holds inputs M → c.Holds inputs M' →
    ∀ x s, p.sortOf x = some s → ∃ v v', m.state.flattenedNameToVersion.find? x = some v ∧
      c.state.flattenedNameToVersion.find? x = some v' ∧
      M s (contextualized x v m.cycle) = M' s (contextualized x v' c.cycle)

namespace Context

theorem Denotes.refl (hc : c.Invariant p versions k) : Denotes p c [c] where
  holds := by
    intro inputs
    simp
  values := by
    intro inputs M M' c' hc' hM hM' x s hx
    obtain rfl := List.mem_singleton.mp hc'
    obtain ⟨v, hv, t, ht⟩ := hc.current hx
    refine ⟨v, v, hv, hv, ?_⟩
    rw [hc.cycle]
    exact hc.acyclic.reads_unique hM.reads hM'.reads ht

theorem Denotes.trans (h : Denotes p m (m' :: cs)) (h' : Denotes p m' [c₁, c₂]) :
    Denotes p m (c₁ :: c₂ :: cs) where
  holds := by
    intro inputs
    rw [h.holds, List.exists_mem_cons_iff, h'.holds, List.exists_mem_cons_iff,
      List.exists_mem_cons_iff, List.exists_mem_cons_iff, List.exists_mem_cons_iff]
    simp only [List.not_mem_nil, false_and, exists_false, or_false, or_assoc]
  values := by
    intro inputs M M' c hc hM hM' x s hx
    have hpair : c ∈ [c₁, c₂] ∨ c ∈ cs := by
      simpa [or_assoc] using hc
    rcases hpair with hpair | hrest
    · obtain ⟨M₁, hM₁⟩ := (h'.holds inputs).mpr ⟨c, hpair, M', hM'⟩
      obtain ⟨v, v₁, hv, hv₁, heq⟩ := h.values inputs M M₁ m' List.mem_cons_self hM hM₁ x s hx
      obtain ⟨v₁', v', hv₁', hv', heq'⟩ := h'.values inputs M₁ M' c hpair hM₁ hM' x s hx
      rw [hv₁] at hv₁'
      cases hv₁'
      exact ⟨v, v', hv, hv', heq.trans heq'⟩
    · exact h.values inputs M M' c (List.mem_cons_of_mem _ hrest) hM hM' x s hx

theorem Invariant.constraint_iff (hc : c.Invariant p versions k) {inputs M M' : Model String}
    (h : c.definitions.Reads inputs M) (h' : c.definitions.Reads inputs M') :
    (∀ t ∈ c.state.pathConstraint, t.Holds M) ↔ ∀ t ∈ c.state.pathConstraint, t.Holds M' := by
  refine forall₂_congr fun t ht => ?_
  unfold Term.Holds
  rw [hc.acyclic.eval_unique h h' (hc.closed t ht)]

end Context

namespace Merger

theorem chosen_of_holds {M : Model String} {α : Type} {a b : α}
    (h : ∀ t ∈ c₁.state.pathConstraint, t.Holds M) : chosen c₁ M a b = a :=
  if_pos ((Term.holds_conjunction M _).mpr h)

theorem chosen_of_not_holds {M : Model String} {α : Type} {a b : α}
    (h : ¬ ∀ t ∈ c₁.state.pathConstraint, t.Holds M) : chosen c₁ M a b = b :=
  if_neg fun hc => h ((Term.holds_conjunction M _).mp hc)

theorem Merged.holds_iff (h : Merged p simplifier versions versions' k c₁ c₂ m)
    (hc₁ : c₁.Invariant p versions k) (hc₂ : c₂.Invariant p versions k)
    (hrenames : ¬ Renames simplifier c₁ c₂) (inputs : Model String) :
    (∃ M, m.Holds inputs M) ↔ (∃ M, c₁.Holds inputs M) ∨ ∃ M, c₂.Holds inputs M := by
  constructor
  · rintro ⟨M, hreads, hconstraint⟩
    rcases (h.pathConstraint hrenames M).mp hconstraint with hconstraint | hconstraint
    · exact Or.inl ⟨M, hreads.mono h.left, hconstraint⟩
    · exact Or.inr ⟨M, hreads.mono h.right, hconstraint⟩
  · intro hor
    obtain ⟨M, hM⟩ := h.invariant.acyclic.exists_reads inputs
    refine ⟨M, hM, (h.pathConstraint hrenames M).mpr ?_⟩
    rcases hor with ⟨M', hM'⟩ | ⟨M', hM'⟩
    · exact Or.inl ((hc₁.constraint_iff hM'.reads (hM.mono h.left)).mp hM'.pathConstraint)
    · exact Or.inr ((hc₂.constraint_iff hM'.reads (hM.mono h.right)).mp hM'.pathConstraint)

theorem Merged.denotes (h : Merged p simplifier versions versions' k c₁ c₂ m)
    (hc₁ : c₁.Invariant p versions k) (hc₂ : c₂.Invariant p versions k)
    (hexclusive : c₁.Exclusive c₂) (hrenames : ¬ Renames simplifier c₁ c₂) :
    m.Denotes p [c₁, c₂] where
  holds := by
    intro inputs
    simp only [List.exists_mem_cons_iff, List.not_mem_nil, false_and, exists_false, or_false]
    exact h.holds_iff hc₁ hc₂ hrenames inputs
  values := by
    intro inputs M M' c hc hM hM' x s hx
    obtain ⟨v, v₁, v₂, hv, hv₁, hv₂, hvalue⟩ := h.current hx
    have hvalue := hvalue M hM.reads.respects
    simp only [List.mem_cons, List.not_mem_nil, or_false] at hc
    rcases hc with rfl | rfl
    · have hreads := hM.reads.mono h.left
      have hconstraint := (hc₁.constraint_iff hM'.reads hreads).mp hM'.pathConstraint
      obtain ⟨⟨t, ht⟩, -⟩ := hc₁.currentVersion hx hv₁
      refine ⟨v, v₁, hv, hv₁, ?_⟩
      rw [h.invariant.cycle, hc₁.cycle, hvalue, chosen_of_holds hconstraint]
      exact hc₁.acyclic.reads_unique hreads hM'.reads ht
    · have hreads := hM.reads.mono h.right
      have hconstraint := (hc₂.constraint_iff hM'.reads hreads).mp hM'.pathConstraint
      obtain ⟨⟨t, ht⟩, -⟩ := hc₂.currentVersion hx hv₂
      refine ⟨v, v₂, hv, hv₂, ?_⟩
      rw [h.invariant.cycle, hc₂.cycle, hvalue, chosen_of_not_holds fun hconstraint₁ =>
        hexclusive inputs M M ⟨hM.reads.mono h.left, hconstraint₁⟩ ⟨hreads, hconstraint⟩]
      exact hc₂.acyclic.reads_unique hreads hM'.reads ht

def KeepsConstraints (simplifier : Simplifier String) :
    Versions → Context → List Context → Prop
  | _, _, [] => True
  | versions, c, c' :: cs => ¬ Renames simplifier c c' ∧ ∀ versions' m,
      merge simplifier versions c c' = .ok (versions', m) →
        KeepsConstraints simplifier versions' m cs

/-- The fold over the contexts at a merge point, by induction on the contexts: a merge keeps the
invariant, and the merged context still excludes and agrees with those that are left. -/
theorem mergeAll_denotes_of_invariant (hp : p.WellFormed) (hc : c.Invariant p versions k)
    (hstack : c.callStack = [⟨p.main, p.main.name, p.main.entryLabel⟩])
    (hcs : ∀ c' ∈ cs, c'.Invariant p versions k ∧
      c'.callStack = [⟨p.main, p.main.name, p.main.entryLabel⟩] ∧
      c'.state.vertex.label = c.state.vertex.label)
    (hexclusive : (c :: cs).Pairwise Context.Exclusive)
    (hagrees : (c :: cs).Pairwise Context.Agrees)
    (hkeeps : KeepsConstraints simplifier versions c cs) :
    ∃ versions' m, mergeAll simplifier versions c cs = .ok (versions', m) ∧
      m.Denotes p (c :: cs) := by
  induction cs generalizing versions c with
  | nil => exact ⟨versions, c, rfl, .refl hc⟩
  | cons c' cs ih =>
    obtain ⟨hc', hstack', hlabel'⟩ := hcs c' List.mem_cons_self
    obtain ⟨hex, hexclusive'⟩ := List.pairwise_cons.mp hexclusive
    obtain ⟨hag, hagrees'⟩ := List.pairwise_cons.mp hagrees
    obtain ⟨valuations, hvaluations⟩ := mergeValuations_total c.state.symbolicValuations
      c'.state.symbolicValuations.sorted fun x hx e he =>
        hag c' List.mem_cons_self x.1 e x.2 he ((OrderedMap.find?_eq_some_iff _ _ _).mpr hx)
    obtain ⟨versions₁, m₁, hm₁, hmerged⟩ := merge_of_valuations simplifier hp hc hc'
      hlabel'.symm hstack hstack' hvaluations
    have hdenotes := hmerged.denotes hc hc' (hex c' List.mem_cons_self) hkeeps.1
    have hrest : ∀ c'' ∈ cs, c'' ∈ c' :: cs := fun _ => List.mem_cons_of_mem _
    obtain ⟨versions₂, m, hm, hall⟩ := ih hmerged.invariant (hmerged.callStack.trans hstack)
      (fun c'' hc'' => ⟨(hcs c'' (hrest c'' hc'')).1.mono hmerged.le, (hcs c'' (hrest c'' hc'')).2.1,
        (hcs c'' (hrest c'' hc'')).2.2.trans (congrArg Vertex.label hmerged.vertex).symm⟩)
      (by
        refine List.pairwise_cons.mpr ⟨fun c'' hc'' => ?_, (List.pairwise_cons.mp hexclusive').2⟩
        intro inputs M M' hM hM'
        obtain ⟨c₀, hc₀, M₀, hM₀⟩ := (hdenotes.holds inputs).mp ⟨M, hM⟩
        simp only [List.mem_cons, List.not_mem_nil, or_false] at hc₀
        rcases hc₀ with rfl | rfl
        · exact hex c'' (hrest c'' hc'') inputs M₀ M' hM₀ hM'
        · exact (List.pairwise_cons.mp hexclusive').1 c'' hc'' inputs M₀ M' hM₀ hM')
      (by
        refine List.pairwise_cons.mpr ⟨fun c'' hc'' => ?_, (List.pairwise_cons.mp hagrees').2⟩
        intro n e e' hn hn'
        rcases hmerged.added n e hn with h₀ | h₀ | ⟨x, v, w, rfl, hw, hlt⟩
        · exact hag c'' (hrest c'' hc'') n e e' h₀ hn'
        · exact (List.pairwise_cons.mp hagrees').1 c'' hc'' n e e' h₀ hn'
        · rw [(hcs c'' (hrest c'' hc'')).1.fresh hw hlt] at hn'
          cases hn')
      (hkeeps.2 versions₁ m₁ hm₁)
    refine ⟨versions₂, m, ?_, hall.trans hdenotes⟩
    unfold mergeAll
    rw [hm₁]
    exact hm

/-- In every reachable state, contexts at one vertex in the frame of the program that exclude each
other and agree on shared names can be merged, and the merged context denotes their union, as long
as no merge renames a constraint. -/
theorem mergeAll_denotes {g : Engine} (hp : p.WellFormed)
    (hfits : p.FindsFitting findApplicableSummaries)
    (hg : g.Reachable p simplifier solver findApplicableSummaries)
    (hmem : ∀ c' ∈ c :: cs, c' ∈ g.explorer ∨ c' ∈ g.merger)
    (hdepth : ∀ c' ∈ c :: cs, c'.callStack.length = 1)
    (hvertex : ∀ c' ∈ cs, c'.state.vertex = c.state.vertex)
    (hexclusive : (c :: cs).Pairwise Context.Exclusive)
    (hagrees : (c :: cs).Pairwise Context.Agrees)
    (hkeeps : KeepsConstraints simplifier g.versions c cs) :
    ∃ versions' m, mergeAll simplifier g.versions c cs = .ok (versions', m) ∧
      m.Denotes p (c :: cs) := by
  have hinvariant := hg.invariant hp hfits
  have hboth : ∀ c' ∈ c :: cs, c'.Invariant p g.versions g.cycle ∧ c'.Placed p := by
    intro c' hc'
    rcases hmem c' hc' with h | h
    · exact hinvariant.explorer c' h
    · exact hinvariant.merger c' h
  have hstack : ∀ c' ∈ c :: cs, c'.callStack = [⟨p.main, p.main.name, p.main.entryLabel⟩] :=
    fun c' hc' => (hboth c' hc').2.stack.of_length_one (hdepth c' hc')
  refine mergeAll_denotes_of_invariant hp (hboth c List.mem_cons_self).1
    (hstack c List.mem_cons_self) (fun c' hc' => ?_) hexclusive hagrees hkeeps
  have hc'' := List.mem_cons_of_mem c hc'
  exact ⟨(hboth c' hc'').1, hstack c' hc'', congrArg Vertex.label (hvertex c' hc')⟩

end Merger

theorem Executor.visitIf_fork (ex : Executor) (frame : Frame) (e : Expression) (c : Context)
    (t u : Term String .bool) {trueEdge falseEdge : Edge} {positive negative : Vertex}
    (hencode : ex.encode frame c e = .ok ⟨.bool, t⟩) (hnot : ex.simplifier.simplify (.not t) = u)
    (htrue : frame.cfg.getTrueEdge c.state.vertex.label = .ok trueEdge)
    (hpositive : frame.cfg.getVertex trueEdge.targetLabel = .ok positive)
    (hfalse : frame.cfg.getFalseEdge c.state.vertex.label = .ok falseEdge)
    (hnegative : frame.cfg.getVertex falseEdge.targetLabel = .ok negative)
    (hcheck : ∃ M : Model String, ∀ q ∈ c.state.pathConstraint ++
      c.state.symbolicValuations.entries.map Executor.equation ++ [t], q.Holds M)
    (hnegated : ∃ M : Model String, ∀ q ∈ c.state.pathConstraint ++
      c.state.symbolicValuations.entries.map Executor.equation ++ [u], q.Holds M) :
    ex.visitIf frame e c = .ok ⟨[c.fork positive t], some (c.fork negative u)⟩ := by
  unfold Executor.visitIf
  simp only [bind, Except.bind, hencode, hnot, htrue, hpositive, hfalse, hnegative]
  rw [if_pos ((ex.solver.check_iff _).mpr hcheck), if_pos ((ex.solver.check_iff _).mpr hnegated)]

theorem Executor.visitIf_take (ex : Executor) (frame : Frame) (e : Expression) (c : Context)
    (t u : Term String .bool) {trueEdge falseEdge : Edge} {positive negative : Vertex}
    (hencode : ex.encode frame c e = .ok ⟨.bool, t⟩) (hnot : ex.simplifier.simplify (.not t) = u)
    (htrue : frame.cfg.getTrueEdge c.state.vertex.label = .ok trueEdge)
    (hpositive : frame.cfg.getVertex trueEdge.targetLabel = .ok positive)
    (hfalse : frame.cfg.getFalseEdge c.state.vertex.label = .ok falseEdge)
    (hnegative : frame.cfg.getVertex falseEdge.targetLabel = .ok negative)
    (hcheck : ∃ M : Model String, ∀ q ∈ c.state.pathConstraint ++
      c.state.symbolicValuations.entries.map Executor.equation ++ [t], q.Holds M)
    (hnegated : ¬∃ M : Model String, ∀ q ∈ c.state.pathConstraint ++
      c.state.symbolicValuations.entries.map Executor.equation ++ [u], q.Holds M) :
    ex.visitIf frame e c = .ok ⟨[c.fork positive t], none⟩ := by
  unfold Executor.visitIf
  simp only [bind, Except.bind, hencode, hnot, htrue, hpositive, hfalse, hnegative]
  rw [if_pos ((ex.solver.check_iff _).mpr hcheck), if_neg]
  exact fun h => hnegated ((ex.solver.check_iff _).mp h)

namespace LatchedInput

def a : Variable := ⟨"a", .bool, .input, none⟩

def x : Variable := ⟨"x", .bool, .local, none⟩

def read (v : Variable) : Expression := .reference (.variableAccess v)

/-- IF NOT x THEN x := a; END_IF; -/
def main : UnitCfg where
  labelToVertex := ⟨[
    (0, ⟨0, .entry, none⟩),
    (1, ⟨1, .regular, some (.ifInstruction (.unary .complement (read x)) 2 3)⟩),
    (2, ⟨2, .regular, some (.assignmentInstruction .regular (.variableAccess x) (read a))⟩),
    (3, ⟨3, .exit, none⟩)], by decide⟩
  edges := [
    { sourceLabel := 0, targetLabel := 1 },
    { sourceLabel := 1, targetLabel := 2, type := .trueBranch },
    { sourceLabel := 1, targetLabel := 3, type := .falseBranch },
    { sourceLabel := 2, targetLabel := 3 }]
  entryLabel := 0
  exitLabel := 3
  type := .program
  name := "P"
  interface := [a, x]
  flattenedInterface := ⟨[("P.a", a), ("P.x", x)], by decide⟩

def program : Program := ⟨main, fun _ => none, 0⟩

theorem mem_main {l : ℤ} {v : Vertex} (h : main.labelToVertex.find? l = some v) :
    (l = 0 ∧ v = ⟨0, .entry, none⟩) ∨
    (l = 1 ∧ v = ⟨1, .regular, some (.ifInstruction (.unary .complement (read x)) 2 3)⟩) ∨
    (l = 2 ∧ v = ⟨2, .regular, some (.assignmentInstruction .regular (.variableAccess x) (read a))⟩) ∨
    (l = 3 ∧ v = ⟨3, .exit, none⟩) := by
  have hmem : (l, v) ∈ main.labelToVertex.entries := (OrderedMap.find?_eq_some_iff _ _ _).mp h
  simpa only [main, List.mem_cons, Prod.mk.injEq, List.not_mem_nil, or_false] using hmem

theorem eq_main {scope : String} {cfg : UnitCfg} (h : program.Instance scope cfg) :
    scope = "P" ∧ cfg = main := by
  cases h with
  | main => exact ⟨rfl, rfl⟩
  | called _ _ _ _ h => cases h

theorem wellFormed : program.WellFormed where
  type := rfl
  sorted := by
    intro scope cfg h l v i hl hi
    obtain ⟨rfl, rfl⟩ := eq_main h
    have hresolves : ∀ w ∈ [a, x], program.Resolves "P" (.variableAccess w) := by
      intro w hw
      simp only [List.mem_cons, List.not_mem_nil, or_false] at hw
      rcases hw with rfl | rfl <;> exact ⟨.bool, rfl, rfl⟩
    rcases mem_main hl with ⟨-, rfl⟩ | ⟨-, rfl⟩ | ⟨-, rfl⟩ | ⟨-, rfl⟩ <;> cases hi
    · exact fun q hq => List.mem_singleton.mp hq ▸ hresolves x (by simp)
    · exact ⟨fun q hq => List.mem_singleton.mp hq ▸ hresolves a (by simp), rfl⟩
  encodable := by
    intro n v hn
    have hmem : (n, v) ∈ [("P.a", a), ("P.x", x)] := (OrderedMap.find?_eq_some_iff _ _ _).mp hn
    simp only [List.mem_cons, Prod.mk.injEq, List.not_mem_nil, or_false] at hmem
    rcases hmem with ⟨-, rfl⟩ | ⟨-, rfl⟩ <;> exact ⟨.bool, rfl, fun _ h => by cases h⟩
  labels := by
    intro l v hl
    rcases mem_main hl with ⟨rfl, rfl⟩ | ⟨rfl, rfl⟩ | ⟨rfl, rfl⟩ | ⟨rfl, rfl⟩
    · exact ⟨rfl, fun h => by cases h⟩
    · exact ⟨rfl, fun h => by cases h⟩
    · exact ⟨rfl, fun h => by cases h⟩
    · exact ⟨rfl, fun _ => rfl⟩
  exitLast := by
    intro l v hl _
    change l ≤ 3
    rcases mem_main hl with ⟨rfl, -⟩ | ⟨rfl, -⟩ | ⟨rfl, -⟩ | ⟨rfl, -⟩ <;> decide

def constant (n : String) : Term String .bool := .constant .bool n

def versionsAt (v : ℕ) : Versions where
  entries := [("P.a", 0), ("P.x", v)]
  sorted := by
    refine List.pairwise_map.mp (?_ : (List.map Prod.fst _).Pairwise (· < ·))
    change ["P.a", "P.x"].Pairwise (· < ·)
    decide

def vertexAt (l : ℤ) : Vertex := (main.labelToVertex.find? l).getD ⟨3, .exit, none⟩

def unset : OrderedMap String (SortedTerm String) :=
  ⟨[("P.a_0__0", ⟨.bool, constant "P.a_0__0"⟩), ("P.x_0__0", ⟨.bool, .booleanValue false⟩)],
    by decide⟩

def latched : OrderedMap String (SortedTerm String) :=
  unset.emplace "P.x_1__0" ⟨.bool, constant "P.a_0__0"⟩

def carried : OrderedMap String (SortedTerm String) :=
  (latched.emplace "P.a_0__1" ⟨.bool, constant "P.a_0__1"⟩).emplace "P.x_0__1"
    ⟨.bool, constant "P.a_0__0"⟩

def contextAt (cycle : ℕ) (l : ℤ) (valuations : OrderedMap String (SortedTerm String))
    (pathConstraint : List (Term String .bool)) (v : ℕ) : Context :=
  ⟨cycle, ⟨vertexAt l, valuations, pathConstraint, versionsAt v⟩, [⟨main, "P", 0⟩]⟩

/-- The contexts of the first cycle, which takes the branch. -/
def first (l : ℤ) : Context := contextAt 0 l unset [.booleanValue true] 0

def taking : Context := contextAt 0 2 unset [.booleanValue true, .not (constant "P.x_0__0")] 0

def leaving : Context := contextAt 0 3 latched [.booleanValue true, .not (constant "P.x_0__0")] 1

/-- Those of the second one, in which the input of the first one decides. -/
def second (l : ℤ) : Context := contextAt 1 l carried [] 0

def retaking : Context := contextAt 1 2 carried [.not (constant "P.x_0__1")] 0

def skipping : Context := contextAt 1 3 carried [.not (.not (constant "P.x_0__1"))] 0

def noSummaries : Context → Except String (List Summary) := fun _ => .ok []

theorem findsFitting : program.FindsFitting noSummaries := by
  intro c summaries h s hs
  cases h
  cases hs

/-- The input of the first cycle is as given, that of the second one true. -/
def model (b : Bool) : Model String
  | .bool, n => if n = "P.x_0__0" then false else if n = "P.a_0__1" then true else b
  | .int, _ => (0 : ℤ)

theorem execute_first (solver : Solver String) :
    (Engine.executor program (.identity _) solver noSummaries).execute (versionsAt 0) (first 1) =
      .ok (versionsAt 0, ⟨[taking], none⟩) := by
  have h := Executor.visitIf_take (Engine.executor program (.identity _) solver noSummaries)
    ⟨main, "P", 0⟩ (.unary .complement (read x)) (first 1) (.not (constant "P.x_0__0"))
    (.not (.not (constant "P.x_0__0"))) rfl rfl rfl rfl rfl rfl ⟨model false, by decide +kernel⟩ (by
      rintro ⟨M, hM⟩
      have hset : (!!M .bool "P.x_0__0") = true := hM (.not (.not (constant "P.x_0__0"))) (by simp)
      have hunset : M .bool "P.x_0__0" = Term.eval M (.booleanValue false) :=
        of_decide_eq_true (hM (.eq (constant "P.x_0__0") (.booleanValue false)) (by decide +kernel))
      rw [hunset] at hset
      cases hset)
  exact congrArg (fun r => r >>= fun s => Except.ok (versionsAt 0, s)) h

theorem execute_second (solver : Solver String) :
    (Engine.executor program (.identity _) solver noSummaries).execute (versionsAt 0) (second 1) =
      .ok (versionsAt 0, ⟨[retaking], some skipping⟩) := by
  have h := Executor.visitIf_fork (Engine.executor program (.identity _) solver noSummaries)
    ⟨main, "P", 0⟩ (.unary .complement (read x)) (second 1) (.not (constant "P.x_0__1"))
    (.not (.not (constant "P.x_0__1"))) rfl rfl rfl rfl rfl rfl ⟨model false, by decide +kernel⟩
    ⟨model true, by decide +kernel⟩
  exact congrArg (fun r => r >>= fun s => Except.ok (versionsAt 0, s)) h

end LatchedInput

namespace NestedBranch

def a : Variable := ⟨"a", .bool, .input, none⟩

def b : Variable := ⟨"b", .bool, .input, none⟩

def x : Variable := ⟨"x", .bool, .local, none⟩

def y : Variable := ⟨"y", .bool, .local, none⟩

def read (v : Variable) : Expression := .reference (.variableAccess v)

def assign (v : Variable) (e : Expression) : Option Instruction :=
  some (.assignmentInstruction .regular (.variableAccess v) e)

/-- x := a; IF x THEN IF b THEN x := FALSE; ELSE y := TRUE; END_IF; END_IF; -/
def main : UnitCfg where
  labelToVertex := ⟨[
    (0, ⟨0, .entry, none⟩),
    (1, ⟨1, .regular, assign x (read a)⟩),
    (2, ⟨2, .regular, some (.ifInstruction (read x) 3 6)⟩),
    (3, ⟨3, .regular, some (.ifInstruction (read b) 4 5)⟩),
    (4, ⟨4, .regular, assign x (.booleanConstant false)⟩),
    (5, ⟨5, .regular, assign y (.booleanConstant true)⟩),
    (6, ⟨6, .exit, none⟩)], by decide⟩
  edges := [
    { sourceLabel := 0, targetLabel := 1 }, { sourceLabel := 1, targetLabel := 2 },
    { sourceLabel := 2, targetLabel := 3, type := .trueBranch },
    { sourceLabel := 2, targetLabel := 6, type := .falseBranch },
    { sourceLabel := 3, targetLabel := 4, type := .trueBranch },
    { sourceLabel := 3, targetLabel := 5, type := .falseBranch },
    { sourceLabel := 4, targetLabel := 6 }, { sourceLabel := 5, targetLabel := 6 }]
  entryLabel := 0
  exitLabel := 6
  type := .program
  name := "P"
  interface := [a, b, x, y]
  flattenedInterface := ⟨[("P.a", a), ("P.b", b), ("P.x", x), ("P.y", y)], by decide⟩

def program : Program := ⟨main, fun _ => none, 0⟩

def constant (n : String) : Term String .bool := .constant .bool n

/-- The valuations once the first statement is done. -/
def valuations : OrderedMap String (SortedTerm String) :=
  ⟨[("P.a_0__0", ⟨.bool, constant "P.a_0__0"⟩), ("P.b_0__0", ⟨.bool, constant "P.b_0__0"⟩),
    ("P.x_0__0", ⟨.bool, .booleanValue false⟩), ("P.x_1__0", ⟨.bool, constant "P.a_0__0"⟩),
    ("P.y_0__0", ⟨.bool, .booleanValue false⟩)], by decide⟩

def versionsOf (x y : ℕ) : Versions where
  entries := [("P.a", 0), ("P.b", 0), ("P.x", x), ("P.y", y)]
  sorted := by
    refine List.pairwise_map.mp (?_ : (List.map Prod.fst _).Pairwise (· < ·))
    change ["P.a", "P.b", "P.x", "P.y"].Pairwise (· < ·)
    decide

def contextAt (vertex : Vertex) (valuations : OrderedMap String (SortedTerm String))
    (pathConstraint : List (Term String .bool)) (x y : ℕ) : Context :=
  ⟨0, ⟨vertex, valuations, .booleanValue true :: pathConstraint, versionsOf x y⟩,
    [⟨main, "P", 0⟩]⟩

def exitVertex : Vertex := ⟨6, .exit, none⟩

def skipping : Context := contextAt exitVertex valuations [.not (constant "P.x_1__0")] 1 0

/-- The context that overwrites the variable both branches are decided on. -/
def overwriting : Context :=
  contextAt exitVertex (valuations.emplace "P.x_2__0" ⟨.bool, .booleanValue false⟩)
    [constant "P.x_1__0", constant "P.b_0__0"] 2 0

/-- The context that takes the inner alternative. -/
def keeping : Context :=
  contextAt exitVertex (valuations.emplace "P.y_1__0" ⟨.bool, .booleanValue true⟩)
    [constant "P.x_1__0", .not (constant "P.b_0__0")] 1 1

/-- The engine once all contexts wait at the exit. -/
def waitingAtExit : Engine where
  versions := versionsOf 2 1
  merger := [skipping, overwriting, keeping]

def noSummaries : Context → Except String (List Summary) := fun _ => .ok []

def vertexAt (l : ℤ) : Vertex := (main.labelToVertex.find? l).getD exitVertex

def model (names : List String) : Model String
  | .bool, n => decide (n ∈ names)
  | .int, _ => (0 : ℤ)

/-- The context in front of the first statement. -/
def entered (l : ℤ) : Context :=
  ⟨0, ⟨vertexAt l, valuations.erase "P.x_1__0", [.booleanValue true], versionsOf 0 0⟩,
    [⟨main, "P", 0⟩]⟩

/-- The contexts on the way, each at its vertex. -/
def exploring (l : ℤ) (pathConstraint : List (Term String .bool)) : Context :=
  contextAt (vertexAt l) valuations pathConstraint 1 0

def taking : Term String .bool := constant "P.x_1__0"

def inner : Term String .bool := constant "P.b_0__0"

def states : List Engine := [
  { versions := versionsOf 0 0, explorer := [entered 0] },
  { versions := versionsOf 0 0, explorer := [entered 1] },
  { versions := versionsOf 1 0, explorer := [exploring 2 []] },
  { versions := versionsOf 1 0, explorer := [exploring 3 [taking]], merger := [skipping] },
  { versions := versionsOf 1 0, merger := [skipping]
    explorer := [exploring 4 [taking, inner], exploring 5 [taking, .not inner]] },
  { versions := versionsOf 2 0, merger := [skipping, overwriting]
    explorer := [exploring 5 [taking, .not inner]] },
  waitingAtExit]

theorem execute_outer : (Engine.executor program (.identity _) solver noSummaries).execute
    (versionsOf 1 0) (exploring 2 []) =
      .ok (versionsOf 1 0, ⟨[exploring 3 [taking]], some skipping⟩) := by
  have h := Executor.visitIf_fork (Engine.executor program (.identity _) solver noSummaries)
    ⟨main, "P", 0⟩ (read x) (exploring 2 []) taking (.not taking)
    rfl rfl rfl rfl rfl rfl ⟨model ["P.x_1__0", "P.a_0__0"], by decide +kernel⟩
    ⟨model [], by decide +kernel⟩
  exact congrArg (fun r => r >>= fun s => Except.ok (versionsOf 1 0, s)) h

theorem execute_inner : (Engine.executor program (.identity _) solver noSummaries).execute
    (versionsOf 1 0) (exploring 3 [taking]) =
      .ok (versionsOf 1 0, ⟨[exploring 4 [taking, inner]],
        some (exploring 5 [taking, .not inner])⟩) := by
  have h := Executor.visitIf_fork (Engine.executor program (.identity _) solver noSummaries)
    ⟨main, "P", 0⟩ (read b) (exploring 3 [taking]) inner (.not inner) rfl rfl rfl rfl rfl rfl
    ⟨model ["P.x_1__0", "P.a_0__0", "P.b_0__0"], by decide +kernel⟩
    ⟨model ["P.x_1__0", "P.a_0__0"], by decide +kernel⟩
  exact congrArg (fun r => r >>= fun s => Except.ok (versionsOf 1 0, s)) h

theorem explore_first {g g' : Engine} {c : Context} {rest : List Context} {versions : Versions}
    {successors : Executor.Successors} (h : g.explorer = c :: rest)
    (hexecute : (Engine.executor program (.identity _) solver noSummaries).execute g.versions c =
      .ok (versions, successors))
    (hg' : (successors.contexts ++ successors.forked.toList).foldl (Engine.push program)
      { g with versions := versions, explorer := rest } = g') :
    Engine.Step program (.identity _) solver noSummaries g g' := by
  subst hg'
  have hfront : g.explorer = [] ++ c :: rest := h
  exact .explore hfront hexecute

theorem isChain_states :
    states.IsChain (Engine.Step program (.identity _) solver noSummaries) := by
  have h₀ : (Engine.executor program (.identity _) solver noSummaries).execute (versionsOf 0 0)
      (entered 0) = .ok (versionsOf 0 0, ⟨[entered 1], none⟩) := rfl
  have h₁ : (Engine.executor program (.identity _) solver noSummaries).execute (versionsOf 0 0)
      (entered 1) = .ok (versionsOf 1 0, ⟨[exploring 2 []], none⟩) := rfl
  have h₄ : (Engine.executor program (.identity _) solver noSummaries).execute (versionsOf 1 0)
      (exploring 4 [taking, inner]) = .ok (versionsOf 2 0, ⟨[overwriting], none⟩) := rfl
  have h₅ : (Engine.executor program (.identity _) solver noSummaries).execute (versionsOf 2 0)
      (exploring 5 [taking, .not inner]) = .ok (versionsOf 2 1, ⟨[keeping], none⟩) := rfl
  refine .cons_cons (explore_first rfl h₀ rfl) (.cons_cons (explore_first rfl h₁ rfl) (.cons_cons
    (explore_first rfl execute_outer rfl) (.cons_cons (explore_first rfl execute_inner rfl)
    (.cons_cons (explore_first rfl h₄ rfl) (.cons_cons (explore_first rfl h₅ rfl)
    (.singleton _))))))

theorem reachable :
    Engine.Reachable program (.identity _) solver noSummaries waitingAtExit :=
  ⟨_, rfl, List.relationReflTransGen_of_exists_isChain_cons _ isChain_states rfl⟩

theorem find?_eq_some {α : Type} {m : OrderedMap ℤ α} {l : ℤ} {v : α} (h : m.find? l = some v) :
   (l, v) ∈ m.entries := (OrderedMap.find?_eq_some_iff _ _ _).mp h

theorem wellFormed : program.WellFormed where
  type := rfl
  sorted := by
    intro scope cfg h l v i hl hi
    have hmain : scope = "P" ∧ cfg = main := by
      cases h with
      | main => exact ⟨rfl, rfl⟩
      | called _ _ _ _ h => cases h
    obtain ⟨rfl, rfl⟩ := hmain
    have hl := (OrderedMap.find?_eq_some_iff _ _ _).mp hl
    simp only [main, List.mem_cons, Prod.mk.injEq, List.not_mem_nil, or_false] at hl
    have hresolves : ∀ w ∈ [a, b, x, y], program.Resolves "P" (.variableAccess w) := by
      intro w hw
      simp only [List.mem_cons, List.not_mem_nil, or_false] at hw
      rcases hw with rfl | rfl | rfl | rfl <;> exact ⟨.bool, rfl, rfl⟩
    rcases hl with ⟨-, rfl⟩ | ⟨-, rfl⟩ | ⟨-, rfl⟩ | ⟨-, rfl⟩ | ⟨-, rfl⟩ | ⟨-, rfl⟩ | ⟨-, rfl⟩ <;>
      cases hi
    · exact ⟨fun q hq => List.mem_singleton.mp hq ▸ hresolves a (by simp), rfl⟩
    · exact fun q hq => List.mem_singleton.mp hq ▸ hresolves x (by simp)
    · exact fun q hq => List.mem_singleton.mp hq ▸ hresolves b (by simp)
    · exact ⟨fun q hq => absurd hq List.not_mem_nil, rfl⟩
    · exact ⟨fun q hq => absurd hq List.not_mem_nil, rfl⟩
  encodable := by
    intro n v hn
    have hn := (OrderedMap.find?_eq_some_iff _ _ _).mp hn
    simp only [program, main, List.mem_cons, Prod.mk.injEq, List.not_mem_nil, or_false] at hn
    rcases hn with ⟨-, rfl⟩ | ⟨-, rfl⟩ | ⟨-, rfl⟩ | ⟨-, rfl⟩ <;>
      exact ⟨.bool, rfl, fun _ h => by cases h⟩
  labels := by
    intro l v hl
    have hl := (OrderedMap.find?_eq_some_iff _ _ _).mp hl
    simp only [program, main, List.mem_cons, Prod.mk.injEq, List.not_mem_nil, or_false] at hl
    rcases hl with ⟨rfl, rfl⟩ | ⟨rfl, rfl⟩ | ⟨rfl, rfl⟩ | ⟨rfl, rfl⟩ | ⟨rfl, rfl⟩ | ⟨rfl, rfl⟩ |
      ⟨rfl, rfl⟩ <;> simp [program, main]
  exitLast := by
    intro l v hl _
    have hl := (OrderedMap.find?_eq_some_iff _ _ _).mp hl
    simp only [program, main, List.mem_cons, Prod.mk.injEq, List.not_mem_nil, or_false] at hl
    change l ≤ 6
    omega

theorem noSummaries_fitting : program.FindsFitting noSummaries := by
  intro c summaries h s hs
  cases h
  cases hs

def inputs : Model String := model ["P.a_0__0", "P.b_0__0"]

theorem length_callStack : skipping.callStack.length = 1 ∧ overwriting.callStack.length = 1 ∧
    keeping.callStack.length = 1 := by
  unfold skipping overwriting keeping contextAt
  exact ⟨rfl, rfl, rfl⟩

theorem same_place : keeping.state.vertex = overwriting.state.vertex ∧
    keeping.state.vertex = skipping.state.vertex ∧ overwriting.cycle = keeping.cycle := by
  unfold skipping overwriting keeping contextAt
  exact ⟨rfl, rfl, rfl⟩

theorem overwriting_holds :
    overwriting.Holds inputs (model ["P.a_0__0", "P.b_0__0", "P.x_1__0"]) := by
  have hrespects : ∀ e ∈ overwriting.state.symbolicValuations.entries,
      (Executor.equation e).Holds (model ["P.a_0__0", "P.b_0__0", "P.x_1__0"]) := by
    decide +kernel
  have hinputs : ∀ e ∈ overwriting.state.symbolicValuations.entries,
      e.2 = ⟨e.2.1, .constant e.2.1 e.1⟩ →
        model ["P.a_0__0", "P.b_0__0", "P.x_1__0"] e.2.1 e.1 = inputs e.2.1 e.1 := by
    decide +kernel
  refine ⟨⟨?_, ?_⟩, by decide +kernel⟩
  · intro n s t hn
    exact of_decide_eq_true (hrespects _ ((OrderedMap.find?_eq_some_iff _ _ _).mp hn))
  · intro n s hn
    exact hinputs _ ((OrderedMap.find?_eq_some_iff _ _ _).mp hn) rfl

/-- What the merge makes of the last two contexts: the guard of the outer branch has become the
merged variable. -/
def merged : Context :=
  let taken := Term.conjunction [.booleanValue true, taking, inner]
  let renamed := constant "P.x_3__0"
  { overwriting with
    state :=
      { vertex := exitVertex
        symbolicValuations :=
          (((valuations.emplace "P.x_2__0" ⟨.bool, .booleanValue false⟩).emplace
            "P.y_1__0" ⟨.bool, .booleanValue true⟩).emplace
            "P.x_3__0" ⟨.bool, .ite taken (constant "P.x_2__0") taking⟩).emplace
            "P.y_2__0" ⟨.bool, .ite taken (constant "P.y_0__0") (constant "P.y_1__0")⟩
        pathConstraint := [.conjunction [.connective .or
          (.conjunction [.booleanValue true, renamed, inner])
          (.conjunction [.booleanValue true, renamed, .not inner])]]
        flattenedNameToVersion := versionsOf 3 2 } }

theorem merge_eq : Merger.merge (.identity _) waitingAtExit.versions overwriting keeping =
    .ok (versionsOf 3 2, merged) := rfl

theorem not_merged_holds (M : Model String) : ¬ merged.Holds inputs M := by
  intro h
  have ha : M .bool "P.a_0__0" = true := h.reads.inputs "P.a_0__0" .bool rfl
  have hb : M .bool "P.b_0__0" = true := h.reads.inputs "P.b_0__0" .bool rfl
  have hx₁ : M .bool "P.x_1__0" = M .bool "P.a_0__0" := h.reads.respects "P.x_1__0" .bool _ rfl
  have hx₂ : M .bool "P.x_2__0" = false := h.reads.respects "P.x_2__0" .bool _ rfl
  have hx₃ := h.reads.respects "P.x_3__0" .bool _ rfl
  have hconstraint := h.pathConstraint _ (List.mem_singleton.mpr rfl)
  have hx₃ : M .bool "P.x_3__0" = false := by
    rw [hx₃]
    change (bif true && (M .bool "P.x_1__0" && (M .bool "P.b_0__0" && true)) then
      M .bool "P.x_2__0" else M .bool "P.x_1__0") = false
    rw [hx₁, ha, hb, hx₂]
    rfl
  simp [Term.Holds, Term.eval, Term.conjunction, inner, constant, Connective.eval, hx₃] at hconstraint

theorem exclusive : overwriting.Exclusive keeping := by
  intro inputs M M' h h'
  have hb : M .bool "P.b_0__0" = true := h.pathConstraint inner (by simp [overwriting, contextAt, inner])
  have hb' : (!M' .bool "P.b_0__0") = true :=
    h'.pathConstraint (.not inner) (by simp [keeping, contextAt, inner])
  rw [h.reads.inputs "P.b_0__0" .bool rfl] at hb
  rw [h'.reads.inputs "P.b_0__0" .bool rfl, hb] at hb'
  cases hb'

theorem agrees : overwriting.Agrees keeping := by
  have h : ∀ e ∈ overwriting.state.symbolicValuations.entries,
      ∀ e' ∈ keeping.state.symbolicValuations.entries, e.1 = e'.1 → e.2 = e'.2 := by
    decide +kernel
  intro n e e' he he'
  exact h (n, e) ((OrderedMap.find?_eq_some_iff _ _ _).mp he) (n, e')
    ((OrderedMap.find?_eq_some_iff _ _ _).mp he') rfl

end NestedBranch

open NestedBranch in
/-- The two contexts of the inner branch meet every premise, and their merge loses the inputs that
take both branches. -/
theorem merge_loses_inputs :
    program.WellFormed ∧ program.FindsFitting noSummaries ∧
      waitingAtExit.Reachable program (.identity _) (Solver.classical _) noSummaries ∧
      (overwriting ∈ waitingAtExit.merger ∧ keeping ∈ waitingAtExit.merger) ∧
      (overwriting.callStack.length = 1 ∧ keeping.callStack.length = 1) ∧
      keeping.state.vertex = overwriting.state.vertex ∧ overwriting.cycle = keeping.cycle ∧
      overwriting.Exclusive keeping ∧ overwriting.Agrees keeping ∧
      Merger.merge (.identity _) waitingAtExit.versions overwriting keeping =
        .ok (versionsOf 3 2, merged) ∧
      ¬ merged.Denotes program [overwriting, keeping] := by
  refine ⟨wellFormed, noSummaries_fitting, reachable, ⟨?_, ?_⟩,
    length_callStack.2, same_place.1, same_place.2.2, exclusive, agrees, merge_eq, ?_⟩
  · exact List.mem_cons_of_mem _ List.mem_cons_self
  · exact List.mem_cons_of_mem _ (List.mem_cons_of_mem _ List.mem_cons_self)
  · intro h
    obtain ⟨M, hM⟩ := (h.holds inputs).mpr ⟨overwriting, List.mem_cons_self, _, overwriting_holds⟩
    exact not_merged_holds M hM

namespace NestedBranch

theorem skipping_exclusive : skipping.Exclusive keeping := by
  intro inputs M M' h h'
  have hx : (!M .bool "P.x_1__0") = true := h.pathConstraint (.not taking) (by
    exact List.mem_cons_of_mem _ List.mem_cons_self)
  have hx' : M' .bool "P.x_1__0" = true := h'.pathConstraint taking (by
    exact List.mem_cons_of_mem _ List.mem_cons_self)
  rw [h.reads.respects "P.x_1__0" .bool _ rfl] at hx
  rw [h'.reads.respects "P.x_1__0" .bool _ rfl] at hx'
  change (!M .bool "P.a_0__0") = true at hx
  change M' .bool "P.a_0__0" = true at hx'
  rw [h.reads.inputs "P.a_0__0" .bool rfl] at hx
  rw [h'.reads.inputs "P.a_0__0" .bool rfl] at hx'
  rw [hx'] at hx
  cases hx

theorem skipping_agrees : skipping.Agrees keeping := by
  have h : ∀ e ∈ skipping.state.symbolicValuations.entries,
      ∀ e' ∈ keeping.state.symbolicValuations.entries, e.1 = e'.1 → e.2 = e'.2 := by
    decide +kernel
  intro n e e' he he'
  exact h (n, e) ((OrderedMap.find?_eq_some_iff _ _ _).mp he) (n, e')
    ((OrderedMap.find?_eq_some_iff _ _ _).mp he') rfl

theorem skipping_not_renames : ¬ Merger.Renames (.identity _) skipping keeping := by
  have hnames : ∀ q ∈ (Merger.mergePathConstraints (.identity _) skipping.state
      keeping.state).occurrences, q.2 = "P.x_1__0" ∨ q.2 = "P.b_0__0" := by
    decide +kernel
  have hversions : ∀ e ∈ (versionsOf 1 0).entries, ∀ e' ∈ (versionsOf 1 1).entries,
      e.1 = e'.1 → e.2 ≠ e'.2 → e = ("P.y", 0) ∧ e' = ("P.y", 1) := by
    decide +kernel
  rintro ⟨q, hq, x, v₁, v₂, e₁, e₂, h₁, h₂, hne, -, -, -, hname⟩
  obtain ⟨h, h'⟩ := hversions (x, v₁) ((OrderedMap.find?_eq_some_iff _ _ _).mp h₁) (x, v₂)
    ((OrderedMap.find?_eq_some_iff _ _ _).mp h₂) rfl hne
  cases h
  cases h'
  have hdistinct : ∀ n ∈ ["P.x_1__0", "P.b_0__0"], n ≠ contextualized "P.y" 0 0 ∧
      n ≠ contextualized "P.y" 1 0 := by
    decide +kernel
  obtain ⟨h₀, h₁⟩ := hdistinct q.2 (by simpa using hnames q hq)
  exact hname.elim h₀ h₁

end NestedBranch

open NestedBranch in
/-- The context that skips the outer branch and the one that takes the inner alternative. -/
theorem mergeAll_denotes_alternatives :
    ∃ versions m, Merger.mergeAll (.identity _) waitingAtExit.versions skipping [keeping] =
      .ok (versions, m) ∧ m.Denotes program [skipping, keeping] := by
  have hreachable : waitingAtExit.Reachable program (.identity _) (Solver.classical _) noSummaries :=
    reachable
  apply Merger.mergeAll_denotes wellFormed noSummaries_fitting hreachable
  · intro c hc
    simp only [List.mem_cons, List.not_mem_nil, or_false] at hc
    rcases hc with rfl | rfl
    · exact Or.inr List.mem_cons_self
    · exact Or.inr (List.mem_cons_of_mem _ (List.mem_cons_of_mem _ List.mem_cons_self))
  · intro c hc
    simp only [List.mem_cons, List.not_mem_nil, or_false] at hc
    rcases hc with rfl | rfl
    · exact length_callStack.1
    · exact length_callStack.2.2
  · intro c hc
    obtain rfl := List.mem_singleton.mp hc
    exact same_place.2.1
  · exact List.pairwise_pair.mpr skipping_exclusive
  · exact List.pairwise_pair.mpr skipping_agrees
  · exact ⟨skipping_not_renames, fun _ _ _ => trivial⟩

end Ahorn.Etfa
