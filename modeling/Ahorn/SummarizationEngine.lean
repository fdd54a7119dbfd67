import Mathlib.Data.List.Nodup
import Ahorn.PathSummarizer

set_option autoImplicit false

/-!
# The engine of the summarization

For every function block that a program calls, one context starts in front of its first vertex. The
contexts are kept on a stack, and the one on top is executed until it has come to the exit, where its
path is summarized.
-/
namespace Ahorn.Summarization

open Etfa (Frame)
open Relation (ReflTransGen)

/-- A program with the units of the instances in it, by the name of their type, and whether a unit
has callees itself. -/
structure Program where
  main : UnitCfg
  getCfg : String → Option UnitCfg
  hasCallees : String → Bool

/-- The context on top of the stack comes first. -/
structure Engine where
  versions : Versions
  nameToSummaries : OrderedMap String (List PathSummary)
  contexts : List Context

namespace Engine

/-- The contexts for the calls of a program. A function block that is called several times is
summarized once. -/
def initialContexts (p : Program) (frame : Frame) :
    List Vertex → List String → Except String (List Context)
  | [], _ => .ok []
  | vertex :: vertices, typeRepresentativeNames =>
    match vertex.instruction with
    | some (.callInstruction called _ _) => do
      let edge ← p.main.getIntraproceduralCallToReturnEdge vertex.label
      match called.dataType with
      | .derivedType typeName =>
        if typeName ∈ typeRepresentativeNames then
          initialContexts p frame vertices typeRepresentativeNames
        else
          match p.getCfg typeName with
          | none => .error ("No type representative cfg for " ++ typeName ++ " exists.")
          | some callee =>
            if p.hasCallees typeName then .error "assertion failed"
            else do
              let c ← initialContext frame ⟨callee, frame.scope ++ "." ++ called.name, edge.targetLabel⟩
              let cs ← initialContexts p frame vertices (typeName :: typeRepresentativeNames)
              .ok (c :: cs)
      | _ => .error "assertion failed"
    | _ => initialContexts p frame vertices typeRepresentativeNames

def initial (p : Program) : Except String Engine := do
  if p.main.type = .program then
    let contexts ← initialContexts p ⟨p.main, p.main.name, p.main.entryLabel⟩
      (p.main.labelToVertex.entries.map Prod.snd) []
    .ok {
      versions := OrderedMap.empty.emplaceAll
        (p.main.flattenedInterface.entries.map fun e => (e.1, 0))
      nameToSummaries := .empty
      contexts := contexts.reverse }
  else .error "assertion failed"

def step (ex : Executor) (g : Engine) : Except String Engine :=
  match g.contexts with
  | [] => .error "assertion failed"
  | c :: contexts =>
    match c.state.vertex.type with
    | .exit => do
      let nameToSummaries ← summarizePath g.nameToSummaries c
      .ok { g with nameToSummaries := nameToSummaries, contexts := contexts }
    | _ => do
      let (versions, succeedingContexts) ← ex.execute g.versions c
      .ok { g with versions := versions, contexts := succeedingContexts.reverse ++ contexts }

/-- The states of the engine in the runs on a program. -/
def Reachable (p : Program) (ex : Executor) (g : Engine) : Prop :=
  ∃ g₀, initial p = .ok g₀ ∧ ReflTransGen (fun g g' => g.step ex = .ok g') g₀ g

end Engine

namespace State

/-- The term is assumed under the literal. -/
def Assumes (st : State) (literal : String) (t : Term String .bool) : Prop :=
  t ∈ (st.assumptions.find? literal).getD []

/-- The name is defined as the term under the literal. -/
def Defines (st : State) (literal name : String) (e : SortedTerm String) : Prop :=
  ((st.hardConstraints.find? literal).getD .empty).find? name = some e

def Writes (st : State) (name : String) : Prop := ∃ literal e, st.Defines literal name e

/-- The term is one of those that are filed. -/
def Files (st : State) (e : SortedTerm String) : Prop :=
  (∃ literal t, st.Assumes literal t ∧ e = ⟨.bool, t⟩) ∨ ∃ literal name, st.Defines literal name e

/-- The name occurs on the path. -/
def Mentions (st : State) (name : String) : Prop :=
  st.Writes name ∨ ∃ e, st.Files e ∧ ∃ s, (s, name) ∈ e.2.occurrences

/-- Something is filed under the literal. -/
def FiledUnder (st : State) (literal : String) : Prop :=
  (st.assumptions.find? literal).isSome ∨ (st.hardConstraints.find? literal).isSome

/-- The version is the one a path begins with, or the path writes it. -/
def Settled (st : State) (flattenedName : String) (version : ℕ) : Prop :=
  version = 0 ∨ st.Writes (versioned flattenedName version)

/-- A term over one version of each variable. -/
def AtVersions (st : State) {s : SmtSort} (t : Term String s) : Prop :=
  ∃ σ : String → ℕ, ∀ k ∈ t.occurrences, ∃ f, k.2 = versioned f (σ f) ∧ st.Settled f (σ f)

end State

section Trail

variable {m m' : OrderedMap String (List (Term String .bool))} {first l : String}
variable {trail literals : List String} {st : State}

/-- The literals from the current one back to the first. -/
inductive Trail (m : OrderedMap String (List (Term String .bool))) (first : String) :
    List String → Prop
  | single (h : (m.find? first).isSome) : Trail m first [first]
  | cons {l l' : String} {trail : List String} (hl : m.find? l = some [.constant .bool l'])
    (hnew : l ∉ l' :: trail) (h : Trail m first (l' :: trail)) : Trail m first (l :: l' :: trail)

theorem Trail.nodup (h : Trail m first trail) : trail.Nodup := by
  induction h with
  | single _ => exact List.nodup_singleton _
  | cons _ hnew _ ih => exact List.nodup_cons.mpr ⟨hnew, ih⟩

theorem Trail.isSome (h : Trail m first trail) : ∀ l ∈ trail, (m.find? l).isSome := by
  induction h with
  | single h => exact fun l hl => List.mem_singleton.mp hl ▸ h
  | cons hl _ _ ih =>
    rw [List.forall_mem_cons]
    exact ⟨by rw [hl]; rfl, ih⟩

theorem Trail.first_mem (h : Trail m first trail) : first ∈ trail := by
  induction h with
  | single _ => exact List.mem_singleton_self _
  | cons _ _ _ ih => exact List.mem_cons_of_mem _ ih

theorem Trail.mono (h : Trail m first trail) (hm : ∀ l ∈ trail, m'.find? l = m.find? l) :
    Trail m' first trail := by
  induction h with
  | single h => exact .single (by rwa [hm _ (List.mem_singleton_self _)])
  | cons hl hnew _ ih =>
    rw [List.forall_mem_cons] at hm
    exact .cons (hm.1.trans hl) hnew (ih hm.2)

theorem Trail.length_le (h : Trail m first trail) : trail.length ≤ m.entries.length := by
  have hsubset : trail ⊆ m.keys := fun l hl =>
    OrderedMap.mem_keys_iff.mpr (Option.isSome_iff_exists.mp (h.isSome l hl))
  have hle := h.nodup.length_le_of_subset hsubset
  rwa [OrderedMap.keys, List.length_map] at hle

theorem flattenFrom_trail (h : Trail st.assumptionLiterals first (l :: trail)) (fuel : ℕ)
    (hfuel : (l :: trail).length ≤ fuel) (literals : List String) :
    flattenFrom st first fuel l literals = .ok ((l :: trail).reverse ++ literals) := by
  induction fuel generalizing l trail literals with
  | zero => exact absurd hfuel (Nat.not_succ_le_zero _)
  | succ fuel ih =>
    unfold flattenFrom
    cases h with
    | single _ => exact if_pos rfl
    | @cons _ l' trail hl hnew h =>
      have hne : l ≠ first := fun heq => hnew (heq ▸ h.first_mem)
      have hget : st.getAssumptionLiterals l = .ok [.constant .bool l'] := by
        unfold State.getAssumptionLiterals
        rw [hl]
      rw [if_neg hne, hget]
      change flattenFrom st first fuel l' (l :: literals) = _
      rw [ih h (Nat.le_of_succ_le_succ hfuel)]
      simp

/-- The literals behind the first one, and everything is filed under one of them. -/
structure Traced (first : String) (st : State) (trail : List String) : Prop where
  chain : Trail st.assumptionLiterals first (st.assumptionLiteral :: trail)
  filed : ∀ l, st.FiledUnder l → l ∈ st.assumptionLiteral :: trail

theorem Traced.flatten {frame : Frame}
    (h : Traced (literalName frame.scope frame.cfg.entryLabel) st trail) :
    flattenAssumptionLiterals frame st = .ok (st.assumptionLiteral :: trail).reverse := by
  unfold flattenAssumptionLiterals
  rw [flattenFrom_trail h.chain _ h.chain.length_le, List.append_nil]

theorem pushAssumptionLiteral_eq {t : Term String .bool} {st' : State}
    (h : st.pushAssumptionLiteral false l t = .ok st') : st.assumptionLiterals.find? l = none ∧
      st' = { st with assumptionLiterals := st.assumptionLiterals.emplace l [t] } := by
  unfold State.pushAssumptionLiteral at h
  split at h
  · rename_i hnone
    cases h
    exact ⟨hnone, rfl⟩
  · cases h

theorem Traced.push (h : Traced first st trail) (hnew : st.assumptionLiterals.find? l = none)
    {st' : State} (hliteral : st'.assumptionLiteral = l)
    (hliterals : st'.assumptionLiterals =
      st.assumptionLiterals.emplace l [.constant .bool st.assumptionLiteral])
    (hfiled : ∀ k, st'.FiledUnder k → st.FiledUnder k ∨ k = l) :
    Traced first st' (st.assumptionLiteral :: trail) := by
  have hnotMem : l ∉ st.assumptionLiteral :: trail := by
    intro hl
    have hsome := h.chain.isSome l hl
    rw [hnew] at hsome
    cases hsome
  constructor
  · rw [hliteral, hliterals]
    refine .cons (OrderedMap.find?_emplace_self _ hnew) hnotMem (h.chain.mono fun k hk => ?_)
    exact OrderedMap.find?_emplace_ne _ _ fun heq => hnotMem (heq ▸ hk)
  · intro k hk
    rw [hliteral]
    rcases hfiled k hk with hk | rfl
    · exact List.mem_cons_of_mem _ (h.filed k hk)
    · exact List.mem_cons_self

end Trail

section Filing

variable {st st' : State} {literal l name n : String} {e e' : SortedTerm String}
variable {t u : Term String .bool} {version : ℕ}

theorem hardConstraints_push (k : String) :
    ((st.pushHardConstraint literal name e).hardConstraints.find? k).getD .empty =
      if k = literal then ((st.hardConstraints.find? literal).getD .empty).emplace name e
      else (st.hardConstraints.find? k).getD .empty := by
  unfold State.pushHardConstraint
  cases hfind : st.hardConstraints.find? literal with
  | none =>
    dsimp only
    rw [OrderedMap.find?_emplace, hfind]
    split_ifs <;> rfl
  | some existing =>
    dsimp only
    rw [OrderedMap.find?_assign]
    split_ifs <;> rfl

theorem State.Defines.push (h : st.Defines l n e') :
    (st.pushHardConstraint literal name e).Defines l n e' := by
  unfold State.Defines at h ⊢
  rw [hardConstraints_push]
  split_ifs with hl
  · subst hl
    rw [OrderedMap.find?_emplace]
    split_ifs with hn
    · subst hn
      rw [h, Option.some_or]
    · exact h
  · exact h

theorem State.Defines.of_push (h : (st.pushHardConstraint literal name e).Defines l n e') :
    st.Defines l n e' ∨ n = name ∧ e' = e := by
  unfold State.Defines at h ⊢
  rw [hardConstraints_push] at h
  split_ifs at h with hl
  · subst hl
    rw [OrderedMap.find?_emplace] at h
    split_ifs at h with hn
    · subst hn
      rcases Option.or_eq_some_iff.mp h with h | ⟨-, h⟩
      · exact Or.inl h
      · exact Or.inr ⟨rfl, (Option.some.inj h).symm⟩
    · exact Or.inl h
  · exact Or.inl h

theorem State.writes_push : (st.pushHardConstraint literal name e).Writes name := by
  unfold State.Writes State.Defines
  simp only [hardConstraints_push]
  refine ⟨literal, ?_⟩
  rw [if_pos rfl, OrderedMap.find?_emplace, if_pos rfl]
  cases ((st.hardConstraints.find? literal).getD .empty).find? name with
  | none => exact ⟨e, rfl⟩
  | some e' => exact ⟨e', rfl⟩

theorem State.FiledUnder.of_push
    (h : (st.pushHardConstraint literal name e).FiledUnder l) : st.FiledUnder l ∨ l = literal := by
  by_cases hl : l = literal
  · exact Or.inr hl
  · left
    unfold State.FiledUnder State.pushHardConstraint at h
    unfold State.FiledUnder
    split at h
    · rwa [OrderedMap.find?_emplace, if_neg hl] at h
    · rwa [OrderedMap.find?_assign, if_neg hl] at h

theorem State.FiledUnder.of_pushAssumption (h : (st.pushAssumption literal t).FiledUnder l) :
    st.FiledUnder l ∨ l = literal := by
  by_cases hl : l = literal
  · exact Or.inr hl
  · left
    unfold State.FiledUnder State.pushAssumption at h
    unfold State.FiledUnder
    split at h
    · rwa [OrderedMap.find?_emplace, if_neg hl] at h
    · rwa [OrderedMap.find?_assign, if_neg hl] at h

theorem State.Assumes.of_pushAssumption (h : (st.pushAssumption literal t).Assumes l u) :
    st.Assumes l u ∨ u = t := by
  unfold State.Assumes State.pushAssumption at h
  unfold State.Assumes
  cases hfind : st.assumptions.find? literal with
  | none =>
    rw [hfind] at h
    dsimp only at h
    rw [OrderedMap.find?_emplace, hfind] at h
    split_ifs at h with hl
    · exact Or.inr (List.mem_singleton.mp h)
    · exact Or.inl h
  | some existing =>
    rw [hfind] at h
    dsimp only at h
    rw [OrderedMap.find?_assign] at h
    split_ifs at h with hl
    · rw [hl, hfind]
      exact (List.mem_append.mp h).imp_right List.mem_singleton.mp
    · exact Or.inl h

theorem State.Settled.mono {f : String} (hwrites : ∀ n, st.Writes n → st'.Writes n)
    (h : st.Settled f version) : st'.Settled f version :=
  h.imp_right (hwrites _)

theorem State.AtVersions.mono {s : SmtSort} {t : Term String s}
    (hwrites : ∀ n, st.Writes n → st'.Writes n) (h : st.AtVersions t) : st'.AtVersions t := by
  obtain ⟨σ, hσ⟩ := h
  refine ⟨σ, fun k hk => ?_⟩
  obtain ⟨f, hkey, hsettled⟩ := hσ k hk
  exact ⟨f, hkey, hsettled.mono hwrites⟩

/-- Everything that is filed is over versions the path begins with or writes. -/
structure Versioning (st : State) : Prop where
  current : ∀ f v, st.flattenedNameToVersion.find? f = some v → st.Settled f v
  terms : ∀ e, st.Files e → st.AtVersions e.2
  names : ∀ n, st.Writes n → ∃ f v, n = versioned f v

theorem Versioning.of_eq (h : Versioning st) (hassumptions : st'.assumptions = st.assumptions)
    (hconstraints : st'.hardConstraints = st.hardConstraints)
    (hversions : st'.flattenedNameToVersion = st.flattenedNameToVersion) : Versioning st' := by
  cases st
  cases st'
  cases hassumptions
  cases hconstraints
  cases hversions
  exact ⟨h.current, h.terms, h.names⟩

theorem Versioning.assume (h : Versioning st) (ht : st.AtVersions t) :
    Versioning (st.pushAssumption literal t) := by
  have hconstraints : (st.pushAssumption literal t).hardConstraints = st.hardConstraints := by
    unfold State.pushAssumption
    split <;> rfl
  have hversions : (st.pushAssumption literal t).flattenedNameToVersion =
      st.flattenedNameToVersion := by
    unfold State.pushAssumption
    split <;> rfl
  have hdefines : ∀ l n e, (st.pushAssumption literal t).Defines l n e ↔ st.Defines l n e := by
    intro l n e
    unfold State.Defines
    rw [hconstraints]
  have hwrites : ∀ n, (st.pushAssumption literal t).Writes n ↔ st.Writes n := by
    intro n
    unfold State.Writes
    simp only [hdefines]
  constructor
  · intro f v hv
    rw [hversions] at hv
    exact (h.current f v hv).mono fun n => (hwrites n).mpr
  · intro e he
    apply State.AtVersions.mono fun n => (hwrites n).mpr
    rcases he with ⟨l, u, hu, rfl⟩ | ⟨l, n, he⟩
    · rcases hu.of_pushAssumption with hu | rfl
      · exact h.terms _ (Or.inl ⟨l, u, hu, rfl⟩)
      · exact ht
    · exact h.terms e (Or.inr ⟨l, n, (hdefines l n e).mp he⟩)
  · exact fun n hn => h.names n ((hwrites n).mp hn)

/-- A term over current versions, or over the one that is written, is filed for a version. -/
theorem Versioning.write (h : Versioning st)
    (hst : st.setVersion name version = .ok st') {σ : String → ℕ}
    (he : ∀ k ∈ e.2.occurrences, ∃ f, k.2 = versioned f (σ f) ∧
      (st.Settled f (σ f) ∨ versioned f (σ f) = versioned name version)) :
    Versioning (st'.pushHardConstraint literal (versioned name version) e) := by
  unfold State.setVersion at hst
  split at hst
  · cases hst
    have hwrites : ∀ n, st.Writes n → (State.pushHardConstraint literal (versioned name version) e
        { st with flattenedNameToVersion :=
          st.flattenedNameToVersion.assign name version }).Writes n := by
      rintro n ⟨l, e', hn⟩
      exact ⟨l, e', State.Defines.push hn⟩
    have hversions : (State.pushHardConstraint literal (versioned name version) e
        { st with flattenedNameToVersion :=
          st.flattenedNameToVersion.assign name version }).flattenedNameToVersion =
        st.flattenedNameToVersion.assign name version := by
      unfold State.pushHardConstraint
      split <;> rfl
    have hassumptions : (State.pushHardConstraint literal (versioned name version) e
        { st with flattenedNameToVersion :=
          st.flattenedNameToVersion.assign name version }).assumptions = st.assumptions := by
      unfold State.pushHardConstraint
      split <;> rfl
    constructor
    · intro f v hv
      rw [hversions, OrderedMap.find?_assign] at hv
      split_ifs at hv with hf
      · cases hv
        rw [hf]
        exact Or.inr State.writes_push
      · exact (h.current f v hv).mono hwrites
    · rintro e' (⟨l, u, hu, rfl⟩ | ⟨l, n, he'⟩)
      · unfold State.Assumes at hu
        rw [hassumptions] at hu
        exact (h.terms _ (Or.inl ⟨l, u, hu, rfl⟩)).mono hwrites
      · rcases he'.of_push with he' | ⟨-, rfl⟩
        · exact (h.terms e' (Or.inr ⟨l, n, he'⟩)).mono hwrites
        · refine ⟨σ, fun k hk => ?_⟩
          obtain ⟨f, hkey, hσ⟩ := he k hk
          refine ⟨f, hkey, ?_⟩
          rcases hσ with hσ | hσ
          · exact hσ.mono hwrites
          · rw [State.Settled, hσ]
            exact Or.inr State.writes_push
    · rintro n ⟨l, e', hn⟩
      rcases hn.of_push with hn | ⟨rfl, -⟩
      · exact h.names n ⟨l, e', hn⟩
      · exact ⟨name, version, rfl⟩
  · cases hst

end Filing

section Execution

variable {simplifier : Simplifier String} {solver : Solver String} {p : Program}
variable {callee frame : Frame} {c c' : Context} {versions versions' : Versions} {g g' : Engine}

/-- What a context on the stack is: a path through its unit. -/
structure PathContext (callee : Frame) (c : Context) : Prop where
  getFrame : c.getFrame = .ok callee
  traced : ∃ trail, Traced (literalName callee.scope callee.cfg.entryLabel) c.state trail
  versioning : Versioning c.state

theorem PathContext.initial (h : initialContext frame callee = .ok c) : PathContext callee c := by
  obtain ⟨v, -, h⟩ := bind_eq_ok h
  cases h
  have hassumes : ∀ l, ¬ State.FiledUnder
      ⟨v, literalName callee.scope callee.cfg.entryLabel, OrderedMap.empty.emplace
        (literalName callee.scope callee.cfg.entryLabel) [.booleanValue true], .empty, .empty,
        OrderedMap.empty.emplaceAll (callee.cfg.interface.map fun v =>
          (callee.scope ++ "." ++ v.name, 0))⟩ l := by
    rintro l (h | h) <;> cases h
  refine ⟨rfl, ⟨[], .single ?_, fun l hl => absurd hl (hassumes l)⟩, ?_, ?_, ?_⟩
  · rw [OrderedMap.find?_emplace_self _ rfl]
    rfl
  · intro f v hv
    dsimp only at hv
    rw [OrderedMap.find?_emplaceAll, OrderedMap.find?_empty, Option.none_or] at hv
    obtain ⟨w, -, hw⟩ := List.mem_map.mp (OrderedMap.mem_of_lookup hv)
    exact Or.inl (congrArg Prod.snd hw).symm
  · rintro e (⟨l, t, ht, -⟩ | ⟨l, n, hn⟩)
    · cases ht
    · cases hn
  · rintro n ⟨l, e, hn⟩
    cases hn

def currentVersion (c : Context) (flattenedName : String) : ℕ :=
  (c.state.flattenedNameToVersion.find? flattenedName).getD 0

theorem Versioning.encode (h : Versioning c.state) {e : Expression} {u : SortedTerm String}
    (hu : (executor simplifier solver).encode callee c e = .ok u) :
    ∀ k ∈ u.2.occurrences, ∃ f, k.2 = versioned f (currentVersion c f) ∧
      c.state.Settled f (currentVersion c f) := by
  intro k hk
  obtain ⟨r, -, u', hu', hk⟩ := Encoder.encode_occurrences e hu k hk
  obtain ⟨version, hversion, hu'⟩ := bind_eq_ok hu'
  obtain ⟨s, -, hu'⟩ := bind_eq_ok hu'
  cases hu'
  obtain rfl := List.mem_singleton.mp hk
  unfold State.getVersion at hversion
  split at hversion
  · rename_i hfind
    cases hversion
    refine ⟨callee.scope ++ "." ++ r.getName, ?_⟩
    unfold currentVersion
    rw [hfind]
    exact ⟨rfl, h.current _ _ hfind⟩
  · cases hversion

theorem PathContext.enter (h : PathContext callee c) {st : State} {literal : String}
    {vertex : Vertex} (hst : c.state.enter false literal vertex = .ok st) :
    PathContext callee { c with state := st } := by
  obtain ⟨st', hst', hst⟩ := bind_eq_ok hst
  obtain ⟨hnew, rfl⟩ := pushAssumptionLiteral_eq hst'
  cases hst
  obtain ⟨trail, htraced⟩ := h.traced
  exact ⟨h.getFrame, ⟨_, htraced.push hnew rfl rfl fun _ hk => Or.inl hk⟩,
    h.versioning.of_eq rfl rfl rfl⟩

theorem PathContext.write (h : PathContext callee c) {name : String} {version : ℕ}
    {e : SortedTerm String} {σ : String → ℕ}
    (he : ∀ k ∈ e.2.occurrences, ∃ f, k.2 = versioned f (σ f) ∧
      (c.state.Settled f (σ f) ∨ versioned f (σ f) = versioned name version))
    (hc' : (executor simplifier solver).write callee name version e versions c =
      .ok (versions', c')) : PathContext callee c' := by
  unfold Executor.write at hc'
  obtain ⟨st, hst, hc'⟩ := bind_eq_ok hc'
  obtain ⟨edge, -, hc'⟩ := bind_eq_ok hc'
  obtain ⟨next, -, hc'⟩ := bind_eq_ok hc'
  obtain ⟨st', hst', hc'⟩ := bind_eq_ok hc'
  cases hc'
  have hsame : st.assumptionLiteral = c.state.assumptionLiteral ∧
      st.assumptionLiterals = c.state.assumptionLiterals ∧
      ∀ l, st.FiledUnder l ↔ c.state.FiledUnder l := by
    unfold State.setVersion at hst
    split at hst
    · cases hst
      exact ⟨rfl, rfl, fun l => Iff.rfl⟩
    · cases hst
  obtain ⟨-, hliteral, hliterals⟩ := State.pushHardConstraint_eq st.assumptionLiteral
    (versioned name version) e st
  obtain ⟨trail, htraced⟩ := h.traced
  have hpushed : PathContext callee { c with
      state := st.pushHardConstraint st.assumptionLiteral (versioned name version) e } := by
    refine ⟨h.getFrame, ⟨trail, ?_, ?_⟩, h.versioning.write hst he⟩
    · rw [hliteral, hliterals, hsame.1, hsame.2.1]
      exact htraced.chain
    · intro l hl
      rw [hliteral, hsame.1]
      rcases hl.of_push with hl | rfl
      · exact htraced.filed l ((hsame.2.2 l).mp hl)
      · rw [hsame.1]
        exact List.mem_cons_self
  exact hpushed.enter hst'

theorem PathContext.take (h : PathContext callee c) {literal : String} {vertex : Vertex}
    {side : Term String .bool} (hside : c.state.AtVersions side)
    (hc' : (executor simplifier solver).take literal vertex side c = .ok c') :
    PathContext callee c' := by
  unfold Executor.take at hc'
  obtain ⟨st, hst, hc'⟩ := bind_eq_ok hc'
  cases hc'
  obtain ⟨hnew, rfl⟩ := pushAssumptionLiteral_eq hst
  obtain ⟨trail, htraced⟩ := h.traced
  have hfiled : ∀ k, (State.pushAssumption literal side { c.state with
      assumptionLiterals := c.state.assumptionLiterals.emplace literal
        [.constant .bool c.state.assumptionLiteral] }).FiledUnder k →
      c.state.FiledUnder k ∨ k = literal := fun k hk => hk.of_pushAssumption
  have hversioning : Versioning (c.state.pushAssumption literal side) :=
    h.versioning.assume hside
  refine ⟨h.getFrame, ⟨_, htraced.push hnew rfl (State.pushAssumption_eq side _) hfiled⟩,
    hversioning.of_eq ?_ ?_ ?_⟩
  all_goals
    unfold State.pushAssumption
    dsimp only
    split <;> rfl

theorem PathContext.execute (h : PathContext callee c) {cs : List Context}
    (hcs : (executor simplifier solver).execute versions c = .ok (versions', cs))
    (hc' : c' ∈ cs) : PathContext callee c' := by
  cases Executor.execute_leads h.getFrame hcs hc' with
  | enter hst => exact h.enter hst
  | assign hencoded hwrite =>
    refine h.write (σ := currentVersion c) (fun k hk => ?_) hwrite
    obtain ⟨f, hkey, hsettled⟩ := h.versioning.encode hencoded k hk
    exact ⟨f, hkey, Or.inl hsettled⟩
  | @havoc _ _ name version _ _ _ hencoded hwrite =>
    obtain ⟨s, -, hencoded⟩ := bind_eq_ok hencoded
    cases hencoded
    -- a havoc writes the constant of the version itself
    refine h.write (σ := fun _ => version) (fun k hk => ?_) hwrite
    obtain rfl := List.mem_singleton.mp hk
    exact ⟨name, rfl, Or.inr rfl⟩
  | take hencoded hside htake =>
    exact h.take ⟨currentVersion c, fun k hk => h.versioning.encode hencoded k (hside hk)⟩ htake

/-- The contexts for the calls are in front of the first vertex of their unit. -/
theorem Engine.initialContexts_initial {vertices : List Vertex} {names : List String}
    {cs : List Context} (h : Engine.initialContexts p frame vertices names = .ok cs) :
    ∀ c ∈ cs, ∃ callee, initialContext frame callee = .ok c := by
  induction vertices generalizing names cs with
  | nil =>
    cases h
    exact fun _ h => absurd h List.not_mem_nil
  | cons vertex vertices ih =>
    unfold Engine.initialContexts at h
    split at h
    · rename_i called _ _ _
      obtain ⟨edge, -, h⟩ := bind_eq_ok h
      cases htype : called.dataType with
      | derivedType typeName =>
        rw [htype] at h
        dsimp only at h
        split at h
        · exact ih h
        · split at h
          · cases h
          · split at h
            · cases h
            · obtain ⟨c, hc, h⟩ := bind_eq_ok h
              obtain ⟨cs', hcs', h⟩ := bind_eq_ok h
              cases h
              rw [List.forall_mem_cons]
              exact ⟨⟨_, hc⟩, ih hcs'⟩
      | int | real | bool | time | safeBool | enumeratedType _ | simpleType _ | inconclusiveType =>
        rw [htype] at h
        cases h
    · exact ih h

theorem Engine.step_contexts {ex : Executor} (h : g.step ex = .ok g') :
    ∃ c rest, g.contexts = c :: rest ∧ ∀ c' ∈ g'.contexts, c' ∈ rest ∨
      ∃ versions cs, ex.execute g.versions c = .ok (versions, cs) ∧ c' ∈ cs := by
  unfold Engine.step at h
  split at h
  · cases h
  · rename_i c rest hcontexts
    refine ⟨c, rest, hcontexts, ?_⟩
    split at h
    · obtain ⟨nameToSummaries, -, h⟩ := bind_eq_ok h
      cases h
      exact fun c' hc' => Or.inl hc'
    · obtain ⟨⟨versions, cs⟩, hexecute, h⟩ := bind_eq_ok h
      cases h
      intro c' hc'
      rcases List.mem_append.mp hc' with hc' | hc'
      · exact Or.inr ⟨versions, cs, hexecute, List.mem_reverse.mp hc'⟩
      · exact Or.inl hc'

theorem Engine.Reachable.pathContext (h : g.Reachable p (executor simplifier solver)) :
    ∀ c ∈ g.contexts, ∃ callee, PathContext callee c := by
  obtain ⟨g₀, hinitial, hrun⟩ := h
  induction hrun with
  | refl =>
    unfold Engine.initial at hinitial
    split_ifs at hinitial
    obtain ⟨cs, hcs, hinitial⟩ := bind_eq_ok hinitial
    cases hinitial
    intro c hc
    obtain ⟨callee, hc⟩ := Engine.initialContexts_initial hcs c (List.mem_reverse.mp hc)
    exact ⟨callee, .initial hc⟩
  | tail _ hstep ih =>
    obtain ⟨c, rest, hcontexts, hnext⟩ := Engine.step_contexts hstep
    rw [hcontexts, List.forall_mem_cons] at ih
    intro c' hc'
    rcases hnext c' hc' with hc' | ⟨versions, cs, hexecute, hc'⟩
    · exact ih.2 c' hc'
    · obtain ⟨callee, hc⟩ := ih.1
      exact ⟨callee, hc.execute hexecute hc'⟩

end Execution

end Ahorn.Summarization
