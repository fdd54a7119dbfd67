import Mathlib.Data.List.Forall2
import Mathlib.Data.Set.Basic
import Ahorn.CallTrees

set_option autoImplicit false

/-!
# Runs of units that call each other

A vertex of a unit carries actions, which are executed one after the other. Calls push a frame, and
the exit of a unit pops it again. If the vertices of one graph stand for chains of vertices of
another, both have the same traces.
-/
namespace Ahorn

structure FlowGraph (ν α : Type) where
  actions : ν → Option (List α)
  /-- Where control may go, unconditionally or with the outcome of a decision. -/
  next : ν → Option Bool → ν → Prop
  /-- The entry of a callee, and where control continues behind the call. -/
  call : ν → ν → ν → Prop
  entry : ν
  exit : ν

inductive Event (α : Type) where
  | executed (a : α)
  | decided (outcome : Bool)
  | called (name : String)
  | returned

/-- A unit in which control stands at a vertex with actions still to execute. -/
structure CallFrame (ν α γ : Type) where
  unit : CallTree γ
  vertex : ν
  pending : List α

variable {ν α γ δ : Type}

/-- One step of the frames, the innermost one first, with what is seen of it. The frame of a caller
waits behind the call. -/
inductive CallStep (flow : γ → FlowGraph ν α) :
    List (CallFrame ν α γ) → List (Event α) → List (CallFrame ν α γ) → Prop
  | execute {t : CallTree γ} {v : ν} {a : α} {as : List α} {fs : List (CallFrame ν α γ)} :
      CallStep flow (⟨t, v, a :: as⟩ :: fs) [.executed a] (⟨t, v, as⟩ :: fs)
  | next {t : CallTree γ} {v w : ν} {d : Option Bool} {as : List α} {fs : List (CallFrame ν α γ)} :
      (flow t.root).next v d w → (flow t.root).actions w = some as →
      CallStep flow (⟨t, v, []⟩ :: fs) (d.toList.map .decided) (⟨t, w, as⟩ :: fs)
  | call {t c : CallTree γ} {v r : ν} {as bs : List α} {fs : List (CallFrame ν α γ)} :
      c ∈ t.callees → (flow t.root).call v (flow c.root).entry r →
      (flow c.root).actions (flow c.root).entry = some as → (flow t.root).actions r = some bs →
      CallStep flow (⟨t, v, []⟩ :: fs) [.called c.name]
        (⟨c, (flow c.root).entry, as⟩ :: ⟨t, r, bs⟩ :: fs)
  | exit {t : CallTree γ} {fs : List (CallFrame ν α γ)} :
      CallStep flow (⟨t, (flow t.root).exit, []⟩ :: fs) [.returned] fs

/-- The runs of a unit from its entry. -/
inductive CallRun (flow : γ → FlowGraph ν α) (t : CallTree γ) :
    List (Event α) → List (CallFrame ν α γ) → Prop
  | start {as : List α} : (flow t.root).actions (flow t.root).entry = some as →
      CallRun flow t [] [⟨t, (flow t.root).entry, as⟩]
  | step {es es' : List (Event α)} {fs fs' : List (CallFrame ν α γ)} : CallRun flow t es fs →
      CallStep flow fs es' fs' → CallRun flow t (es ++ es') fs'

def CallTree.traces (flow : γ → FlowGraph ν α) (t : CallTree γ) : Set (List (Event α)) :=
  {es | ∃ fs, CallRun flow t es fs}

namespace FlowGraph

def actionsOf (g : FlowGraph ν α) (vs : List ν) : List α :=
  vs.flatMap fun v => (g.actions v).getD []

/-- A vertex of `g'` stands for a chain of vertices of `g`. -/
structure Contracts (g g' : FlowGraph ν α) (block : ν → List ν) : Prop where
  entry : g'.entry = g.entry
  exit : g'.exit = g.exit
  starts : (g'.actions g'.entry).isSome
  begins : ∀ {v}, (g'.actions v).isSome → ∃ rest, block v = v :: rest
  actions : ∀ {v as}, g'.actions v = some as → as = g.actionsOf (block v) ∧
    ∀ w ∈ block v, (g.actions w).isSome
  inner : ∀ {v pre a b suf}, (g'.actions v).isSome → block v = pre ++ a :: b :: suf →
    (∀ d w, g.next a d w ↔ d = none ∧ w = b) ∧ (∀ e r, ¬ g.call a e r) ∧ a ≠ g.exit
  last : ∀ {v pre a}, (g'.actions v).isSome → block v = pre ++ [a] →
    (∀ d w, g'.next v d w ↔ g.next a d w) ∧ (∀ e r, g'.call v e r ↔ g.call a e r) ∧
      (v = g.exit ↔ a = g.exit)
  targets : ∀ {v pre a}, (g'.actions v).isSome → block v = pre ++ [a] →
    (∀ d w, g.next a d w → (g.actions w).isSome → (g'.actions w).isSome) ∧
      ∀ e r, g.call a e r → (g'.actions r).isSome

end FlowGraph

section Contraction

variable (flow : γ → FlowGraph ν α) (flow' : δ → FlowGraph ν α)

def Contracted (g : γ) (g' : δ) : Prop := ∃ block, (flow g).Contracts (flow' g') block

/-- Control stands at a vertex of the chain that the other frame is at, with the same still to
execute. -/
structure CallFrame.Matches (f : CallFrame ν α γ) (f' : CallFrame ν α δ) (block : ν → List ν)
    (pre rest : List ν) : Prop where
  units : f.unit.Rel (Contracted flow flow') f'.unit
  contracts : (flow f.unit.root).Contracts (flow' f'.unit.root) block
  vertex : ((flow' f'.unit.root).actions f'.vertex).isSome
  block : block f'.vertex = pre ++ f.vertex :: rest
  pending : f'.pending = f.pending ++ (flow f.unit.root).actionsOf rest

def CallFrame.Contracts (f : CallFrame ν α γ) (f' : CallFrame ν α δ) : Prop :=
  ∃ block pre rest, f.Matches flow flow' f' block pre rest

variable {flow flow'}

theorem Contracted.frame {t : CallTree γ} {t' : CallTree δ}
    (h : t.Rel (Contracted flow flow') t') {v : ν} {as' : List α}
    (hv : (flow' t'.root).actions v = some as') : ∃ as, (flow t.root).actions v = some as ∧
      CallFrame.Contracts flow flow' ⟨t, v, as⟩ ⟨t', v, as'⟩ := by
  obtain ⟨-, ⟨block, hc⟩, -⟩ := h.cases
  have hsome : ((flow' t'.root).actions v).isSome := by rw [hv]; rfl
  obtain ⟨rest, hblock⟩ := hc.begins hsome
  obtain ⟨hactions, hvertices⟩ := hc.actions hv
  obtain ⟨as, has⟩ := Option.isSome_iff_exists.mp
    (hvertices v (by rw [hblock]; exact List.mem_cons_self))
  refine ⟨as, has, block, [], rest, h, hc, hsome, hblock, ?_⟩
  rw [hactions, hblock]
  simp [FlowGraph.actionsOf, has]

/-- What the one graph does, the other does too, or it stays inside a chain. -/
theorem CallStep.contract {fs gs : List (CallFrame ν α γ)} {es : List (Event α)}
    (h : CallStep flow fs es gs) {fs' : List (CallFrame ν α δ)}
    (hfs : List.Forall₂ (CallFrame.Contracts flow flow') fs fs') :
    ∃ gs', (CallStep flow' fs' es gs' ∨ es = [] ∧ gs' = fs') ∧
      List.Forall₂ (CallFrame.Contracts flow flow') gs gs' := by
  cases hfs with
  | nil => cases h
  | @cons f f' fs fs' hf hfs =>
    obtain ⟨block, pre, rest, hm⟩ := hf
    obtain ⟨t', v', as'⟩ := f'
    have hpending := hm.pending
    cases h with
    | @execute t v a as =>
      simp only [List.cons_append] at hpending
      subst hpending
      exact ⟨_, Or.inl .execute, .cons ⟨block, pre, rest, hm.units, hm.contracts, hm.vertex,
        hm.block, rfl⟩ hfs⟩
    | @next t v w d as _ hnext has =>
      cases rest with
      | nil =>
        simp only [FlowGraph.actionsOf, List.nil_append, List.flatMap_nil] at hpending
        subst hpending
        obtain ⟨hiff, -, -⟩ := hm.contracts.last hm.vertex hm.block
        obtain ⟨hsome, -⟩ := hm.contracts.targets hm.vertex hm.block
        obtain ⟨bs, hbs⟩ := Option.isSome_iff_exists.mp (hsome d w hnext (by rw [has]; rfl))
        obtain ⟨as₁, has₁, hframe⟩ := Contracted.frame hm.units hbs
        rw [has] at has₁
        cases has₁
        exact ⟨_, Or.inl (.next ((hiff d w).mpr hnext) hbs), .cons hframe hfs⟩
      | cons b rest =>
        obtain ⟨hiff, -, -⟩ := hm.contracts.inner hm.vertex hm.block
        obtain ⟨rfl, rfl⟩ := (hiff d w).mp hnext
        refine ⟨_, Or.inr ⟨rfl, rfl⟩, .cons ⟨block, pre ++ [v], rest, hm.units, hm.contracts,
          hm.vertex, ?_, ?_⟩ hfs⟩
        · rw [hm.block]
          simp
        · rw [hpending]
          simp [FlowGraph.actionsOf, has]
    | @call t c v r as bs _ hc hcall has hbs =>
      cases rest with
      | nil =>
        simp only [FlowGraph.actionsOf, List.nil_append, List.flatMap_nil] at hpending
        subst hpending
        obtain ⟨-, -, hcallees⟩ := hm.units.cases
        obtain ⟨c', hc', hrel⟩ := exists_of_forall₂ hcallees hc
        obtain ⟨hname, ⟨block', hcc⟩, -⟩ := hrel.cases
        obtain ⟨-, hiff, -⟩ := hm.contracts.last hm.vertex hm.block
        obtain ⟨-, hsome⟩ := hm.contracts.targets hm.vertex hm.block
        obtain ⟨as₁, has₁⟩ := Option.isSome_iff_exists.mp hcc.starts
        obtain ⟨bs₁, hbs₁⟩ := Option.isSome_iff_exists.mp (hsome _ r hcall)
        obtain ⟨as₂, has₂, hcallee⟩ := Contracted.frame hrel has₁
        obtain ⟨bs₂, hbs₂, hcaller⟩ := Contracted.frame hm.units hbs₁
        have hentry := hcc.entry
        rw [hentry, has] at has₂
        rw [hbs] at hbs₂
        cases has₂
        cases hbs₂
        have hcallee' : CallFrame.Contracts flow flow' ⟨c, (flow c.root).entry, as⟩
            ⟨c', (flow' c'.root).entry, as₁⟩ := by
          rw [hentry] at hcallee ⊢
          exact hcallee
        refine ⟨_, Or.inl ?_, .cons hcallee' (.cons hcaller hfs)⟩
        rw [← hname]
        exact .call hc' ((hiff _ r).mpr (hentry ▸ hcall)) has₁ hbs₁
      | cons b rest =>
        obtain ⟨-, hno, -⟩ := hm.contracts.inner hm.vertex hm.block
        exact absurd hcall (hno _ _)
    | @exit t =>
      cases rest with
      | nil =>
        simp only [FlowGraph.actionsOf, List.nil_append, List.flatMap_nil] at hpending
        subst hpending
        obtain ⟨-, -, hexit⟩ := hm.contracts.last hm.vertex hm.block
        have hv : v' = (flow' t'.root).exit := by
          rw [hm.contracts.exit]
          exact hexit.mpr rfl
        subst hv
        exact ⟨_, Or.inl .exit, hfs⟩
      | cons b rest =>
        obtain ⟨-, -, hne⟩ := hm.contracts.inner hm.vertex hm.block
        exact absurd rfl hne

theorem CallRun.advance {t : CallTree γ} {es : List (Event α)} {rest : List ν} :
    ∀ {f : CallFrame ν α γ} {fs : List (CallFrame ν α γ)} {f' : CallFrame ν α δ} {block : ν → List ν}
      {pre : List ν}, CallRun flow t es (f :: fs) → f.Matches flow flow' f' block pre rest →
      ∃ g pre' rest', CallRun flow t es (g :: fs) ∧ g.Matches flow flow' f' block pre' rest' ∧
        (rest' = [] ∨ g.pending ≠ []) := by
  induction rest with
  | nil => exact fun hrun hm => ⟨_, _, [], hrun, hm, Or.inl rfl⟩
  | cons b rest ih =>
    rintro ⟨u, v, as⟩ fs ⟨u', v', as'⟩ block pre hrun hm
    cases as with
    | cons a as => exact ⟨_, pre, b :: rest, hrun, hm, Or.inr (List.cons_ne_nil _ _)⟩
    | nil =>
      obtain ⟨hiff, -, -⟩ := hm.contracts.inner hm.vertex hm.block
      obtain ⟨bs', hbs'⟩ := Option.isSome_iff_exists.mp hm.vertex
      obtain ⟨bs, hbs⟩ := Option.isSome_iff_exists.mp ((hm.contracts.actions hbs').2 b (by
        rw [hm.block]
        simp))
      have hrun' : CallRun flow t es (⟨u, b, bs⟩ :: fs) := by
        have hstep := hrun.step (.next ((hiff none b).mpr ⟨rfl, rfl⟩) hbs)
        simpa using hstep
      refine @ih _ _ _ _ (pre ++ [v]) hrun' ?_
      refine ⟨hm.units, hm.contracts, hm.vertex, ?_, ?_⟩
      · rw [hm.block]
        simp
      · have hpending := hm.pending
        simp only at hpending
        rw [hpending]
        simp [FlowGraph.actionsOf, hbs]

/-- What the graph of chains does, the other does too once it has gone on. -/
theorem CallRun.follow {t : CallTree γ} {es es' : List (Event α)} {fs : List (CallFrame ν α γ)}
    {fs' gs' : List (CallFrame ν α δ)} (hrun : CallRun flow t es fs)
    (hfs : List.Forall₂ (CallFrame.Contracts flow flow') fs fs') (h : CallStep flow' fs' es' gs') :
    ∃ gs, CallRun flow t (es ++ es') gs ∧
      List.Forall₂ (CallFrame.Contracts flow flow') gs gs' := by
  cases hfs with
  | nil => cases h
  | @cons f f' fs fs' hf hfs =>
    obtain ⟨block, pre, rest, hm⟩ := hf
    obtain ⟨⟨u, v, as⟩, pre, rest, hrun, hm, hend⟩ := hrun.advance hm
    have hpending := hm.pending
    cases as with
    | cons a as =>
      cases h with
      | @execute t' v' a' as' =>
        obtain ⟨rfl, rfl⟩ := List.cons.inj hpending
        exact ⟨_, hrun.step .execute, .cons ⟨block, pre, rest, hm.units, hm.contracts, hm.vertex,
          hm.block, rfl⟩ hfs⟩
      | next _ _ => cases hpending
      | call _ _ _ _ => cases hpending
      | exit => cases hpending
    | nil =>
      obtain rfl := hend.resolve_right (fun hne => hne rfl)
      obtain ⟨hnext, hcalls, hexit⟩ := hm.contracts.last hm.vertex hm.block
      cases h with
      | execute => cases hpending
      | @next t' v' w d as' _ hnext' has' =>
        obtain ⟨as, has, hframe⟩ := Contracted.frame hm.units has'
        exact ⟨_, hrun.step (.next ((hnext d w).mp hnext') has), .cons hframe hfs⟩
      | @call t' c' v' r as' bs' _ hc' hcall' has' hbs' =>
        obtain ⟨-, -, hcallees⟩ := hm.units.cases
        obtain ⟨c, hc, hrel⟩ := exists_of_forall₂ hcallees.flip hc'
        obtain ⟨hname, ⟨block', hcc⟩, -⟩ := hrel.cases
        obtain ⟨as, has, hcallee⟩ := Contracted.frame hrel has'
        obtain ⟨bs, hbs, hcaller⟩ := Contracted.frame hm.units hbs'
        have hentry := hcc.entry
        have hcallee' : CallFrame.Contracts flow flow' ⟨c, (flow c.root).entry, as⟩
            ⟨c', (flow' c'.root).entry, as'⟩ := by
          rw [hentry] at hcallee ⊢
          exact hcallee
        rw [hentry] at hcall' has
        refine ⟨_, ?_, .cons hcallee' (.cons hcaller hfs)⟩
        rw [hname]
        exact hrun.step (.call hc ((hcalls _ r).mp hcall') has hbs)
      | @exit t' =>
        have hv : v = (flow u.root).exit := hexit.mp hm.contracts.exit
        subst hv
        exact ⟨_, hrun.step .exit, hfs⟩

/-- A tree and the tree of its chains have the same traces. -/
theorem CallTree.traces_contract {t : CallTree γ} {t' : CallTree δ}
    (h : t.Rel (Contracted flow flow') t') : t'.traces flow' = t.traces flow := by
  obtain ⟨-, ⟨block, hc⟩, -⟩ := h.cases
  obtain ⟨as', has'⟩ := Option.isSome_iff_exists.mp hc.starts
  obtain ⟨as, has, hframe⟩ := Contracted.frame h has'
  ext es
  constructor
  · rintro ⟨fs', hrun'⟩
    suffices ∃ fs, CallRun flow t es fs ∧ List.Forall₂ (CallFrame.Contracts flow flow') fs fs' from
      let ⟨fs, hrun, _⟩ := this; ⟨fs, hrun⟩
    induction hrun' with
    | start hstart =>
      rw [has'] at hstart
      cases hstart
      rw [hc.entry] at has hframe ⊢
      exact ⟨_, .start has, .cons hframe .nil⟩
    | step _ hstep ih =>
      obtain ⟨fs, hrun, hfs⟩ := ih
      exact hrun.follow hfs hstep
  · rintro ⟨fs, hrun⟩
    suffices ∃ fs', CallRun flow' t' es fs' ∧ List.Forall₂ (CallFrame.Contracts flow flow') fs fs' from
      let ⟨fs', hrun', _⟩ := this; ⟨fs', hrun'⟩
    induction hrun with
    | start hstart =>
      rw [hc.entry] at has
      rw [has] at hstart
      cases hstart
      exact ⟨_, .start has', .cons (hc.entry ▸ hframe) .nil⟩
    | step _ hstep ih =>
      obtain ⟨fs', hrun', hfs⟩ := ih
      obtain ⟨gs', hstep' | ⟨rfl, rfl⟩, hgs⟩ := hstep.contract hfs
      · exact ⟨gs', hrun'.step hstep', hgs⟩
      · refine ⟨_, ?_, hgs⟩
        rw [List.append_nil]
        exact hrun'

end Contraction

end Ahorn
