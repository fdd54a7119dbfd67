import Mathlib.Data.List.Chain
import Mathlib.Logic.Relation
import Ahorn.CallTrees
import Ahorn.ControlFlowGraph
import Ahorn.Results

set_option autoImplicit false

/-!
# Simulation of test cases

The simulator executes a test case cycle by cycle and records the labels on the way, those of one
scope together. The valuations decide nothing but the conditions of the branches, so a step is given
what the condition evaluates to.
-/
namespace Ahorn

/-- A unit calls another one, directly or not, or is the same. -/
def CallTree.Reaches {γ : Type} : CallTree γ → CallTree γ → Prop :=
  Relation.ReflTransGen fun t callee => callee ∈ t.callees

/-- A vertex whose instruction chooses among its outgoing edges. -/
def Vertex.IsBranch (v : Vertex) : Prop :=
  v.type = .regular ∧ ∃ e l₁ l₂, v.instruction = some (.ifInstruction e l₁ l₂) ∨
    v.instruction = some (.whileInstruction e l₁ l₂)

/-- A regular vertex holds an instruction that is executed by itself. -/
def Vertex.Executable (v : Vertex) : Prop :=
  v.type = .regular → ∃ i, v.instruction = some i ∧ ∀ l, i ≠ .gotoInstruction l

/-- A program with the units it calls. Units are told apart by their names, and by the labels of
their vertices. -/
structure ShadowProgram where
  main : CallTree UnitCfg
  named : ∀ {t u : CallTree UnitCfg}, main.Reaches t → main.Reaches u → t.name = u.name → t = u
  labelled : ∀ {t u : CallTree UnitCfg} {l : ℤ}, main.Reaches t → main.Reaches u →
    l ∈ t.root.labelToVertex.keys → l ∈ u.root.labelToVertex.keys → t = u
  executable : ∀ {t : CallTree UnitCfg} {l : ℤ} {v : Vertex}, main.Reaches t →
    t.root.labelToVertex.find? l = some v → v.label = l ∧ v.Executable
  branching : ∀ {t : CallTree UnitCfg} {v : Vertex} {e : Edge}, main.Reaches t →
    t.root.labelToVertex.find? e.sourceLabel = some v → v.IsBranch → e ∈ t.root.edges →
    e.type = .trueBranch ∨ e.type = .falseBranch

namespace Simulator

structure Frame where
  unit : CallTree UnitCfg
  scope : String
  returnLabel : ℤ

def Frame.cfg (f : Frame) : Cfg := f.unit.root.toCfg

/-- The frame is the one on top of the call stack, with those of the callers below. -/
structure Context where
  cycle : ℕ
  label : ℤ
  frame : Frame
  callers : List Frame

def Context.moveTo (label : ℤ) (c : Context) : Except String Context := do
  let _ ← c.frame.cfg.getVertex label
  .ok { c with label := label }

def visitCall (called : Variable) (c : Context) : Except String Context := do
  let intraproceduralEdge ← c.frame.cfg.getIntraproceduralCallToReturnEdge c.label
  let interproceduralEdge ← c.frame.cfg.getInterproceduralCallEdge c.label
  match called.dataType with
  | .derivedType typeName =>
    match c.frame.unit.callees.find? (·.name = typeName) with
    | none => .error ("No type representative cfg for " ++ typeName ++ " exists.")
    | some callee =>
      let calleeFrame : Frame :=
        ⟨callee, c.frame.scope ++ "." ++ called.name, intraproceduralEdge.targetLabel⟩
      Context.moveTo interproceduralEdge.targetLabel
        { c with frame := calleeFrame, callers := c.frame :: c.callers }
  | _ => .error "assertion failed"

def visitIf (condition : Bool) (c : Context) : Except String Context := do
  let trueEdge ← c.frame.cfg.getTrueEdge c.label
  let positive ← c.moveTo trueEdge.targetLabel
  let falseEdge ← c.frame.cfg.getFalseEdge c.label
  let negative ← c.moveTo falseEdge.targetLabel
  .ok (if condition then positive else negative)

def visit (condition : Bool) (c : Context) : Instruction → Except String Context
  | .assignmentInstruction _ _ _ | .havocInstruction _ => do
    let edge ← c.frame.cfg.getIntraproceduralEdge c.label
    c.moveTo edge.targetLabel
  | .callInstruction called _ _ => visitCall called c
  | .ifInstruction _ _ _ => visitIf condition c
  | .whileInstruction _ _ _ | .gotoInstruction _ => .error "Not implemented yet."

def handleEntryVertex (c : Context) : Except String Context :=
  match c.frame.unit.root.type with
  | .function => .error "Not implemented yet."
  | _ => do
    let next ← c.frame.cfg.getOnlySuccessor c.label
    c.moveTo next.label

def handleExitVertex (c : Context) : Except String Context :=
  match c.frame.unit.root.type with
  | .program => Context.moveTo c.frame.returnLabel { c with cycle := c.cycle + 1 }
  | .functionBlock =>
    match c.callers with
    | [] => .error "assertion failed"
    | caller :: callers =>
      Context.moveTo c.frame.returnLabel { c with frame := caller, callers := callers }
  | .function => .error "Not implemented yet."

def handleVertex (condition : Bool) (c : Context) (vertex : Vertex) : Except String Context :=
  match vertex.type with
  | .entry => handleEntryVertex c
  | .regular =>
    match vertex.instruction with
    | none => .error "assertion failed: instruction != nullptr"
    | some i => visit condition c i
  | .exit => handleExitVertex c

/-- One vertex; the condition counts at a branch. -/
def execute (condition : Bool) (c : Context) : Except String Context := do
  let vertex ← c.frame.cfg.getVertex c.label
  handleVertex condition c vertex

/-- The contexts that are executed until the cycle ends, and the one it ends with. -/
inductive Steps (cycle : ℕ) : Context → List Context → Context → Prop where
  | done {c : Context} : c.cycle ≠ cycle → Steps cycle c [] c
  | next {c c' final : Context} {visits : List Context} {condition : Bool} : c.cycle = cycle →
      execute condition c = .ok c' → Steps cycle c' visits final →
      Steps cycle c (c :: visits) final

/-- The contexts that are executed in each of the cycles from one on. -/
inductive Runs : ℕ → Context → List (List Context) → Prop where
  | done {cycle : ℕ} {c : Context} : Runs cycle c []
  | next {cycle : ℕ} {c c' : Context} {visits : List Context} {rest : List (List Context)} :
      Steps cycle c visits c' → Runs (cycle + 1) c' rest → Runs cycle c (visits :: rest)

/-- Labels that are executed one after the other in one scope. -/
structure Stretch where
  scope : String
  cfg : Cfg
  labels : List ℤ

abbrev History := OrderedMap ℕ (List Stretch)

def Stretch.of (c : Context) : Stretch := ⟨c.frame.scope, c.frame.cfg, [c.label]⟩

def extend (c : Context) : List Stretch → List Stretch
  | [] => [.of c]
  | [s] => if s.scope = c.frame.scope then [{ s with labels := s.labels ++ [c.label] }] else [s, .of c]
  | s :: stretches => s :: extend c stretches

def record (history : History) (c : Context) : History :=
  match history.find? c.cycle with
  | none => history.emplace c.cycle [.of c]
  | some stretches => history.assign c.cycle (extend c stretches)

def executionHistory (visits : List (List Context)) : History := visits.flatten.foldl record .empty

section Steps

variable {condition : Bool} {label : ℤ} {c c' : Context}

theorem moveTo_eq (h : c.moveTo label = .ok c') : c' = { c with label := label } := by
  obtain ⟨_, -, h⟩ := bind_eq_ok h
  exact (Except.ok.inj h).symm

/-- What a step does to the call stack and the cycle. -/
inductive Moves (c c' : Context) : Prop where
  | within : c'.frame = c.frame → c'.callers = c.callers →
      c'.cycle = c.cycle ∨ c'.cycle = c.cycle + 1 → Moves c c'
  | call (name : String) : c'.cycle = c.cycle → c'.frame.unit ∈ c.frame.unit.callees →
      c'.frame.scope = c.frame.scope ++ "." ++ name → c'.callers = c.frame :: c.callers → Moves c c'
  | back : c'.cycle = c.cycle → c.callers = c'.frame :: c'.callers → Moves c c'

theorem visitCall_moves {called : Variable} (h : visitCall called c = .ok c') : Moves c c' := by
  obtain ⟨intraproceduralEdge, -, h⟩ := bind_eq_ok h
  obtain ⟨interproceduralEdge, -, h⟩ := bind_eq_ok h
  cases htype : called.dataType with
  | derivedType typeName =>
    rw [htype] at h
    dsimp only at h
    cases hcallee : c.frame.unit.callees.find? (·.name = typeName) with
    | none =>
      rw [hcallee] at h
      cases h
    | some callee =>
      rw [hcallee] at h
      have heq := moveTo_eq h
      subst heq
      exact .call called.name rfl (List.mem_of_find?_eq_some hcallee) rfl rfl
  | _ =>
    rw [htype] at h
    cases h

theorem visitIf_stays (h : visitIf condition c = .ok c') :
    c'.frame = c.frame ∧ c'.callers = c.callers ∧ c'.cycle = c.cycle := by
  obtain ⟨trueEdge, -, h⟩ := bind_eq_ok h
  obtain ⟨positive, hpositive, h⟩ := bind_eq_ok h
  obtain ⟨falseEdge, -, h⟩ := bind_eq_ok h
  obtain ⟨negative, hnegative, h⟩ := bind_eq_ok h
  have heq := Except.ok.inj h
  cases condition with
  | true =>
    rw [if_pos rfl, moveTo_eq hpositive] at heq
    subst heq
    exact ⟨rfl, rfl, rfl⟩
  | false =>
    rw [if_neg Bool.false_ne_true, moveTo_eq hnegative] at heq
    subst heq
    exact ⟨rfl, rfl, rfl⟩

theorem visit_moves {i : Instruction} (h : visit condition c i = .ok c') : Moves c c' := by
  have hedge : ∀ {x : Except String Edge}, (x >>= fun edge => c.moveTo edge.targetLabel) = .ok c' →
      Moves c c' := by
    intro x hx
    obtain ⟨edge, -, hmove⟩ := bind_eq_ok hx
    rw [moveTo_eq hmove]
    exact .within rfl rfl (Or.inl rfl)
  cases i with
  | assignmentInstruction type r e => exact hedge h
  | havocInstruction r => exact hedge h
  | callInstruction called l₁ l₂ => exact visitCall_moves h
  | ifInstruction e l₁ l₂ =>
    obtain ⟨hframe, hcallers, hcycle⟩ := visitIf_stays h
    exact .within hframe hcallers (Or.inl hcycle)
  | whileInstruction e l₁ l₂ => cases h
  | gotoInstruction l => cases h

theorem handleEntryVertex_moves (h : handleEntryVertex c = .ok c') : Moves c c' := by
  have hnext : (c.frame.cfg.getOnlySuccessor c.label >>= fun next => c.moveTo next.label) = .ok c' →
      Moves c c' := by
    intro hx
    obtain ⟨next, -, hmove⟩ := bind_eq_ok hx
    rw [moveTo_eq hmove]
    exact .within rfl rfl (Or.inl rfl)
  unfold handleEntryVertex at h
  cases htype : c.frame.unit.root.type with
  | program =>
    rw [htype] at h
    exact hnext h
  | functionBlock =>
    rw [htype] at h
    exact hnext h
  | function =>
    rw [htype] at h
    cases h

theorem handleExitVertex_moves (h : handleExitVertex c = .ok c') : Moves c c' := by
  unfold handleExitVertex at h
  cases htype : c.frame.unit.root.type with
  | program =>
    rw [htype] at h
    rw [moveTo_eq h]
    exact .within rfl rfl (Or.inr rfl)
  | functionBlock =>
    rw [htype] at h
    cases hcallers : c.callers with
    | nil =>
      rw [hcallers] at h
      cases h
    | cons caller callers =>
      rw [hcallers] at h
      rw [moveTo_eq h]
      exact .back rfl hcallers
  | function =>
    rw [htype] at h
    cases h

theorem execute_vertex (h : execute condition c = .ok c') :
    ∃ vertex, c.frame.cfg.labelToVertex.find? c.label = some vertex := by
  obtain ⟨vertex, hvertex, -⟩ := bind_eq_ok h
  unfold Cfg.getVertex at hvertex
  cases hfind : c.frame.cfg.labelToVertex.find? c.label with
  | none =>
    rw [hfind] at hvertex
    cases hvertex
  | some v => exact ⟨v, rfl⟩

theorem execute_eq {vertex : Vertex}
    (hvertex : c.frame.cfg.labelToVertex.find? c.label = some vertex) :
    execute condition c = handleVertex condition c vertex := by
  unfold execute Cfg.getVertex
  rw [hvertex]
  rfl

theorem execute_moves (h : execute condition c = .ok c') : Moves c c' := by
  obtain ⟨vertex, hvertex⟩ := execute_vertex h
  rw [execute_eq hvertex] at h
  unfold handleVertex at h
  cases htype : vertex.type with
  | entry =>
    rw [htype] at h
    exact handleEntryVertex_moves h
  | regular =>
    rw [htype] at h
    cases hinstruction : vertex.instruction with
    | none =>
      rw [hinstruction] at h
      cases h
    | some i =>
      rw [hinstruction] at h
      exact visit_moves h
  | exit =>
    rw [htype] at h
    exact handleExitVertex_moves h

theorem execute_branch {vertex : Vertex}
    (hvertex : c.frame.cfg.labelToVertex.find? c.label = some vertex) (hbranch : vertex.IsBranch)
    (h : execute condition c = .ok c') : c'.frame = c.frame := by
  obtain ⟨htype, e, l₁, l₂, hif | hwhile⟩ := hbranch
  · rw [execute_eq hvertex] at h
    unfold handleVertex at h
    rw [htype, hif] at h
    exact (visitIf_stays h).1
  · rw [execute_eq hvertex] at h
    unfold handleVertex at h
    rw [htype, hwhile] at h
    cases h

end Steps

section Placed

/-- The frames are of units of the program, each in a scope below that of its caller. -/
structure Placed (main : CallTree UnitCfg) (c : Context) : Prop where
  reached : ∀ f ∈ c.frame :: c.callers, main.Reaches f.unit
  nested : (c.frame :: c.callers).IsChain fun f g => ∃ name, f.scope = g.scope ++ "." ++ name

variable {main : CallTree UnitCfg} {condition : Bool} {c c' : Context}

theorem Placed.execute (hc : Placed main c) (h : execute condition c = .ok c') :
    Placed main c' := by
  cases execute_moves h with
  | within hframe hcallers hcycle =>
    constructor
    · rw [hframe, hcallers]
      exact hc.reached
    · rw [hframe, hcallers]
      exact hc.nested
  | call name hcycle hcallee hscope hcallers =>
    constructor
    · rw [hcallers]
      intro f hf
      rcases List.mem_cons.mp hf with rfl | hf
      · exact (hc.reached _ List.mem_cons_self).tail hcallee
      · exact hc.reached f hf
    · rw [hcallers]
      exact hc.nested.cons_cons ⟨name, hscope⟩
  | back hcycle hcallers =>
    constructor
    · intro f hf
      refine hc.reached f (List.mem_cons_of_mem _ ?_)
      rwa [hcallers]
    · have hnested := hc.nested
      rw [hcallers] at hnested
      exact hnested.tail

theorem append_dot_ne (scope name : String) : scope ++ "." ++ name ≠ scope := by
  intro h
  have hlength := congrArg String.length h
  rw [String.length_append, String.length_append] at hlength
  change scope.length + 1 + name.length = scope.length at hlength
  omega

theorem Placed.same_frame (hc : Placed main c) (h : Simulator.execute condition c = .ok c')
    (hscope : c'.frame.scope = c.frame.scope) : c'.frame = c.frame := by
  cases execute_moves h with
  | within hframe hcallers hcycle => exact hframe
  | call name hcycle hcallee hname hcallers =>
    rw [hname] at hscope
    exact absurd hscope (append_dot_ne _ _)
  | back hcycle hcallers =>
    have hnested := hc.nested
    rw [hcallers] at hnested
    obtain ⟨name, hname⟩ := hnested.rel
    rw [hscope] at hname
    exact absurd hname.symm (append_dot_ne _ _)

end Placed

section Visits

/-- The contexts that are executed in a cycle, each by a step from the one before. -/
structure Visited (main : CallTree UnitCfg) (cycle : ℕ) (visits : List Context) : Prop where
  cycle_eq : ∀ v ∈ visits, v.cycle = cycle
  placed : ∀ v ∈ visits, Placed main v
  present : ∀ v ∈ visits, ∃ vertex, v.frame.cfg.labelToVertex.find? v.label = some vertex
  steps : visits.IsChain fun v v' => ∃ condition, execute condition v = .ok v'

variable {main : CallTree UnitCfg} {cycle : ℕ} {c final : Context} {visits : List Context}

theorem Steps.head? (h : Steps cycle c visits final) : ∀ v ∈ visits.head?, v = c := by
  cases h with
  | done hne => simp
  | next hcycle hstep hrest => simp

theorem Steps.visited (h : Steps cycle c visits final) (hc : Placed main c) :
    Visited main cycle visits := by
  induction h with
  | done hne => exact ⟨by simp, by simp, by simp, .nil⟩
  | next hcycle hstep hrest ih =>
    have hvisited := ih (hc.execute hstep)
    refine ⟨List.forall_mem_cons.mpr ⟨hcycle, hvisited.cycle_eq⟩,
      List.forall_mem_cons.mpr ⟨hc, hvisited.placed⟩,
      List.forall_mem_cons.mpr ⟨execute_vertex hstep, hvisited.present⟩, ?_⟩
    refine hvisited.steps.cons fun v hv => ?_
    rw [hrest.head? v hv]
    exact ⟨_, hstep⟩

theorem Steps.ends (h : Steps cycle c visits final) (hc : Placed main c) :
    Placed main final ∧ (c.cycle = cycle → visits ≠ [] ∧ final.cycle = cycle + 1) := by
  induction h with
  | done hne => exact ⟨hc, fun heq => absurd heq hne⟩
  | @next c c' final visits condition hcycle hstep hrest ih =>
    obtain ⟨hfinal, hnext⟩ := ih (hc.execute hstep)
    refine ⟨hfinal, fun _ => ⟨List.cons_ne_nil _ _, ?_⟩⟩
    by_cases heq : c'.cycle = cycle
    · exact (hnext heq).2
    · cases hrest with
      | done hne =>
        cases execute_moves hstep with
        | within hframe hcallers hcases => omega
        | call name hsame hcallee hscope hcallers => omega
        | back hsame hcallers => omega
      | next heq' hstep' hrest' => exact absurd heq' heq

theorem Runs.visited {rest : List (List Context)} (h : Runs cycle c rest) (hc : Placed main c)
    (hcycle : c.cycle = cycle) (i : ℕ) (visits : List Context) (hi : rest[i]? = some visits) :
    Visited main (cycle + i) visits ∧ visits ≠ [] := by
  induction h generalizing i with
  | done => simp at hi
  | next hsteps hrest ih =>
    obtain ⟨hfinal, hnext⟩ := hsteps.ends hc
    obtain ⟨hne, hfinalCycle⟩ := hnext hcycle
    cases i with
    | zero =>
      cases hi
      exact ⟨hsteps.visited hc, hne⟩
    | succ i =>
      have hlater := ih hfinal hfinalCycle i hi
      rwa [Nat.add_assoc, Nat.add_comm 1 i] at hlater

end Visits

section Histories

theorem find?_record (history : History) (c : Context) (cycle : ℕ) :
    (record history c).find? cycle =
      if cycle = c.cycle then some (extend c ((history.find? cycle).getD []))
      else history.find? cycle := by
  unfold record
  cases hfind : history.find? c.cycle with
  | none =>
    dsimp only
    rw [OrderedMap.find?_emplace]
    by_cases hcycle : cycle = c.cycle
    · rw [if_pos hcycle, if_pos hcycle, hcycle, hfind]
      rfl
    · rw [if_neg hcycle, if_neg hcycle]
  | some stretches =>
    dsimp only
    rw [OrderedMap.find?_assign]
    by_cases hcycle : cycle = c.cycle
    · rw [if_pos hcycle, if_pos hcycle, hcycle, hfind]
      rfl
    · rw [if_neg hcycle, if_neg hcycle]

def stretches (visits : List Context) : List Stretch := visits.foldl (fun ss c => extend c ss) []

theorem find?_foldl_record (visits : List Context) (history : History) (cycle : ℕ) :
    (visits.foldl record history).find? cycle =
      if visits.filter (·.cycle = cycle) = [] then history.find? cycle
      else some ((visits.filter (·.cycle = cycle)).foldl (fun ss c => extend c ss)
        ((history.find? cycle).getD [])) := by
  induction visits generalizing history with
  | nil => rfl
  | cons c visits ih =>
    rw [List.foldl_cons, ih, find?_record]
    by_cases hcycle : cycle = c.cycle
    · rw [if_pos hcycle, List.filter_cons_of_pos (by simpa using hcycle.symm), List.foldl_cons,
        if_neg (List.cons_ne_nil _ _)]
      split_ifs with hfilter
      · rw [hfilter]
        rfl
      · rfl
    · rw [if_neg hcycle, List.filter_cons_of_neg (by simpa using fun h => hcycle h.symm)]

theorem filter_flatten {α : Type} (key : α → ℕ) (offset : ℕ) (lists : List (List α))
    (h : ∀ i l, lists[i]? = some l → ∀ x ∈ l, key x = offset + i) (i : ℕ) (l : List α)
    (hi : lists[i]? = some l) : lists.flatten.filter (key · = offset + i) = l := by
  induction lists generalizing offset i with
  | nil => simp at hi
  | cons first lists ih =>
    have hfirst := h 0 first rfl
    have hrest : ∀ i l, lists[i]? = some l → ∀ x ∈ l, key x = offset + 1 + i := by
      intro i l hl x hx
      rw [h (i + 1) l hl x hx]
      omega
    rw [List.flatten_cons, List.filter_append]
    cases i with
    | zero =>
      cases hi
      have hnone : lists.flatten.filter (key · = offset + 0) = [] := by
        rw [List.filter_eq_nil_iff]
        intro x hx
        obtain ⟨l', hl', hx⟩ := List.mem_flatten.mp hx
        obtain ⟨j, hj⟩ := List.mem_iff_getElem?.mp hl'
        have hkey := hrest j l' hj x hx
        simp only [decide_eq_true_eq]
        omega
      rw [hnone, List.append_nil, List.filter_eq_self.mpr]
      intro x hx
      exact decide_eq_true (hfirst x hx)
    | succ i =>
      have hnone : first.filter (key · = offset + (i + 1)) = [] := by
        rw [List.filter_eq_nil_iff]
        intro x hx
        have hkey := hfirst x hx
        simp only [decide_eq_true_eq]
        omega
      have hlater := ih (offset + 1) hrest i hi
      rw [hnone, List.nil_append]
      rwa [Nat.add_assoc, Nat.add_comm 1 i] at hlater

end Histories

section Groups

def Stretch.ofGroup (group : Context × List Context) : Stretch :=
  ⟨group.1.frame.scope, group.1.frame.cfg, (group.1 :: group.2).map (·.label)⟩

def contexts (group : Context × List Context) : List Context := group.1 :: group.2

/-- Contexts are divided into groups, at the changes of the scope. -/
structure Grouped (groups : List (Context × List Context)) (visits : List Context) : Prop where
  flat : groups.flatMap contexts = visits
  within : ∀ g ∈ groups, ∀ v ∈ contexts g,
    v.frame.scope = g.1.frame.scope ∧ v.frame.cfg = g.1.frame.cfg
  apart : groups.IsChain fun g g' => g.1.frame.scope ≠ g'.1.frame.scope

theorem extend_append_singleton (c : Context) (ss : List Stretch) (s : Stretch) :
    extend c (ss ++ [s]) =
      ss ++ if s.scope = c.frame.scope then [{ s with labels := s.labels ++ [c.label] }]
        else [s, .of c] := by
  induction ss with
  | nil => rfl
  | cons s' ss ih =>
    cases ss with
    | nil => rfl
    | cons s'' ss =>
      change s' :: extend c (s'' :: ss ++ [s]) = _
      rw [ih]
      rfl

section Snoc

variable {groups : List (Context × List Context)} {g : Context × List Context}
  {visits : List Context} {c : Context}

theorem Grouped.continue (h : Grouped (groups ++ [g]) visits)
    (hscope : c.frame.scope = g.1.frame.scope) (hcfg : c.frame.cfg = g.1.frame.cfg) :
    Grouped (groups ++ [(g.1, g.2 ++ [c])]) (visits ++ [c]) := by
  obtain ⟨hchain, -, hlast⟩ := List.isChain_append.mp h.apart
  refine ⟨?_, ?_, ?_⟩
  · rw [← h.flat, List.flatMap_append, List.flatMap_append, List.append_assoc,
      List.flatMap_singleton, List.flatMap_singleton]
    rfl
  · intro g' hg' v hv
    rcases List.mem_append.mp hg' with hg' | hg'
    · exact h.within g' (List.mem_append_left _ hg') v hv
    · rw [List.mem_singleton.mp hg'] at hv ⊢
      rcases List.mem_append.mp (show v ∈ contexts g ++ [c] from hv) with hv | hv
      · exact h.within g (List.mem_append_right _ List.mem_cons_self) v hv
      · rw [List.mem_singleton.mp hv]
        exact ⟨hscope, hcfg⟩
  · refine List.isChain_append.mpr ⟨hchain, .singleton _, fun x hx y hy => ?_⟩
    rw [← Option.some.inj hy]
    exact hlast x hx g rfl

theorem Grouped.begin (h : Grouped groups visits)
    (hscope : ∀ g ∈ groups.getLast?, g.1.frame.scope ≠ c.frame.scope) :
    Grouped (groups ++ [(c, [])]) (visits ++ [c]) := by
  refine ⟨?_, ?_, ?_⟩
  · rw [← h.flat, List.flatMap_append]
    rfl
  · intro g' hg' v hv
    rcases List.mem_append.mp hg' with hg' | hg'
    · exact h.within g' hg' v hv
    · rw [List.mem_singleton.mp hg'] at hv ⊢
      rw [List.mem_singleton.mp hv]
      exact ⟨rfl, rfl⟩
  · refine List.isChain_append.mpr ⟨h.apart, .singleton _, fun x hx y hy => ?_⟩
    rw [← Option.some.inj hy]
    exact hscope x hx

theorem Grouped.same_cfg {main : CallTree UnitCfg} {cycle : ℕ}
    (h : Grouped (groups ++ [g]) visits) (hvisited : Visited main cycle (visits ++ [c]))
    (hscope : c.frame.scope = g.1.frame.scope) : c.frame.cfg = g.1.frame.cfg := by
  obtain ⟨init, u, hu⟩ := (List.eq_nil_or_concat' (contexts g)).resolve_left
    (List.cons_ne_nil _ _)
  have hflat : visits = (groups.flatMap contexts ++ init) ++ [u] := by
    rw [← h.flat, List.flatMap_append, List.flatMap_singleton, hu, List.append_assoc]
  have hsteps := hvisited.steps
  rw [hflat, List.append_assoc] at hsteps
  obtain ⟨condition, hstep⟩ := hsteps.right_of_append.rel
  have hmem : u ∈ contexts g := by
    rw [hu]
    exact List.mem_append_right _ List.mem_cons_self
  obtain ⟨huscope, hucfg⟩ := h.within g (List.mem_append_right _ List.mem_cons_self) u hmem
  have hplaced := hvisited.placed u (by
    rw [hflat]
    exact List.mem_append_left _ (List.mem_append_right _ List.mem_cons_self))
  rw [hplaced.same_frame hstep (hscope.trans huscope.symm), hucfg]

end Snoc

/-- The stretches are those of groups. -/
theorem exists_grouped {main : CallTree UnitCfg} {cycle : ℕ} {visits : List Context}
    (h : Visited main cycle visits) :
    ∃ groups, Grouped groups visits ∧ stretches visits = groups.map Stretch.ofGroup := by
  induction visits using List.reverseRecOn with
  | nil => exact ⟨[], ⟨rfl, by simp, .nil⟩, rfl⟩
  | append_singleton visits c ih =>
    have hinit : Visited main cycle visits :=
      ⟨fun v hv => h.cycle_eq v (List.mem_append_left _ hv),
        fun v hv => h.placed v (List.mem_append_left _ hv),
        fun v hv => h.present v (List.mem_append_left _ hv), h.steps.left_of_append⟩
    obtain ⟨groups, hgrouped, hstretches⟩ := ih hinit
    have hextend : stretches (visits ++ [c]) = extend c (stretches visits) := by
      unfold stretches
      rw [List.foldl_append]
      rfl
    rw [hextend, hstretches]
    cases groups using List.reverseRecOn with
    | nil => exact ⟨_, hgrouped.begin (by simp), rfl⟩
    | append_singleton groups g =>
      rw [List.map_append, List.map_singleton, extend_append_singleton]
      by_cases hscope : (Stretch.ofGroup g).scope = c.frame.scope
      · refine ⟨_, hgrouped.continue hscope.symm (hgrouped.same_cfg h hscope.symm), ?_⟩
        rw [if_pos hscope, List.map_append, List.map_singleton]
        unfold Stretch.ofGroup
        simp
      · refine ⟨_, hgrouped.begin fun g' hg' => ?_, ?_⟩
        · rw [List.getLast?_append_of_ne_nil _ (List.cons_ne_nil _ _)] at hg'
          rw [← Option.some.inj hg']
          exact hscope
        · rw [if_neg hscope, List.map_append, List.map_append, List.append_assoc]
          rfl

def items (ss : List Stretch) : List (Stretch × ℤ) := ss.flatMap fun s => s.labels.map (s, ·)

theorem items_cons (s : Stretch) (ss : List Stretch) :
    items (s :: ss) = s.labels.map (s, ·) ++ items ss := rfl

theorem items_append (ss ss' : List Stretch) : items (ss ++ ss') = items ss ++ items ss' :=
  List.flatMap_append

theorem map_items (groups : List (Context × List Context)) :
    (items (groups.map Stretch.ofGroup)).map Prod.snd =
      (groups.flatMap contexts).map (·.label) := by
  induction groups with
  | nil => rfl
  | cons g groups ih =>
    rw [List.map_cons, items_cons, List.map_append, ih, List.flatMap_cons, List.map_append,
      List.map_map]
    congr 1
    exact List.map_id _

theorem flatMap_eq_append_cons {α β : Type} {f : α → List β} {l : List α} {pre post : List β}
    {b : β} (h : l.flatMap f = pre ++ b :: post) :
    ∃ l₁ a l₂ q r, l = l₁ ++ a :: l₂ ∧ f a = q ++ b :: r ∧ pre = l₁.flatMap f ++ q ∧
      post = r ++ l₂.flatMap f := by
  induction l generalizing pre with
  | nil => simp at h
  | cons a l ih =>
    rw [List.flatMap_cons] at h
    rcases List.append_eq_append_iff.mp h with ⟨q, rfl, hrest⟩ | ⟨r, ha, hpost⟩
    · obtain ⟨l₁, a', l₂, q', r, rfl, hfa, rfl, rfl⟩ := ih hrest
      exact ⟨a :: l₁, a', l₂, q', r, rfl, hfa, by rw [List.flatMap_cons, List.append_assoc], rfl⟩
    · cases r with
      | nil =>
        obtain ⟨l₁, a', l₂, q', r, rfl, hfa, hpre, rfl⟩ := @ih [] hpost.symm
        refine ⟨a :: l₁, a', l₂, q', r, rfl, hfa, ?_, rfl⟩
        rw [List.append_nil] at ha
        rw [List.flatMap_cons, List.append_assoc, ← hpre, List.append_nil, ha]
      | cons b' r =>
        obtain ⟨hb, hrest⟩ := List.cons.inj hpost
        exact ⟨[], a, l, pre, r, rfl, hb ▸ ha, rfl, hrest⟩

/-- A context stands among the items with a stretch of its graph, in which its successor is too if
it has the same scope. -/
theorem Grouped.item {groups : List (Context × List Context)} {visits pre post : List Context}
    {v : Context} (h : Grouped groups visits) (hvisits : visits = pre ++ v :: post) :
    ∃ items₁ s items₂, items (groups.map Stretch.ofGroup) = items₁ ++ (s, v.label) :: items₂ ∧
      items₁.map Prod.snd = pre.map (·.label) ∧ s.cfg = v.frame.cfg ∧
      ∀ v' ∈ post.head?, v'.frame.scope = v.frame.scope → v'.label ∈ s.labels := by
  have hflat := h.flat
  rw [hvisits] at hflat
  obtain ⟨groups₁, g, groups₂, q, r, hgroups, hg, rfl, rfl⟩ := flatMap_eq_append_cons hflat
  have hv : v ∈ contexts g := by
    rw [hg]
    exact List.mem_append_right _ List.mem_cons_self
  have hmem : g ∈ groups := by
    rw [hgroups]
    exact List.mem_append_right _ List.mem_cons_self
  obtain ⟨hscope, hcfg⟩ := h.within g hmem v hv
  have hlabels : (Stretch.ofGroup g).labels =
      q.map (·.label) ++ v.label :: r.map (·.label) := by
    change (contexts g).map (·.label) = _
    rw [hg, List.map_append, List.map_cons]
  refine ⟨items (groups₁.map Stretch.ofGroup) ++ (q.map (·.label)).map (Stretch.ofGroup g, ·),
    Stretch.ofGroup g,
    (r.map (·.label)).map (Stretch.ofGroup g, ·) ++ items (groups₂.map Stretch.ofGroup), ?_, ?_,
    hcfg.symm, fun v' hv' hv'scope => ?_⟩
  · rw [hgroups, List.map_append, items_append, List.map_cons, items_cons, hlabels,
      List.map_append, List.map_cons, List.append_assoc, List.append_assoc, List.cons_append]
  · rw [List.map_append, map_items, List.map_append, List.map_map]
    congr 1
    exact List.map_id _
  · rw [hlabels]
    cases r with
    | nil =>
      -- the successor would be the first of the next group, in another scope
      cases groups₂ with
      | nil => cases hv'
      | cons g' groups₂ =>
        have hapart := h.apart
        rw [hgroups] at hapart
        have hne := hapart.right_of_append.rel
        rw [← Option.some.inj hv', hscope] at hv'scope
        exact absurd hv'scope.symm hne
    | cons v'' r =>
      rw [← Option.some.inj hv']
      exact List.mem_append_right _ (List.mem_cons_of_mem _ List.mem_cons_self)

theorem Grouped.exists_context {groups : List (Context × List Context)} {visits : List Context}
    (h : Grouped groups visits) {item : Stretch × ℤ}
    (hitem : item ∈ items (groups.map Stretch.ofGroup)) :
    ∃ v ∈ visits, v.label = item.2 ∧ v.frame.cfg = item.1.cfg := by
  obtain ⟨s, hs, hsl⟩ := List.mem_flatMap.mp hitem
  obtain ⟨g, hg, rfl⟩ := List.mem_map.mp hs
  obtain ⟨l, hl, rfl⟩ := List.mem_map.mp hsl
  obtain ⟨v, hv, hlabel⟩ := List.mem_map.mp hl
  refine ⟨v, ?_, hlabel, (h.within g hg v hv).2⟩
  rw [← h.flat]
  exact List.mem_flatMap.mpr ⟨g, hg, hv⟩

end Groups

end Simulator

/-- The program is simulated from its entry on. -/
def ShadowProgram.Simulated (p : ShadowProgram) (visits : List (List Simulator.Context)) : Prop :=
  Simulator.Runs 0
    ⟨0, p.main.root.entryLabel, ⟨p.main, p.main.name, p.main.root.entryLabel⟩, []⟩ visits

namespace ShadowProgram

open Simulator

variable {p : ShadowProgram} {visits : List (List Context)}

theorem Simulated.visited (h : p.Simulated visits) {i : ℕ} {vs : List Context}
    (hi : visits[i]? = some vs) : Visited p.main i vs ∧ vs ≠ [] := by
  have hplaced : Placed p.main
      ⟨0, p.main.root.entryLabel, ⟨p.main, p.main.name, p.main.root.entryLabel⟩, []⟩ := by
    refine ⟨fun f hf => ?_, .singleton _⟩
    rw [List.mem_singleton.mp hf]
    exact .refl
  have hvisited := Runs.visited h hplaced rfl i vs hi
  rwa [Nat.zero_add] at hvisited

theorem Simulated.find?_executionHistory (h : p.Simulated visits) {i : ℕ} {vs : List Context}
    (hi : visits[i]? = some vs) : (executionHistory visits).find? i = some (stretches vs) := by
  have hfilter : visits.flatten.filter (·.cycle = i) = vs := by
    have hkeys := filter_flatten (·.cycle) 0 visits (fun j l hj x hx => by
      rw [Nat.zero_add]
      exact (h.visited hj).1.cycle_eq x hx) i vs hi
    simpa only [Nat.zero_add] using hkeys
  unfold executionHistory
  rw [find?_foldl_record, hfilter, if_neg (h.visited hi).2]
  rfl

end ShadowProgram

end Ahorn
