import Mathlib.Data.List.Basic
import Mathlib.Data.List.Chain
import Mathlib.Data.List.Induction
import Mathlib.Tactic.Tauto

set_option autoImplicit false

/-!
# Chains of operands and operators

A chain is a sequence of operands with an operator between every two neighbours. Levels of
precedence, the loosest one first, group it to a tree: the chain is split at the operators of the
level, the parts are grouped by the tighter levels, and what comes out of them is combined from the
left or from the right.
-/
namespace Ahorn

structure Chain (ω α : Type) where
  first : α
  rest : List (ω × α)
  deriving DecidableEq, Repr

/-- The operators of one precedence, and whether they associate to the right. -/
structure Level (ω : Type) where
  binds : ω → Bool
  right : Bool := false

inductive OperatorTree (ω α : Type) where
  | leaf (a : α)
  | node (op : ω) (left right : OperatorTree ω α)

variable {ω α β γ δ : Type}

namespace Chain

def map (f : α → β) (c : Chain ω α) : Chain ω β :=
  ⟨f c.first, c.rest.map (fun p => (p.1, f p.2))⟩

def ops (c : Chain ω α) : List ω := c.rest.map Prod.fst

def operands (c : Chain ω α) : List α := c.first :: c.rest.map Prod.snd

/-- The chain cut at the operators of `p`. -/
def splitFrom (p : ω → Bool) : α → List (ω × α) → Chain ω (Chain ω α)
  | a, [] => ⟨⟨a, []⟩, []⟩
  | a, (op, b) :: rest =>
    let c := splitFrom p b rest
    if p op then ⟨⟨a, []⟩, (op, c.first) :: c.rest⟩
    else ⟨⟨a, (op, c.first.first) :: c.first.rest⟩, c.rest⟩

def split (p : ω → Bool) (c : Chain ω α) : Chain ω (Chain ω α) := splitFrom p c.first c.rest

def foldLeft (node : ω → β → β → β) (c : Chain ω β) : β :=
  c.rest.foldl (fun b p => node p.1 b p.2) c.first

def foldRightFrom (node : ω → β → β → β) : β → List (ω × β) → β
  | b, [] => b
  | b, (op, b') :: rest => node op b (foldRightFrom node b' rest)

def foldRight (node : ω → β → β → β) (c : Chain ω β) : β := foldRightFrom node c.first c.rest

end Chain

open Chain

def Level.combine (l : Level ω) (node : ω → β → β → β) (c : Chain ω β) : β :=
  if l.right then c.foldRight node else c.foldLeft node

/-- What the levels make of a chain. `leaf` says what becomes of a chain that no level splits any
more. -/
def groupWith (node : ω → β → β → β) (leaf : Chain ω α → β) : List (Level ω) → Chain ω α → β
  | [], c => leaf c
  | l :: ls, c => l.combine node ((c.split l.binds).map (groupWith node leaf ls))

namespace OperatorTree

def map (f : α → β) : OperatorTree ω α → OperatorTree ω β
  | leaf a => leaf (f a)
  | node op l r => node op (l.map f) (r.map f)

def fold (node' : ω → β → β → β) (leaf' : α → β) : OperatorTree ω α → β
  | leaf a => leaf' a
  | node op l r => node' op (l.fold node' leaf') (r.fold node' leaf')

/-- Every operator satisfies `P` and every leaf `Q`. -/
def All (P : ω → Prop) (Q : α → Prop) : OperatorTree ω α → Prop
  | leaf a => Q a
  | node op l r => P op ∧ l.All P Q ∧ r.All P Q

end OperatorTree

/-- The tree that the levels find above the parts they leave alone. -/
def skeleton (ls : List (Level ω)) (c : Chain ω α) : OperatorTree ω (Chain ω α) :=
  groupWith OperatorTree.node OperatorTree.leaf ls c

namespace Chain

@[simp] theorem ops_map (f : α → β) (c : Chain ω α) : (c.map f).ops = c.ops := by
  simp [ops, map]

@[simp] theorem operands_map (f : α → β) (c : Chain ω α) :
    (c.map f).operands = c.operands.map f := by
  simp [operands, map]

theorem map_map (f : α → β) (g : β → γ) (c : Chain ω α) :
    (c.map f).map g = c.map (fun a => g (f a)) := by
  simp [map]

theorem map_congr {f g : α → β} {c : Chain ω α} (h : ∀ a ∈ c.operands, f a = g a) :
    c.map f = c.map g := by
  simp only [map, mk.injEq, h c.first List.mem_cons_self, true_and]
  apply List.map_congr_left
  intro q hq
  rw [h q.2 (List.mem_cons_of_mem _ (List.mem_map_of_mem hq))]

theorem foldLeft_hom {node : ω → β → β → β} {node' : ω → γ → γ → γ} {h : β → γ}
    (hnode : ∀ op b b', h (node op b b') = node' op (h b) (h b')) (c : Chain ω β) :
    h (c.foldLeft node) = (c.map h).foldLeft node' := by
  obtain ⟨first, rest⟩ := c
  induction rest generalizing first with
  | nil => rfl
  | cons q rest ih =>
    have hih := ih (node q.1 first q.2)
    simp only [foldLeft, map, List.map_cons, List.foldl_cons] at hih ⊢
    rw [hih, hnode]

theorem foldRight_hom {node : ω → β → β → β} {node' : ω → γ → γ → γ} {h : β → γ}
    (hnode : ∀ op b b', h (node op b b') = node' op (h b) (h b')) (c : Chain ω β) :
    h (c.foldRight node) = (c.map h).foldRight node' := by
  obtain ⟨first, rest⟩ := c
  induction rest generalizing first with
  | nil => rfl
  | cons q rest ih =>
    have hih := ih q.2
    simp only [foldRight, map, List.map_cons, foldRightFrom] at hih ⊢
    rw [hnode, hih]

theorem splitFrom_map (p : ω → Bool) (f : α → β) (a : α) (rest : List (ω × α)) :
    splitFrom p (f a) (rest.map fun q => (q.1, f q.2)) = (splitFrom p a rest).map (map f) := by
  induction rest generalizing a with
  | nil => rfl
  | cons q rest ih =>
    simp only [List.map_cons, splitFrom, ih]
    split_ifs <;> simp [map]

theorem split_map (p : ω → Bool) (f : α → β) (c : Chain ω α) :
    (c.map f).split p = (c.split p).map (map f) :=
  splitFrom_map p f c.first c.rest

end Chain

theorem Level.combine_hom (l : Level ω) {node : ω → β → β → β} {node' : ω → γ → γ → γ}
    {h : β → γ} (hnode : ∀ op b b', h (node op b b') = node' op (h b) (h b')) (c : Chain ω β) :
    h (l.combine node c) = l.combine node' (c.map h) := by
  unfold Level.combine
  split_ifs
  · exact foldRight_hom hnode c
  · exact foldLeft_hom hnode c

section Grouping

variable {node : ω → β → β → β} {leaf : Chain ω α → β}

theorem groupWith_hom {node' : ω → γ → γ → γ} {h : β → γ}
    (hnode : ∀ op b b', h (node op b b') = node' op (h b) (h b')) (ls : List (Level ω))
    (c : Chain ω α) :
    h (groupWith node leaf ls c) = groupWith node' (fun d => h (leaf d)) ls c := by
  induction ls generalizing c with
  | nil => rfl
  | cons l ls ih =>
    simp only [groupWith]
    rw [l.combine_hom hnode, map_map]
    congr 2
    funext d
    exact ih d

theorem groupWith_map (f : γ → α) (ls : List (Level ω)) (c : Chain ω γ) :
    groupWith node leaf ls (c.map f) = groupWith node (fun d => leaf (d.map f)) ls c := by
  induction ls generalizing c with
  | nil => rfl
  | cons l ls ih =>
    simp only [groupWith]
    rw [split_map, map_map]
    congr 2
    funext d
    exact ih d

theorem groupWith_append (us ls : List (Level ω)) (c : Chain ω α) :
    groupWith node leaf (us ++ ls) c = groupWith node (groupWith node leaf ls) us c := by
  induction us generalizing c with
  | nil => rfl
  | cons u us ih =>
    simp only [List.cons_append, groupWith]
    congr 2
    funext d
    exact ih d

theorem groupWith_eq_fold (ls : List (Level ω)) (c : Chain ω α) :
    groupWith node leaf ls c = (skeleton ls c).fold node leaf := by
  unfold skeleton
  rw [groupWith_hom (h := OperatorTree.fold node leaf) (fun _ _ _ => rfl)]
  rfl

end Grouping

namespace Chain

theorem splitFrom_ops (p : ω → Bool) (a : α) (rest : List (ω × α)) :
    (∀ op ∈ (splitFrom p a rest).ops, p op = true ∧ op ∈ rest.map Prod.fst) ∧
      ∀ d ∈ (splitFrom p a rest).operands, ∀ op ∈ d.ops, p op = false ∧ op ∈ rest.map Prod.fst := by
  induction rest generalizing a with
  | nil => simp [splitFrom, ops, operands]
  | cons q rest ih =>
    obtain ⟨houter, hinner⟩ := ih q.2
    simp only [ops, operands] at houter hinner
    by_cases hp : p q.1 = true
    · simp only [splitFrom, ops, operands, hp, if_true]
      grind
    · simp only [splitFrom, ops, operands, hp]
      grind

theorem isChain_splitFrom {R : ω → ω → Prop} {p : ω → Bool}
    (hR : ∀ op op', p op = true ∨ p op' = true → R op op') (a : α) (rest : List (ω × α)) :
    (rest.map Prod.fst).IsChain R ↔ ∀ d ∈ (splitFrom p a rest).operands, d.ops.IsChain R := by
  induction rest generalizing a with
  | nil => simp [splitFrom, operands, ops]
  | cons q rest ih =>
    have hih := ih q.2
    simp only [operands, List.forall_mem_cons] at hih ⊢
    by_cases hp : p q.1 = true
    · simp only [splitFrom, hp, if_true, List.map_cons, List.forall_mem_cons, ops, List.map_nil,
        List.IsChain.nil, true_and] at hih ⊢
      rw [← hih, List.isChain_cons]
      exact and_iff_right fun op _ => hR q.1 op (Or.inl hp)
    · simp only [splitFrom, hp, List.map_cons, ops] at hih ⊢
      cases rest with
      | nil => simp [splitFrom]
      | cons r rest =>
        by_cases hp' : p r.1 = true
        · simp only [splitFrom, hp', if_true, List.map_cons, List.map_nil,
            List.isChain_cons_cons] at hih ⊢
          have hbefore := hR q.1 r.1 (Or.inr hp')
          simp_all
        · simp only [splitFrom, hp', List.map_cons, List.isChain_cons_cons] at hih ⊢
          simp_all [and_assoc]

theorem splitFrom_all {p : ω → Bool} (a : α) {rest : List (ω × α)}
    (h : ∀ q ∈ rest, p q.1 = true) :
    splitFrom p a rest = ⟨⟨a, []⟩, rest.map fun q => (q.1, ⟨q.2, []⟩)⟩ := by
  induction rest generalizing a with
  | nil => rfl
  | cons q rest ih =>
    have hq := h q List.mem_cons_self
    have hih := ih q.2 fun r hr => h r (List.mem_cons_of_mem q hr)
    simp [splitFrom, hq, hih]

theorem splitFrom_append {p : ω → Bool} (a : α) (front : List (ω × α)) {op : ω} (b : α)
    (rest : List (ω × α)) (h : p op = true) :
    splitFrom p a (front ++ (op, b) :: rest) =
      ⟨(splitFrom p a front).first, (splitFrom p a front).rest ++
        (op, (splitFrom p b rest).first) :: (splitFrom p b rest).rest⟩ := by
  induction front generalizing a with
  | nil => simp [splitFrom, h]
  | cons q front ih =>
    simp only [List.cons_append, splitFrom, ih]
    split_ifs <;> rfl

theorem split_all {p : ω → Bool} {c : Chain ω α} (h : ∀ op ∈ c.ops, p op = true) :
    c.split p = c.map (fun a => ⟨a, []⟩) :=
  splitFrom_all c.first fun _ hq => h _ (List.mem_map_of_mem hq)

theorem exists_splitFrom (p : ω → Bool) (a : α) (rest : List (ω × α))
    (D : Chain ω (Chain ω β)) (h : D.map ops = (splitFrom p a rest).map ops) :
    ∃ b rest', rest'.map Prod.fst = rest.map Prod.fst ∧ splitFrom p b rest' = D := by
  induction rest generalizing a D with
  | nil =>
    obtain ⟨⟨b, r⟩, ds⟩ := D
    simp only [splitFrom, map, ops, List.map_nil, mk.injEq, List.map_eq_nil_iff] at h
    obtain ⟨rfl, rfl⟩ := h
    exact ⟨b, [], rfl, rfl⟩
  | cons q rest ih =>
    by_cases hp : p q.1 = true
    · obtain ⟨⟨b, r⟩, ds⟩ := D
      simp only [splitFrom, hp, if_true, map, ops, List.map_nil, List.map_cons, mk.injEq,
        List.map_eq_nil_iff, List.map_eq_cons_iff] at h
      obtain ⟨rfl, ⟨op, d⟩, ds', rfl, hd, hds⟩ := h
      obtain ⟨b', rest', hops, hsplit⟩ := ih q.2 ⟨d, ds'⟩ (by simp_all [map, ops])
      refine ⟨b, (q.1, b') :: rest', by simp [hops], ?_⟩
      simp_all [splitFrom]
    · obtain ⟨⟨b, r⟩, ds⟩ := D
      simp only [splitFrom, hp, map, ops, mk.injEq] at h
      obtain ⟨hfirst, hds⟩ := h
      obtain ⟨⟨op, b'⟩, r', rfl, hop, hr⟩ := List.map_eq_cons_iff.mp hfirst
      obtain ⟨b'', rest', hops, hsplit⟩ := ih q.2 ⟨⟨b', r'⟩, ds⟩ (by simp_all [map, ops])
      refine ⟨b, (q.1, b'') :: rest', by simp [hops], ?_⟩
      simp_all [splitFrom]

end Chain

section Levels

variable {node : ω → β → β → β} {leaf : Chain ω α → β}

theorem groupWith_single (node : ω → β → β → β) (ls : List (Level ω)) (b : β) :
    groupWith node Chain.first ls ⟨b, []⟩ = b := by
  induction ls with
  | nil => rfl
  | cons l ls ih =>
    simp only [groupWith, split, splitFrom, map, List.map_nil, ih]
    unfold Level.combine
    split_ifs <;> rfl

theorem groupWith_all {l : Level ω} (ls : List (Level ω)) {c : Chain ω β}
    (h : ∀ op ∈ c.ops, l.binds op = true) :
    groupWith node Chain.first (l :: ls) c = l.combine node c := by
  rw [groupWith, split_all h, map_map]
  congr 1
  simp [groupWith_single, map]

end Levels

theorem Chain.exists_foldRight (f : α → δ) (f' : β → δ) (C : Chain ω (OperatorTree ω α))
    (T : OperatorTree ω β) (h : T.map f' = (C.foldRight OperatorTree.node).map f) :
    ∃ C' : Chain ω (OperatorTree ω β),
      C'.map (OperatorTree.map f') = C.map (OperatorTree.map f) ∧
        C'.foldRight OperatorTree.node = T := by
  obtain ⟨first, rest⟩ := C
  induction rest generalizing first T with
  | nil => exact ⟨⟨T, []⟩, by simpa [map, foldRight, foldRightFrom] using h, rfl⟩
  | cons q rest ih =>
    cases T with
    | leaf b => simp [foldRight, foldRightFrom, OperatorTree.map] at h
    | node op l r =>
      simp only [foldRight, foldRightFrom, OperatorTree.map, OperatorTree.node.injEq] at h
      obtain ⟨rfl, hl, hr⟩ := h
      obtain ⟨⟨first', rest'⟩, hmap, rfl⟩ := ih r q.2 hr
      simp only [map, mk.injEq] at hmap
      exact ⟨⟨l, (q.1, first') :: rest'⟩, by simp [map, hl, hmap], rfl⟩

theorem Chain.exists_foldLeft (f : α → δ) (f' : β → δ) (C : Chain ω (OperatorTree ω α))
    (T : OperatorTree ω β) (h : T.map f' = (C.foldLeft OperatorTree.node).map f) :
    ∃ C' : Chain ω (OperatorTree ω β),
      C'.map (OperatorTree.map f') = C.map (OperatorTree.map f) ∧
        C'.foldLeft OperatorTree.node = T := by
  obtain ⟨first, rest⟩ := C
  induction rest using List.reverseRecOn generalizing T with
  | nil => exact ⟨⟨T, []⟩, by simpa [map, foldLeft] using h, rfl⟩
  | append_singleton rest q ih =>
    simp only [foldLeft, List.foldl_append, List.foldl_cons, List.foldl_nil] at h
    cases T with
    | leaf b => simp [OperatorTree.map] at h
    | node op l r =>
      simp only [OperatorTree.map, OperatorTree.node.injEq] at h
      obtain ⟨rfl, hl, hr⟩ := h
      obtain ⟨⟨first', rest'⟩, hmap, rfl⟩ := ih l hl
      simp only [map, mk.injEq] at hmap
      exact ⟨⟨first', rest' ++ [(q.1, r)]⟩, by simp [map, hr, hmap], by simp [foldLeft]⟩

theorem Level.exists_combine (l : Level ω) (f : α → δ) (f' : β → δ)
    (C : Chain ω (OperatorTree ω α)) (T : OperatorTree ω β)
    (h : T.map f' = (l.combine OperatorTree.node C).map f) :
    ∃ C' : Chain ω (OperatorTree ω β),
      C'.map (OperatorTree.map f') = C.map (OperatorTree.map f) ∧
        l.combine OperatorTree.node C' = T := by
  unfold Level.combine at *
  split_ifs at *
  · exact Chain.exists_foldRight f f' C T h
  · exact Chain.exists_foldLeft f f' C T h

theorem Chain.exists_map {f : α → δ} {g : β → δ} (C : Chain ω α) (S : Chain ω β)
    (h : C.map f = S.map g) {ε ζ : Type} {k : β → ζ} {j : ε → ζ} {m : ε → α}
    (hpick : ∀ a b, f a = g b → ∃ e, j e = k b ∧ m e = a) :
    ∃ D : Chain ω ε, D.map j = S.map k ∧ D.map m = C := by
  obtain ⟨a, as⟩ := C
  obtain ⟨b, bs⟩ := S
  simp only [map, mk.injEq] at h
  obtain ⟨hfirst, hrest⟩ := h
  obtain ⟨e, hk, hm⟩ := hpick a b hfirst
  suffices ∃ es : List (ω × ε), (es.map fun p => (p.1, j p.2)) = bs.map (fun p => (p.1, k p.2)) ∧
      (es.map fun p => (p.1, m p.2)) = as by
    obtain ⟨es, hks, hms⟩ := this
    exact ⟨⟨e, es⟩, by simp [map, hk, hks], by simp [map, hm, hms]⟩
  clear hfirst
  induction as generalizing bs with
  | nil =>
    simp only [List.map_nil, List.nil_eq, List.map_eq_nil_iff] at hrest
    exact ⟨[], by simp [hrest], rfl⟩
  | cons p as ih =>
    obtain ⟨q, bs', rfl, hq, hbs⟩ := List.map_eq_cons_iff.mp hrest.symm
    obtain ⟨es, hks, hms⟩ := ih bs' hbs.symm
    simp only [Prod.mk.injEq] at hq
    obtain ⟨e', hk', hm'⟩ := hpick p.2 q.2 hq.2.symm
    exact ⟨(p.1, e') :: es, by simp [hk', hks, hq.1], by simp [hm', hms]⟩

theorem exists_skeleton (ls : List (Level ω)) (c : Chain ω α) (T : OperatorTree ω (Chain ω β))
    (h : T.map ops = (skeleton ls c).map ops) :
    ∃ c' : Chain ω β, c'.ops = c.ops ∧ skeleton ls c' = T := by
  induction ls generalizing c T with
  | nil =>
    cases T with
    | leaf d => exact ⟨d, by simpa [skeleton, groupWith, OperatorTree.map] using h, rfl⟩
    | node op l r => simp [skeleton, groupWith, OperatorTree.map] at h
  | cons l ls ih =>
    obtain ⟨C', hC', rfl⟩ := l.exists_combine ops ops _ T h
    rw [map_map] at hC'
    obtain ⟨D, hD, rfl⟩ := Chain.exists_map C' (c.split l.binds) hC' (k := ops) (j := ops)
      (m := skeleton ls) fun T' d hd => ih d T' hd
    obtain ⟨b, rest', hops, rfl⟩ := exists_splitFrom l.binds c.first c.rest D hD
    exact ⟨⟨b, rest'⟩, hops, rfl⟩

theorem Level.all_combine (l : Level ω) {P : ω → Prop} {Q : α → Prop}
    (C : Chain ω (OperatorTree ω α)) : (l.combine OperatorTree.node C).All P Q ↔
      (∀ op ∈ C.ops, P op) ∧ ∀ T ∈ C.operands, T.All P Q := by
  obtain ⟨first, rest⟩ := C
  unfold Level.combine
  split_ifs
  · induction rest generalizing first with
    | nil => simp [foldRight, foldRightFrom, ops, operands]
    | cons q rest ih =>
      have hih := ih q.2
      simp only [foldRight, foldRightFrom, OperatorTree.All, ops, operands] at hih ⊢
      rw [hih]
      grind
  · induction rest generalizing first with
    | nil => simp [foldLeft, ops, operands]
    | cons q rest ih =>
      have hih := ih (OperatorTree.node q.1 first q.2)
      simp only [foldLeft, List.foldl_cons, ops, operands] at hih ⊢
      rw [hih]
      simp only [List.map_cons, List.forall_mem_cons, OperatorTree.All]
      tauto

theorem skeleton_all {P : ω → Prop} {Q : Chain ω α → Prop} (R : ω → Prop) (ls : List (Level ω))
    (c : Chain ω α) (hR : ∀ op ∈ c.ops, R op)
    (hP : ∀ l ∈ ls, ∀ op, R op → l.binds op = true → P op)
    (hQ : ∀ d : Chain ω α, (∀ op ∈ d.ops, R op ∧ ∀ l ∈ ls, l.binds op = false) → Q d) :
    (skeleton ls c).All P Q := by
  induction ls generalizing c R with
  | nil => exact hQ c fun op hop => ⟨hR op hop, by simp⟩
  | cons l ls ih =>
    obtain ⟨houter, hinner⟩ := splitFrom_ops l.binds c.first c.rest
    refine (l.all_combine _).mpr ⟨fun op hop => ?_, fun T hT => ?_⟩
    · have hop' := houter op (by simpa [split] using hop)
      exact hP l List.mem_cons_self op (hR op hop'.2) hop'.1
    · rw [operands_map] at hT
      obtain ⟨d, hd, rfl⟩ := List.mem_map.mp hT
      refine ih (fun op => R op ∧ l.binds op = false) d
        (fun op hop => ⟨hR op (hinner d hd op hop).2, (hinner d hd op hop).1⟩)
        (fun l' hl' op hop => hP l' (List.mem_cons_of_mem l hl') op hop.1) fun d' hd' => ?_
      refine hQ d' fun op hop => ⟨(hd' op hop).1.1, fun l' hl' => ?_⟩
      rcases List.mem_cons.mp hl' with rfl | hl'
      · exact (hd' op hop).1.2
      · exact (hd' op hop).2 l' hl'

theorem isChain_skeleton {R : ω → ω → Prop} (ls : List (Level ω))
    (hR : ∀ l ∈ ls, ∀ op op', l.binds op = true ∨ l.binds op' = true → R op op')
    (c : Chain ω α) : c.ops.IsChain R ↔
      (skeleton ls c).All (fun _ => True) (fun d => d.ops.IsChain R) := by
  induction ls generalizing c with
  | nil => exact Iff.rfl
  | cons l ls ih =>
    have hsplit := isChain_splitFrom (hR l List.mem_cons_self) c.first c.rest
    have hparts := fun d => ih (fun l' hl' => hR l' (List.mem_cons_of_mem l hl')) d
    change (c.rest.map Prod.fst).IsChain R ↔
      (l.combine OperatorTree.node ((c.split l.binds).map (skeleton ls))).All _ _
    rw [hsplit, l.all_combine, operands_map]
    simp only [implies_true, true_and, List.forall_mem_map]
    exact forall₂_congr fun d _ => hparts d

section Units

variable {node : ω → β → β → β} {v e : β}

theorem Chain.splitFrom_operands {Q : α → Prop} (p : ω → Bool) (a : α) (rest : List (ω × α))
    (hQ : ∀ q ∈ rest, Q q.2) :
    (splitFrom p a rest).first.first = a ∧ (∀ q ∈ (splitFrom p a rest).first.rest, Q q.2) ∧
      ∀ r ∈ (splitFrom p a rest).rest, Q r.2.first ∧ ∀ q ∈ r.2.rest, Q q.2 := by
  induction rest generalizing a with
  | nil => simp [splitFrom]
  | cons q rest ih =>
    have hq := hQ q List.mem_cons_self
    obtain ⟨hfirst, hinner, hrest⟩ := ih q.2 fun r hr => hQ r (List.mem_cons_of_mem q hr)
    simp only [splitFrom]
    split_ifs
    · refine ⟨rfl, by simp, fun r hr => ?_⟩
      rcases List.mem_cons.mp hr with rfl | hr
      · exact ⟨by simpa [hfirst] using hq, hinner⟩
      · exact hrest r hr
    · refine ⟨rfl, fun r hr => ?_, hrest⟩
      rcases List.mem_cons.mp hr with rfl | hr
      · simpa [hfirst] using hq
      · exact hinner r hr

theorem Level.combine_unit (l : Level ω) (c : Chain ω β) (hfirst : c.first = v)
    (hrest : ∀ q ∈ c.rest, q.2 = e) (hv : ∀ op ∈ c.ops, node op v e = v)
    (he : ∀ op ∈ c.ops, node op e e = e) : l.combine node c = v := by
  obtain ⟨first, rest⟩ := c
  unfold Level.combine
  split_ifs
  · induction rest generalizing first v with
    | nil => exact hfirst
    | cons q rest ih =>
      have hq := hrest q List.mem_cons_self
      have hih : Chain.foldRight node ⟨q.2, rest⟩ = e :=
        ih q.2 hq (fun r hr => hrest r (List.mem_cons_of_mem q hr))
          (fun op hop => he op (List.mem_cons_of_mem _ hop))
          (fun op hop => he op (List.mem_cons_of_mem _ hop))
      change node q.1 first (Chain.foldRight node ⟨q.2, rest⟩) = v
      rw [hih, show first = v from hfirst]
      exact hv q.1 (by simp [ops])
  · induction rest generalizing first with
    | nil => exact hfirst
    | cons q rest ih =>
      have hq : node q.1 first q.2 = v := by
        rw [show first = v from hfirst, hrest q List.mem_cons_self]
        exact hv q.1 (by simp [ops])
      exact ih (node q.1 first q.2) hq (fun r hr => hrest r (List.mem_cons_of_mem q hr))
        (fun op hop => hv op (List.mem_cons_of_mem _ hop))
        (fun op hop => he op (List.mem_cons_of_mem _ hop))

theorem groupWith_unit (ls : List (Level ω)) (c : Chain ω β) (hfirst : c.first = v)
    (hrest : ∀ q ∈ c.rest, q.2 = e) (hv : ∀ op ∈ c.ops, node op v e = v)
    (he : ∀ op ∈ c.ops, node op e e = e) : groupWith node Chain.first ls c = v := by
  induction ls generalizing c v with
  | nil => exact hfirst
  | cons l ls ih =>
    obtain ⟨houter, hinner⟩ := splitFrom_ops l.binds c.first c.rest
    obtain ⟨hhead, hhead', hparts⟩ :=
      splitFrom_operands (Q := fun a => a = e) l.binds c.first c.rest hrest
    refine l.combine_unit (e := e) _ ?_ ?_ ?_ ?_
    · have hops := hinner _ List.mem_cons_self
      exact ih _ (hhead.trans hfirst) hhead'
        (fun op hop => hv op (hops op hop).2) (fun op hop => he op (hops op hop).2)
    · intro q hq
      obtain ⟨r, hr, rfl⟩ := List.mem_map.mp hq
      have hops := hinner r.2 (List.mem_cons_of_mem _ (List.mem_map_of_mem hr))
      exact ih r.2 (hparts r hr).1 (hparts r hr).2
        (fun op hop => he op (hops op hop).2) (fun op hop => he op (hops op hop).2)
    · intro op hop
      exact hv op (houter op (by simpa [split] using hop)).2
    · intro op hop
      exact he op (houter op (by simpa [split] using hop)).2

end Units

end Ahorn
