import Ahorn.Builder
import Ahorn.LoweringShape

set_option autoImplicit false

/-!
# The code the compiler emits

While a part is compiled, the jumps out of it carry placeholders. The invariant therefore speaks
about every resolution of the placeholders that leaves the labels alone: under it the instructions
emitted for a statement are code for the statement.
-/
namespace Ahorn

namespace Instruction

/-- Rename the targets that may be placeholders. -/
def rename (ρ : ℤ → ℤ) : Instruction → Instruction
  | ifInstruction e t x => ifInstruction e (ρ t) (ρ x)
  | whileInstruction e b x => whileInstruction e b (ρ x)
  | callInstruction v intra inter => callInstruction v (ρ intra) inter
  | gotoInstruction l => gotoInstruction (ρ l)
  | i => i

def targets : Instruction → List ℤ
  | ifInstruction _ t x => [t, x]
  | whileInstruction _ _ x => [x]
  | callInstruction _ intra _ => [intra]
  | gotoInstruction l => [l]
  | _ => []

def redirect (placeholder next : ℤ) (t : ℤ) : ℤ := if t = placeholder then next else t

theorem retarget_eq_rename (p n : ℤ) (i : Instruction) :
    i.retarget p n = i.rename (redirect p n) := by
  cases i <;> rfl

theorem rename_rename (ρ ρ' : ℤ → ℤ) (i : Instruction) :
    (i.rename ρ').rename ρ = i.rename (ρ ∘ ρ') := by
  cases i <;> rfl

theorem rename_of_targets {ρ : ℤ → ℤ} {i : Instruction} (h : ∀ t ∈ i.targets, ρ t = t) :
    i.rename ρ = i := by
  cases i <;> simp_all [rename, targets]

theorem targets_rename (ρ : ℤ → ℤ) (i : Instruction) :
    (i.rename ρ).targets = i.targets.map ρ := by
  cases i <;> rfl

@[simp] theorem isCall_rename (ρ : ℤ → ℤ) (i : Instruction) : (i.rename ρ).isCall = i.isCall := by
  cases i <;> rfl

@[simp] theorem rename_id (i : Instruction) : i.rename id = i := by cases i <;> rfl

theorem redirect_self (p n : ℤ) : redirect p n p = n := if_pos rfl

theorem redirect_of_ne {p t : ℤ} (n : ℤ) (h : t ≠ p) : redirect p n t = t := if_neg h

end Instruction

open Instruction

namespace PouCompiler

def at? (st : PouCompiler) (l : ℤ) : Option Instruction := st.labelToInstruction.find? l

/-- Labels are handed out upwards from zero, placeholders downwards from below zero. -/
structure Ready (st : PouCompiler) : Prop where
  label_nonneg : 0 ≤ st.label
  next_neg : st.nextLabelPlaceholder < 0
  stack : ∀ p ∈ st.nextLabelPlaceholders, st.nextLabelPlaceholder ≤ p ∧ p < 0
  labels : ∀ l i, st.at? l = some i → l < st.label
  targets : ∀ l i, st.at? l = some i → ∀ t ∈ i.targets, st.nextLabelPlaceholder ≤ t

/-- What holds between the states before and after any statement without calls. -/
structure Extends (st st' : PouCompiler) : Prop where
  ready : st'.Ready
  placeholders : st'.nextLabelPlaceholders = st.nextLabelPlaceholders
  fresh : st'.nextLabelPlaceholder ≤ st.nextLabelPlaceholder
  label_le : st.label ≤ st'.label
  frame : ∀ l < st.label, st'.at? l = st.at? l
  noCall : ∀ l i, st.label ≤ l → st'.at? l = some i → i.isCall = false
  notLast : st.lastStatement = false → st'.lastStatement = false

/-- The last instruction is a goto, at the label `a` or behind it. -/
def LastGoto (st : PouCompiler) (a t : ℤ) : Prop :=
  ∃ l, a ≤ l ∧ st.at? l = some (.gotoInstruction t) ∧ ∀ l' i, st.at? l' = some i → l' ≤ l

/-- The instructions `f` are those emitted between the two states, the placeholders resolved by
`ρ`; where `atEnd` is set, the continuation `k` is the label behind them. -/
structure Placed (f : ℤ → Option Instruction) (ρ : ℤ → ℤ) (st st' : PouCompiler) (k : ℤ)
    (atEnd : Bool) : Prop where
  resolves : ∀ t, 0 ≤ t → ρ t = t
  agrees : ∀ l, st.label ≤ l → l < st'.label → f l = (st'.at? l).map (Instruction.rename ρ)
  atEnd : atEnd = true → ρ k = st'.label

end PouCompiler

open PouCompiler

namespace PouCompiler

/-- Compilation from `st` to `st'` emits code with continuation `k`; the target of its last goto is
code for what the tail says. -/
structure Compiles (st st' : PouCompiler) (k : ℤ) (atEnd : Bool)
    (code : (ℤ → Option Instruction) → ℤ → ℤ → Prop) (τ : Tail) : Prop extends
    Extends st st' where
  code : ∀ {f ρ}, Placed f ρ st st' k atEnd → code f st.label (ρ k)
  nothing : τ.isNothing = true →
    st'.label = st.label ∧ st'.labelToInstruction = st.labelToInstruction
  lastGoto : τ.isNothing = false → ∃ t, LastGoto st' st.label t ∧
    ∀ {f ρ}, Placed f ρ st st' k atEnd → τ.statements.CodeAt f (ρ t) (ρ k)

theorem LastGoto.last? {st : PouCompiler} {a t : ℤ} (h : st.LastGoto a t) :
    ∃ l, st.labelToInstruction.last? = some (l, .gotoInstruction t) := by
  obtain ⟨l, _, hl, hmax⟩ := h
  exact ⟨l, OrderedMap.last?_of_greatest hl hmax⟩

theorem LastGoto.gotoOfLastInstruction {st : PouCompiler} {a t : ℤ} (h : st.LastGoto a t) :
    st.gotoOfLastInstruction = .ok t := by
  obtain ⟨l, hl⟩ := h.last?
  simp [PouCompiler.gotoOfLastInstruction, hl]

theorem LastGoto.targetOfLastInstruction {st : PouCompiler} {a t : ℤ} (h : st.LastGoto a t) :
    st.targetOfLastInstruction = .ok t := by
  obtain ⟨l, hl⟩ := h.last?
  simp [PouCompiler.targetOfLastInstruction, hl]

theorem LastGoto.target_le {st : PouCompiler} (hr : st.Ready) {a t : ℤ} (h : st.LastGoto a t) :
    st.nextLabelPlaceholder ≤ t := by
  obtain ⟨l, _, hl, _⟩ := h
  exact hr.targets l _ hl t List.mem_cons_self

theorem LastGoto.mono {st : PouCompiler} {a b t : ℤ} (h : st.LastGoto b t) (hab : a ≤ b) :
    st.LastGoto a t := by
  obtain ⟨l, hl, hgoto⟩ := h
  exact ⟨l, le_trans hab hl, hgoto⟩

namespace Ready

variable {st : PouCompiler}

theorem at?_label (h : st.Ready) {l : ℤ} (hl : st.label ≤ l) : st.at? l = none := by
  by_contra hne
  obtain ⟨i, hi⟩ := Option.ne_none_iff_exists'.mp hne
  exact absurd (h.labels l i hi) (not_lt.mpr hl)

theorem setLastStatement (h : st.Ready) (b : Bool) : (st.setLastStatement b).Ready :=
  ⟨h.label_nonneg, h.next_neg, h.stack, h.labels, h.targets⟩

theorem skipLabel (h : st.Ready) : st.skipLabel.Ready where
  label_nonneg := by
    have := h.label_nonneg
    simp only [PouCompiler.skipLabel]
    omega
  next_neg := h.next_neg
  stack := h.stack
  labels := by
    intro l i hi
    have := h.labels l i hi
    simp only [PouCompiler.skipLabel]
    omega
  targets := h.targets

theorem pushPlaceholder (h : st.Ready) : st.pushPlaceholder.Ready where
  label_nonneg := h.label_nonneg
  next_neg := by
    have := h.next_neg
    simp only [PouCompiler.pushPlaceholder]
    omega
  stack := by
    intro p hp
    have := h.next_neg
    simp only [PouCompiler.pushPlaceholder, List.mem_cons] at hp ⊢
    rcases hp with rfl | hp
    · omega
    · have := h.stack p hp
      omega
  labels := h.labels
  targets := by
    intro l i hi t ht
    have := h.targets l i hi t ht
    simp only [PouCompiler.pushPlaceholder]
    omega

theorem emplace (h : st.Ready) {l : ℤ} {i : Instruction} (hl : l < st.label)
    (hi : ∀ t ∈ i.targets, st.nextLabelPlaceholder ≤ t) : (st.emplace l i).Ready := by
  have key : ∀ l' i', (st.emplace l i).at? l' = some i' → (l' = l ∧ i' = i) ∨
      st.at? l' = some i' := by
    intro l' i' h'
    simp only [at?, PouCompiler.emplace, OrderedMap.find?_emplace] at h' ⊢
    split_ifs at h' with he
    · subst he
      cases hf : st.labelToInstruction.find? l' with
      | none => simp_all
      | some j => simp_all
    · exact Or.inr h'
  refine ⟨h.label_nonneg, h.next_neg, h.stack, ?_, ?_⟩
  · intro l' i' h'
    rcases key l' i' h' with ⟨rfl, _⟩ | h'
    · exact hl
    · exact h.labels l' i' h'
  · intro l' i' h'
    rcases key l' i' h' with ⟨_, rfl⟩ | h'
    · exact hi
    · exact h.targets l' i' h'

end Ready

theorem at?_emplace_self {st : PouCompiler} {l : ℤ} {i : Instruction} (h : st.at? l = none) :
    (st.emplace l i).at? l = some i :=
  OrderedMap.find?_emplace_self i h

theorem at?_emplace_ne {st : PouCompiler} {l l' : ℤ} {i : Instruction} (h : l' ≠ l) :
    (st.emplace l i).at? l' = st.at? l' :=
  OrderedMap.find?_emplace_ne _ i h

theorem LastGoto.emplace {st : PouCompiler} {a t l : ℤ} {i : Instruction} (h : st.LastGoto a t)
    (hl : l < a) : (st.emplace l i).LastGoto a t := by
  obtain ⟨c, hac, hc, hmax⟩ := h
  refine ⟨c, hac, by rw [at?_emplace_ne (by omega)]; exact hc, ?_⟩
  intro b j hb
  by_cases hbl : b = l
  · omega
  · rw [at?_emplace_ne hbl] at hb
    exact hmax b j hb

namespace Extends

variable {st st₁ st₂ : PouCompiler}

theorem trans (h₁ : Extends st st₁) (h₂ : Extends st₁ st₂) : Extends st st₂ where
  ready := h₂.ready
  placeholders := h₂.placeholders.trans h₁.placeholders
  fresh := le_trans h₂.fresh h₁.fresh
  label_le := le_trans h₁.label_le h₂.label_le
  frame := fun l hl => (h₂.frame l (lt_of_lt_of_le hl h₁.label_le)).trans (h₁.frame l hl)
  noCall := by
    intro l i hl hi
    by_cases h : st₁.label ≤ l
    · exact h₂.noCall l i h hi
    · rw [h₂.frame l (not_le.mp h)] at hi
      exact h₁.noCall l i hl hi
  notLast := fun h => h₂.notLast (h₁.notLast h)

theorem refl (hr : st.Ready) : Extends st st :=
  ⟨hr, rfl, le_rfl, le_rfl, fun _ _ => rfl, fun l i hl hi => by simp [hr.at?_label hl] at hi, id⟩

theorem skipLabel (hr : st.Ready) : Extends st st.skipLabel where
  ready := hr.skipLabel
  placeholders := rfl
  fresh := le_rfl
  label_le := by
    simp only [PouCompiler.skipLabel]
    omega
  frame := fun _ _ => rfl
  noCall := by
    intro l i hl hi
    rw [show st.skipLabel.at? l = st.at? l from rfl, hr.at?_label hl] at hi
    cases hi
  notLast := id

theorem header (h : Extends st st₁) (hlt : st.label < st₁.label) (hnone : st₁.at? st.label = none)
    {i : Instruction} (hi : ∀ t ∈ i.targets, st₁.nextLabelPlaceholder ≤ t)
    (hc : i.isCall = false) : Extends st (st₁.emplace st.label i) where
  ready := h.ready.emplace hlt hi
  placeholders := h.placeholders
  fresh := h.fresh
  label_le := h.label_le
  frame := by
    intro l hl
    rw [at?_emplace_ne (ne_of_lt hl)]
    exact h.frame l hl
  noCall := by
    intro l j hl hj
    by_cases he : l = st.label
    · subst he
      rw [at?_emplace_self hnone] at hj
      cases hj
      exact hc
    · rw [at?_emplace_ne he] at hj
      exact h.noCall l j hl hj
  notLast := h.notLast

theorem at?_header (h : Extends st.skipLabel st₁) (hr : st.Ready) :
    st.label < st₁.label ∧ st₁.at? st.label = none := by
  have hle := h.label_le
  simp only [PouCompiler.skipLabel] at hle
  refine ⟨by omega, ?_⟩
  rw [h.frame st.label (by simp only [PouCompiler.skipLabel]; omega)]
  exact hr.at?_label le_rfl

theorem emit (hr : st.Ready) {i : Instruction} (hi : ∀ t ∈ i.targets, st.nextLabelPlaceholder ≤ t)
    (hc : i.isCall = false) : Extends st (st.emit i) ∧ (st.emit i).at? st.label = some i := by
  obtain ⟨hlt, hnone⟩ := at?_header (refl hr.skipLabel) hr
  exact ⟨header (skipLabel hr) hlt hnone hi hc, at?_emplace_self hnone⟩

theorem at?_resolveTop {p : ℤ} {ps : List ℤ} (hp : st.nextLabelPlaceholders = p :: ps) (n l : ℤ) :
    (st.resolveTop n).at? l = (st.at? l).map (Instruction.rename (redirect p n)) := by
  have h : (fun i => Instruction.retarget p n i) = Instruction.rename (redirect p n) :=
    funext (retarget_eq_rename p n)
  simp only [PouCompiler.resolveTop, hp, at?, OrderedMap.find?_mapValues, ← h]

/-- Resolving the placeholder pushed before leaves everything emitted earlier as it was. -/
theorem resolveTop (h : Extends st.pushPlaceholder st₁) (hr : st.Ready) {n : ℤ} (hn : 0 ≤ n) :
    Extends st (st₁.resolveTop n) := by
  have hp : st₁.nextLabelPlaceholders =
      (st.nextLabelPlaceholder - 1) :: st.nextLabelPlaceholders := h.placeholders
  have hat := at?_resolveTop hp n
  have hfresh : st₁.nextLabelPlaceholder ≤ st.nextLabelPlaceholder - 1 := h.fresh
  have hneg := hr.next_neg
  have hfields : (st₁.resolveTop n).label = st₁.label ∧
      (st₁.resolveTop n).nextLabelPlaceholder = st₁.nextLabelPlaceholder ∧
      (st₁.resolveTop n).nextLabelPlaceholders = st.nextLabelPlaceholders ∧
      (st₁.resolveTop n).lastStatement = st₁.lastStatement := by
    simp [PouCompiler.resolveTop, hp]
  obtain ⟨hlabel, hnext, hstack, hlast⟩ := hfields
  refine ⟨⟨?_, ?_, ?_, ?_, ?_⟩, hstack, ?_, ?_, ?_, ?_, ?_⟩
  · rw [hlabel]
    exact h.ready.label_nonneg
  · rw [hnext]
    exact h.ready.next_neg
  · intro q hq
    rw [hstack] at hq
    rw [hnext]
    have := hr.stack q hq
    omega
  · intro l i hi
    rw [hat] at hi
    obtain ⟨j, hj, _⟩ := Option.map_eq_some_iff.mp hi
    rw [hlabel]
    exact h.ready.labels l j hj
  · intro l i hi t ht
    rw [hat] at hi
    obtain ⟨j, hj, rfl⟩ := Option.map_eq_some_iff.mp hi
    rw [targets_rename] at ht
    obtain ⟨u, hu, rfl⟩ := List.mem_map.mp ht
    have := h.ready.targets l j hj u hu
    rw [hnext]
    simp only [redirect]
    split_ifs <;> omega
  · rw [hnext]
    omega
  · rw [hlabel]
    exact h.label_le
  · intro l hl
    rw [hat, h.frame l hl]
    cases hi : st.at? l with
    | none => simp [show st.pushPlaceholder.at? l = st.at? l from rfl, hi]
    | some i =>
      have hid : i.rename (redirect (st.nextLabelPlaceholder - 1) n) = i := by
        refine rename_of_targets fun t ht => redirect_of_ne n ?_
        have := hr.targets l i hi t ht
        omega
      simp [show st.pushPlaceholder.at? l = st.at? l from rfl, hi, hid]
  · intro l i hl hi
    rw [hat] at hi
    obtain ⟨j, hj, rfl⟩ := Option.map_eq_some_iff.mp hi
    rw [isCall_rename]
    exact h.noCall l j hl hj
  · intro hf
    rw [hlast]
    exact h.notLast hf

end Extends

theorem LastGoto.resolveTop {st : PouCompiler} {a t p : ℤ} {ps : List ℤ} (h : st.LastGoto a t)
    (hp : st.nextLabelPlaceholders = p :: ps) (n : ℤ) :
    (st.resolveTop n).LastGoto a (redirect p n t) := by
  obtain ⟨l, hal, hl, hmax⟩ := h
  refine ⟨l, hal, ?_, ?_⟩
  · rw [Extends.at?_resolveTop hp, hl]
    rfl
  · intro l' i hi
    rw [Extends.at?_resolveTop hp] at hi
    obtain ⟨j, hj, _⟩ := Option.map_eq_some_iff.mp hi
    exact hmax l' j hj

namespace Placed

variable {f : ℤ → Option Instruction} {ρ : ℤ → ℤ} {st st₁ st₂ : PouCompiler} {k : ℤ} {b : Bool}

theorem left (h : Placed f ρ st st₂ k b) (h₁ : Extends st st₁) (h₂ : Extends st₁ st₂) :
    Placed f ρ st st₁ st₁.label true where
  resolves := h.resolves
  agrees := by
    intro l hl hl'
    rw [h.agrees l hl (lt_of_lt_of_le hl' h₂.label_le), h₂.frame l hl']
  atEnd := fun _ => h.resolves _ h₁.ready.label_nonneg

theorem inner (h : Placed f ρ st st₂ k b) (h₂ : Extends st₁ st₂) :
    Placed f ρ st st₁ k false where
  resolves := h.resolves
  agrees := by
    intro l hl hl'
    rw [h.agrees l hl (lt_of_lt_of_le hl' h₂.label_le), h₂.frame l hl']
  atEnd := by simp

theorem right (h : Placed f ρ st st₂ k b) (h₁ : Extends st st₁) : Placed f ρ st₁ st₂ k b where
  resolves := h.resolves
  agrees := fun l hl hl' => h.agrees l (le_trans h₁.label_le hl) hl'
  atEnd := h.atEnd

theorem header {i : Instruction} (h : Placed f ρ st (st₁.emplace st.label i) k b)
    (hlt : st.label < st₁.label) (hnone : st₁.at? st.label = none) :
    f st.label = some (i.rename ρ) ∧ Placed f ρ st.skipLabel st₁ k b := by
  refine ⟨?_, h.resolves, ?_, h.atEnd⟩
  · rw [h.agrees st.label le_rfl hlt, at?_emplace_self hnone]
    rfl
  · intro l hl hl'
    simp only [skipLabel] at hl
    rw [h.agrees l (by omega) hl', at?_emplace_ne (by omega)]

theorem resolveTop {p : ℤ} {ps : List ℤ} {n : ℤ} {b' : Bool}
    (h : Placed f ρ st (st₁.resolveTop n) k b) (hp : st₁.nextLabelPlaceholders = p :: ps)
    (hneg : p < 0) (hn : 0 ≤ n) (hb : b' = true → n = st₁.label) :
    Placed f (ρ ∘ redirect p n) st st₁ p b' where
  resolves := by
    intro t ht
    simp only [Function.comp, redirect_of_ne n (by omega : t ≠ p)]
    exact h.resolves t ht
  agrees := by
    intro l hl hl'
    have hlabel : (st₁.resolveTop n).label = st₁.label := by simp [PouCompiler.resolveTop, hp]
    rw [h.agrees l hl (by rw [hlabel]; exact hl'), Extends.at?_resolveTop hp, Option.map_map]
    congr 1
    exact funext fun i => rename_rename _ _ i
  atEnd := by
    intro hb'
    simp only [Function.comp, redirect_self, h.resolves n hn]
    exact hb hb'

end Placed

end PouCompiler

end Ahorn
