import Mathlib.Data.List.Defs

set_option autoImplicit false

/-!
# Computations that may fail

An exception ends a computation with an error; what has succeeded has succeeded in every part.
-/
namespace Ahorn

theorem bind_eq_ok {α β : Type} {x : Except String α} {f : α → Except String β} {b : β}
    (h : (x >>= f) = .ok b) : ∃ a, x = .ok a ∧ f a = .ok b := by
  cases x with
  | error e => cases h
  | ok a => exact ⟨a, rfl, h⟩

theorem exists_bind_ok {α β : Type} {x : Except String α} {f : α → Except String β}
    (hx : ∃ a, x = .ok a) (hf : ∀ a, x = .ok a → ∃ b, f a = .ok b) : ∃ b, (x >>= f) = .ok b := by
  obtain ⟨a, ha⟩ := hx
  obtain ⟨b, hb⟩ := hf a ha
  exact ⟨b, by rw [ha]; exact hb⟩

theorem ite_bind_eq_ok {α β : Type} {c : Prop} [Decidable c] {x y : Except String α}
    {f : α → Except String β} {b : β} (h : (if c then x >>= f else y >>= f) = .ok b) :
    ∃ a, (if c then x else y) = .ok a ∧ f a = .ok b := by
  by_cases hc : c
  · rw [if_pos hc] at h ⊢
    exact bind_eq_ok h
  · rw [if_neg hc] at h ⊢
    exact bind_eq_ok h

theorem toOption_eq_some {α : Type} {x : Except String α} {a : α} (h : x.toOption = some a) :
    x = .ok a := by
  cases x with
  | error e => cases h
  | ok b =>
    cases h
    rfl

theorem forM_eq_ok {α : Type} {f : α → Except String Unit} {l : List α} :
    l.forM f = .ok () ↔ ∀ x ∈ l, f x = .ok () := by
  induction l with
  | nil => simp [List.forM, pure, Except.pure]
  | cons x l ih =>
    rw [List.forall_mem_cons, ← ih]
    constructor
    · intro h
      obtain ⟨⟨⟩, hx, hl⟩ := bind_eq_ok h
      exact ⟨hx, hl⟩
    · rintro ⟨hx, hl⟩
      unfold List.forM
      rw [hx]
      exact hl

theorem mapM_eq_ok {α β : Type} {f : α → Except String β} {g : α → β} {l : List α}
    (h : ∀ x ∈ l, f x = .ok (g x)) : l.mapM f = .ok (l.map g) := by
  induction l with
  | nil => rfl
  | cons x l ih =>
    rw [List.mapM_cons, h x List.mem_cons_self, ih fun y hy => h y (List.mem_cons_of_mem _ hy)]
    rfl

theorem mapM_eq_map {α β : Type} {f : α → Except String β} {g : α → β} {l : List α} {l' : List β}
    (hf : ∀ x ∈ l, ∀ y, f x = .ok y → y = g x) (h : l.mapM f = .ok l') : l' = l.map g := by
  induction l generalizing l' with
  | nil =>
    cases h
    rfl
  | cons x l ih =>
    rw [List.mapM_cons] at h
    obtain ⟨y, hy, h⟩ := bind_eq_ok h
    obtain ⟨ys, hys, h⟩ := bind_eq_ok h
    cases h
    rw [hf x List.mem_cons_self y hy,
      ih (fun x hx => hf x (List.mem_cons_of_mem _ hx)) hys, List.map_cons]

theorem foldlM_keeps {α β : Type} {f : β → α → Except String β} {l : List α} {P : β → Prop}
    (h : ∀ x ∈ l, ∀ b, P b → ∃ b', f b x = .ok b' ∧ P b') {b : β} (hb : P b) :
    ∃ b', l.foldlM f b = .ok b' ∧ P b' := by
  induction l generalizing b with
  | nil => exact ⟨b, rfl, hb⟩
  | cons x l ih =>
    obtain ⟨b₁, hb₁, hP⟩ := h x List.mem_cons_self b hb
    obtain ⟨b', hb', hP'⟩ := ih (fun y hy => h y (List.mem_cons_of_mem _ hy)) hP
    refine ⟨b', ?_, hP'⟩
    rw [List.foldlM_cons, hb₁]
    exact hb'

theorem foldlM_ok {α β : Type} {f : β → α → Except String β} {l : List α}
    (h : ∀ x ∈ l, ∀ b, ∃ b', f b x = .ok b') (b : β) : ∃ b', l.foldlM f b = .ok b' := by
  have hkeeps : ∃ b', l.foldlM f b = .ok b' ∧ True := by
    apply foldlM_keeps (P := fun _ => True)
    · intro x hx b _
      obtain ⟨b', hb'⟩ := h x hx b
      exact ⟨b', hb', trivial⟩
    · trivial
  exact hkeeps.imp fun _ h => h.1

theorem foldlM_preserves {α β : Type} {f : β → α → Except String β} {l : List α} {P : β → Prop}
    (h : ∀ x ∈ l, ∀ b b', P b → f b x = .ok b' → P b') {b b' : β} (hb : P b)
    (hfold : l.foldlM f b = .ok b') : P b' := by
  induction l generalizing b with
  | nil =>
    cases hfold
    exact hb
  | cons x l ih =>
    rw [List.foldlM_cons] at hfold
    obtain ⟨b₁, hb₁, hfold⟩ := bind_eq_ok hfold
    exact ih (fun y hy => h y (List.mem_cons_of_mem _ hy)) (h x List.mem_cons_self b b₁ hb hb₁)
      hfold

theorem forall₂_of_mapM {α β : Type} {f : α → Except String β} {l : List α} {l' : List β}
    (h : l.mapM f = .ok l') : List.Forall₂ (fun x y => f x = .ok y) l l' := by
  induction l generalizing l' with
  | nil =>
    cases h
    exact .nil
  | cons x l ih =>
    rw [List.mapM_cons] at h
    obtain ⟨y, hy, h⟩ := bind_eq_ok h
    obtain ⟨ys, hys, h⟩ := bind_eq_ok h
    cases h
    exact .cons hy (ih hys)

theorem exists_of_mem_mapM {α β : Type} {f : α → Except String β} {l : List α} {l' : List β}
    (h : l.mapM f = .ok l') {y : β} (hy : y ∈ l') : ∃ x ∈ l, f x = .ok y := by
  induction l generalizing l' with
  | nil =>
    cases h
    cases hy
  | cons x l ih =>
    rw [List.mapM_cons] at h
    obtain ⟨y', hy', h⟩ := bind_eq_ok h
    obtain ⟨ys, hys, h⟩ := bind_eq_ok h
    cases h
    rcases List.mem_cons.mp hy with rfl | hy
    · exact ⟨x, List.mem_cons_self, hy'⟩
    · obtain ⟨x', hx', hf⟩ := ih hys hy
      exact ⟨x', List.mem_cons_of_mem x hx', hf⟩

end Ahorn
