import Mathlib.Data.List.Count
import Mathlib.Data.List.Perm.Basic

set_option autoImplicit false

/-!
# Partitions of inputs

The members of a list admit inputs. Where a member is replaced by others that share its inputs among
them, and where members are united to one that admits what they admit, an input that belonged to
exactly one member still does.
-/
namespace Ahorn.Partition

open Classical

variable {ι α : Type} {admits : ι → α → Prop} {i j k : ι} {l l' rest : List ι} {x : α}

/-- How many members of the list admit the input. -/
noncomputable def admitting (admits : ι → α → Prop) (x : α) (l : List ι) : ℕ :=
  l.countP fun i => admits i x

theorem admitting_append (x : α) (l l' : List ι) :
    admitting admits x (l ++ l') = admitting admits x l + admitting admits x l' := List.countP_append

theorem admitting_cons (x : α) (i : ι) (l : List ι) :
    admitting admits x (i :: l) = admitting admits x [i] + admitting admits x l :=
  admitting_append x [i] l

theorem admitting_single (x : α) (i : ι) :
    admitting admits x [i] = if admits i x then 1 else 0 := by
  simp [admitting, List.countP_cons]

theorem admitting_perm (h : l.Perm l') (x : α) : admitting admits x l = admitting admits x l' :=
  h.countP_eq _

/-- The members of the list share the inputs of one member among them. -/
def Splits (admits : ι → α → Prop) (i : ι) (l : List ι) : Prop :=
  ∀ x, admitting admits x l = admitting admits x [i]

theorem Splits.single (h : ∀ x, admits j x ↔ admits i x) : Splits admits i [j] := by
  intro x
  rw [admitting_single, admitting_single]
  simp only [h]

theorem Splits.pair {P : α → Prop} (h : ∀ x, admits j x ↔ admits i x ∧ P x)
    (h' : ∀ x, admits k x ↔ admits i x ∧ ¬ P x) : Splits admits i [j, k] := by
  intro x
  rw [admitting_cons, admitting_single, admitting_single, admitting_single]
  simp only [h, h']
  by_cases hi : admits i x <;> by_cases hP : P x <;> simp [hi, hP]

theorem Splits.replace (h : Splits admits i l) (x : α) (rest : List ι) :
    admitting admits x (l ++ rest) = admitting admits x (i :: rest) := by
  rw [admitting_append, h x, ← admitting_cons]

theorem exists_only_of_admitting (h : admitting admits x l = 1) :
    ∃ before i after, l = before ++ i :: after ∧ admits i x ∧
      ∀ j ∈ before ++ after, ¬ admits j x := by
  obtain ⟨i, hi, hx⟩ := List.countP_pos_iff.mp (h.symm ▸ Nat.one_pos : 0 < admitting admits x l)
  obtain ⟨before, after, rfl⟩ := List.append_of_mem hi
  have hx := of_decide_eq_true hx
  refine ⟨before, i, after, rfl, hx, ?_⟩
  have hnone : admitting admits x (before ++ after) = 0 := by
    rw [admitting_append, admitting_cons, admitting_single, if_pos hx] at h
    rw [admitting_append]
    omega
  exact fun j hj hjx => List.countP_eq_zero.mp hnone j hj (decide_eq_true hjx)

end Ahorn.Partition
