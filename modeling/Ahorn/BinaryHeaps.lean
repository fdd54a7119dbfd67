import Mathlib.Data.Fin.Basic
import Mathlib.Data.Multiset.AddSub

set_option autoImplicit false

/-!
# Binary heaps in a vector

The heap functions of the standard library, on a comparator that need not be a strict one: it is
enough that the elements it is true of stand in a transitive relation one way around, and those it
is false of the other way around.
-/
namespace Ahorn.BinaryHeap

variable {α : Type}

section Positions

variable {n : ℕ}

def parent (i : Fin n) : Fin n := ⟨(i.val - 1) / 2, by omega⟩

theorem parent_lt {i : Fin n} (hi : 0 < i.val) : (parent i).val < i.val := by
  unfold parent
  dsimp only
  omega

def left (i : Fin n) (h : 2 * i.val + 1 < n) : Fin n := ⟨2 * i.val + 1, h⟩

def right (i : Fin n) (h : 2 * i.val + 2 < n) : Fin n := ⟨2 * i.val + 2, h⟩

@[simp] theorem parent_left (i : Fin n) (h : 2 * i.val + 1 < n) : parent (left i h) = i := by
  unfold parent left
  apply Fin.ext
  dsimp only
  omega

@[simp] theorem parent_right (i : Fin n) (h : 2 * i.val + 2 < n) : parent (right i h) = i := by
  unfold parent right
  apply Fin.ext
  dsimp only
  omega

theorem children {i j : Fin n} (hj : 0 < j.val) (h : parent j = i) :
    j.val = 2 * i.val + 1 ∨ j.val = 2 * i.val + 2 := by
  subst h
  unfold parent
  dsimp only
  omega

theorem get_swap (a : Vector α n) (i j k : Fin n) :
    (a.swap i j).get k = if k = i then a.get j else if k = j then a.get i else a.get k := by
  change (a.swap i j)[k.val] = if k = i then a[j.val] else if k = j then a[i.val] else a[k.val]
  simp only [Vector.getElem_swap, Fin.ext_iff]

@[simp] theorem get_swap_left (a : Vector α n) (i j : Fin n) : (a.swap i j).get i = a.get j := by
  rw [get_swap, if_pos rfl]

@[simp] theorem get_swap_right (a : Vector α n) (i j : Fin n) : (a.swap i j).get j = a.get i := by
  rw [get_swap, if_pos rfl]
  split_ifs with h
  · rw [h]
  · rfl

theorem get_swap_of_ne (a : Vector α n) {i j k : Fin n} (hi : k ≠ i) (hj : k ≠ j) :
    (a.swap i j).get k = a.get k := by
  rw [get_swap, if_neg hi, if_neg hj]

end Positions

section Functions

variable {n : ℕ} (comp : α → α → Bool)

/-- The value at a position rises as long as the comparator puts its parent below it. -/
def siftUp (a : Vector α n) (i : Fin n) : Vector α n :=
  if h : 0 < i.val then
    if comp (a.get (parent i)) (a.get i) then siftUp (a.swap i (parent i)) (parent i) else a
  else a
termination_by i.val
decreasing_by exact parent_lt h

/-- The value at a position sinks to a leaf, in exchange with the greater child each time, and rises
from there. -/
def siftDown (a : Vector α n) (i : Fin n) : Vector α n :=
  if h : 2 * i.val + 2 < n then
    if comp (a.get (right i h)) (a.get (left i (by omega))) then
      siftDown (a.swap i (left i (by omega))) (left i (by omega))
    else siftDown (a.swap i (right i h)) (right i h)
  else if h' : 2 * i.val + 1 < n then siftUp comp (a.swap i (left i h')) (left i h')
  else siftUp comp a i
termination_by n - i.val
decreasing_by
  · unfold left
    dsimp only
    omega
  · unfold right
    dsimp only
    omega

/-- Takes the last value into the heap in front of it. -/
def pushHeap (a : Vector α (n + 1)) : Vector α (n + 1) := siftUp comp a (Fin.last n)

/-- Exchanges the first value of the heap with the last one and makes a heap of those in front. -/
def popHeap (a : Vector α (n + 1)) : Vector α (n + 1) :=
  if h : 0 < n then
    (siftDown comp (a.swap 0 n).pop ⟨0, by omega⟩).push (a.get 0)
  else a

end Functions

section Orders

variable {n : ℕ} (r : α → α → Prop)

/-- Every value is below its parent. -/
def IsHeap (a : Vector α n) : Prop := ∀ j : Fin n, 0 < j.val → r (a.get j) (a.get (parent j))

/-- Only the value at the position may stand above its parent. -/
structure UpOrder (a : Vector α n) (i : Fin n) : Prop where
  except : ∀ j : Fin n, 0 < j.val → j ≠ i → r (a.get j) (a.get (parent j))
  grand : ∀ j : Fin n, 0 < j.val → parent j = i → 0 < i.val → r (a.get j) (a.get (parent i))

/-- Nothing is known of the value at the position. -/
structure DownOrder (a : Vector α n) (i : Fin n) : Prop where
  except : ∀ j : Fin n, 0 < j.val → j ≠ i → parent j ≠ i → r (a.get j) (a.get (parent j))
  grand : ∀ j : Fin n, 0 < j.val → parent j = i → 0 < i.val → r (a.get j) (a.get (parent i))

/-- What the comparator says of two values follows the relation. -/
structure Follows (comp : α → α → Bool) : Prop where
  trans : ∀ x y z, r x y → r y z → r x z
  below : ∀ x y, comp x y = true → r x y
  above : ∀ x y, comp x y = false → r y x

variable {r} {comp : α → α → Bool}

theorem Follows.refl (hr : Follows r comp) (x : α) : r x x := by
  cases h : comp x x
  · exact hr.above x x h
  · exact hr.below x x h

/-- The value moves up where its parent is below it. -/
theorem UpOrder.move (hr : Follows r comp) {a : Vector α n} {i : Fin n} (ha : UpOrder r a i)
    (hi : 0 < i.val) (hcomp : r (a.get (parent i)) (a.get i)) :
    UpOrder r (a.swap i (parent i)) (parent i) := by
  have hlt := parent_lt hi
  have hne : parent i ≠ i := fun h => by rw [h] at hlt; omega
  constructor
  · intro j hj hjp
    have hltj := parent_lt hj
    by_cases hji : j = i
    · subst hji
      rw [get_swap_left, get_swap_right]
      exact hcomp
    rw [get_swap_of_ne a hji hjp]
    by_cases hpi : parent j = i
    · rw [hpi, get_swap_left]
      exact ha.grand j hj hpi hi
    by_cases hpp : parent j = parent i
    · rw [hpp, get_swap_right]
      have hj' := ha.except j hj hji
      rw [hpp] at hj'
      exact hr.trans _ _ _ hj' hcomp
    · rw [get_swap_of_ne a hpi hpp]
      exact ha.except j hj hji
  · intro j hj hp hi'
    have hlt' := parent_lt hi'
    have htop : (a.swap i (parent i)).get (parent (parent i)) = a.get (parent (parent i)) := by
      refine get_swap_of_ne a (fun h => ?_) (fun h => ?_)
      · rw [h] at hlt'
        omega
      · rw [h] at hlt'
        omega
    have hparent := ha.except (parent i) hi' hne
    rw [htop]
    by_cases hji : j = i
    · rw [hji, get_swap_left]
      exact hparent
    · have hjp : j ≠ parent i := fun h => by
        have := parent_lt hj
        rw [hp, h] at this
        omega
      rw [get_swap_of_ne a hji hjp]
      have hj' := ha.except j hj hji
      rw [hp] at hj'
      exact hr.trans _ _ _ hj' hparent

theorem siftUp_isHeap (hr : Follows r comp) (a : Vector α n) (i : Fin n) (ha : UpOrder r a i) :
    IsHeap r (siftUp comp a i) := by
  induction a, i using siftUp.induct comp with
  | case1 a i hi hcomp ih =>
    rw [siftUp, dif_pos hi, if_pos hcomp]
    exact ih (ha.move hr hi (hr.below _ _ hcomp))
  | case2 a i hi hcomp =>
    rw [siftUp, dif_pos hi, if_neg hcomp]
    intro j hj
    by_cases hji : j = i
    · subst hji
      exact hr.above _ _ (Bool.eq_false_iff.mpr hcomp)
    · exact ha.except j hj hji
  | case3 a i hi =>
    rw [siftUp, dif_neg hi]
    intro j hj
    refine ha.except j hj fun hji => hi ?_
    rwa [← hji]

/-- A child that the other one is not above moves up. -/
theorem DownOrder.move {a : Vector α n} {i c : Fin n} (ha : DownOrder r a i) (hc : 0 < c.val)
    (hparent : parent c = i)
    (hgreatest : ∀ j : Fin n, 0 < j.val → parent j = i → j ≠ c → r (a.get j) (a.get c)) :
    DownOrder r (a.swap i c) c := by
  have hlt := parent_lt hc
  rw [hparent] at hlt
  have hic : i ≠ c := fun h => by rw [h] at hlt; omega
  constructor
  · intro j hj hjc hpc
    have hltj := parent_lt hj
    by_cases hji : j = i
    · subst hji
      have hpj : parent j ≠ j := fun h => by rw [h] at hltj; omega
      rw [get_swap_left, get_swap_of_ne a hpj hpc]
      exact ha.grand c hc hparent hj
    rw [get_swap_of_ne a hji hjc]
    by_cases hpi : parent j = i
    · rw [hpi, get_swap_left]
      exact hgreatest j hj hpi hjc
    · rw [get_swap_of_ne a hpi hpc]
      exact ha.except j hj hji hpi
  · intro j hj hp hc'
    have hltj := parent_lt hj
    rw [hp] at hltj
    have hjc : j ≠ c := fun h => by rw [h] at hltj; omega
    have hji : j ≠ i := fun h => by rw [h] at hltj; omega
    rw [hparent, get_swap_left, get_swap_of_ne a hji hjc, ← hp]
    refine ha.except j hj hji fun h => hic ?_
    rw [← h, hp]

theorem DownOrder.leaf {a : Vector α n} {i : Fin n} (ha : DownOrder r a i)
    (hleaf : n ≤ 2 * i.val + 1) : UpOrder r a i := by
  have hno : ∀ j : Fin n, 0 < j.val → parent j ≠ i := fun j hj hp => by
    have := children hj hp
    omega
  exact ⟨fun j hj hji => ha.except j hj hji (hno j hj), fun j hj hp => absurd hp (hno j hj)⟩

theorem siftDown_isHeap (hr : Follows r comp) (a : Vector α n) (i : Fin n) (ha : DownOrder r a i) :
    IsHeap r (siftDown comp a i) := by
  induction a, i using siftDown.induct comp with
  | case1 a i h hcomp ih =>
    rw [siftDown, dif_pos h, if_pos hcomp]
    refine ih (ha.move (by unfold left; dsimp only; omega) (parent_left i _) fun j hj hp hne => ?_)
    have : j = right i h := Fin.ext ((children hj hp).resolve_left fun h => hne (Fin.ext h))
    subst this
    exact hr.below _ _ hcomp
  | case2 a i h hcomp ih =>
    rw [siftDown, dif_pos h, if_neg hcomp]
    refine ih (ha.move (by unfold right; dsimp only; omega) (parent_right i _) fun j hj hp hne => ?_)
    have : j = left i (by omega) :=
      Fin.ext ((children hj hp).resolve_right fun h => hne (Fin.ext h))
    rw [this]
    exact hr.above _ _ (Bool.eq_false_iff.mpr hcomp)
  | case3 a i h h' =>
    rw [siftDown, dif_neg h, dif_pos h']
    refine siftUp_isHeap hr _ _ (DownOrder.leaf (ha.move ?_ (parent_left i h') ?_) ?_)
    · unfold left
      dsimp only
      omega
    · intro j hj hp hne
      exact absurd (Fin.ext ((children hj hp).resolve_right (by omega))) hne
    · unfold left
      dsimp only
      omega
  | case4 a i h h' =>
    rw [siftDown, dif_neg h, dif_neg h']
    exact siftUp_isHeap hr _ _ (ha.leaf (by omega))

theorem IsHeap.greatest (hr : Follows r comp) {a : Vector α (n + 1)} (ha : IsHeap r a)
    (j : Fin (n + 1)) : r (a.get j) (a.get 0) := by
  induction hj : j.val using Nat.strong_induction_on generalizing j with
  | _ k ih =>
    by_cases hpos : 0 < j.val
    · exact hr.trans _ _ _ (ha j hpos) (ih _ (hj ▸ parent_lt hpos) _ rfl)
    · have : j = 0 := Fin.ext (by simpa using hpos)
      rw [this]
      exact hr.refl _

theorem pushHeap_isHeap (hr : Follows r comp) {a : Vector α n} (ha : IsHeap r a) (x : α) :
    IsHeap r (pushHeap comp (a.push x)) := by
  apply siftUp_isHeap hr
  have hold : ∀ j : Fin (n + 1), ∀ h : j.val < n, (a.push x).get j = a.get ⟨j, h⟩ := fun j h =>
    Vector.getElem_push_lt h
  constructor
  · intro j hj hlast
    have hjn : j.val < n := Fin.val_lt_last hlast
    have hpn : (parent j).val < n := (parent_lt hj).trans hjn
    rw [hold j hjn, hold _ hpn]
    exact ha ⟨j, hjn⟩ hj
  · intro j hj hp
    have hlt := parent_lt hj
    have hle := Fin.le_last j
    rw [hp] at hlt
    exact absurd hle (not_le_of_gt hlt)

theorem popHeap_isHeap (hr : Follows r comp) {a : Vector α (n + 1)} (ha : IsHeap r a) :
    ∃ b : Vector α n, popHeap comp a = b.push (a.get 0) ∧ IsHeap r b := by
  unfold popHeap
  split_ifs with hn
  · refine ⟨_, rfl, siftDown_isHeap hr _ _ ⟨?_, ?_⟩⟩
    · intro j hj hji hpi
      have hold : ∀ k : Fin n, 0 < k.val → (a.swap 0 n).pop.get k = a.get k.castSucc := by
        intro k hk
        change (a.swap 0 n).pop[k.val] = a[k.val]
        rw [Vector.getElem_pop, Vector.getElem_swap_of_ne (by omega) (by omega)]
      have hp : 0 < (parent j).val := by
        by_contra h
        exact hpi (Fin.ext (by simpa using h))
      have := ha j.castSucc hj
      rw [hold j hj, hold _ hp]
      exact this
    · intro j hj hp hi
      simp at hi
  · have hn : n = 0 := by omega
    subst hn
    refine ⟨a.pop, ?_, fun j => j.elim0⟩
    ext k hk
    have : k = 0 := by omega
    subst this
    rw [Vector.getElem_push]
    rfl

end Orders

section Permutations

variable {n : ℕ} (comp : α → α → Bool)

theorem siftUp_perm (a : Vector α n) (i : Fin n) : (siftUp comp a i).toList.Perm a.toList := by
  induction a, i using siftUp.induct comp with
  | case1 a i hi hcomp ih =>
    rw [siftUp, dif_pos hi, if_pos hcomp]
    exact ih.trans (Vector.swap_perm _ _).toList
  | case2 a i hi hcomp => rw [siftUp, dif_pos hi, if_neg hcomp]
  | case3 a i hi => rw [siftUp, dif_neg hi]

theorem siftDown_perm (a : Vector α n) (i : Fin n) :
    (siftDown comp a i).toList.Perm a.toList := by
  induction a, i using siftDown.induct comp with
  | case1 a i h hcomp ih =>
    rw [siftDown, dif_pos h, if_pos hcomp]
    exact ih.trans (Vector.swap_perm _ _).toList
  | case2 a i h hcomp ih =>
    rw [siftDown, dif_pos h, if_neg hcomp]
    exact ih.trans (Vector.swap_perm _ _).toList
  | case3 a i h h' =>
    rw [siftDown, dif_neg h, dif_pos h']
    exact (siftUp_perm comp _ _).trans (Vector.swap_perm _ _).toList
  | case4 a i h h' =>
    rw [siftDown, dif_neg h, dif_neg h']
    exact siftUp_perm comp a i

theorem pushHeap_perm (a : Vector α (n + 1)) : (pushHeap comp a).toList.Perm a.toList :=
  siftUp_perm comp a _

theorem popHeap_perm (a : Vector α (n + 1)) : (popHeap comp a).toList.Perm a.toList := by
  unfold popHeap
  split_ifs with hn
  · have hswap : ((a.swap 0 n).pop.push (a.get 0)).toList.Perm a.toList := by
      have hback : (a.swap 0 n).pop.push (a.get 0) = a.swap 0 n := by
        ext k hk
        rw [Vector.getElem_push]
        split_ifs with hkn
        · rw [Vector.getElem_pop]
        · have : k = n := by omega
          subst this
          rw [Vector.getElem_swap_right]
          rfl
      rw [hback]
      exact (Vector.swap_perm _ _).toList
    refine List.Perm.trans ?_ hswap
    rw [Vector.toList_push, Vector.toList_push]
    exact (siftDown_perm comp _ _).append_right _
  · exact List.Perm.refl _

end Permutations

section Queues

inductive Operation (α : Type) where
  | push (x : α)
  | pop

/-- A queue serves operations: it holds what was put in and not yet taken out, and what is taken out
is above all it holds. -/
inductive Serves (r : α → α → Prop) : List (Operation α) → Multiset α → List α → Multiset α → Prop
  | done (q : Multiset α) : Serves r [] q [] q
  | push {ops : List (Operation α)} {x : α} {q q' : Multiset α} {popped : List α} :
      Serves r ops (x ::ₘ q) popped q' → Serves r (.push x :: ops) q popped q'
  | pop {ops : List (Operation α)} {x : α} {q q' : Multiset α} {popped : List α} :
      (∀ y ∈ x ::ₘ q, r y x) → Serves r ops q popped q' →
      Serves r (.pop :: ops) (x ::ₘ q) (x :: popped) q'

/-- Nothing is taken out of a queue that holds nothing. -/
def Available : ℕ → List (Operation α) → Prop
  | _, [] => True
  | n, .push _ :: ops => Available (n + 1) ops
  | 0, .pop :: _ => False
  | n + 1, .pop :: ops => Available n ops

theorem Serves.available {r : α → α → Prop} {ops : List (Operation α)} {q q' : Multiset α}
    {popped : List α} (h : Serves r ops q popped q') : Available q.card ops := by
  induction h with
  | done q => trivial
  | push _ ih =>
    rw [Multiset.card_cons] at ih
    exact ih
  | pop _ _ ih =>
    rw [Multiset.card_cons]
    exact ih

end Queues

end Ahorn.BinaryHeap
