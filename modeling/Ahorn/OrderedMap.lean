import Mathlib.Data.List.Basic
import Mathlib.Data.List.Pairwise
import Mathlib.Order.Lattice

set_option autoImplicit false

/-!
# Ordered maps

A map kept as a list of entries in strictly increasing order of their keys. Lookup, insertion and
the entry with the greatest key are the operations of an ordered associative container; the order
is a field of the structure, so no operation can build an unordered map.
-/
namespace Ahorn

/-- A finite map whose entries are listed in strictly increasing order of the keys. -/
structure OrderedMap (κ ν : Type) [LinearOrder κ] where
  entries : List (κ × ν)
  sorted : entries.Pairwise (fun x y => x.1 < y.1)

namespace OrderedMap

variable {κ ν : Type} [LinearOrder κ]

instance [DecidableEq ν] : DecidableEq (OrderedMap κ ν) := fun m m' =>
  decidable_of_iff (m.entries = m'.entries) (mk.injEq ..).symm.to_iff

def empty : OrderedMap κ ν := ⟨[], List.Pairwise.nil⟩

def lookup (k : κ) : List (κ × ν) → Option ν
  | [] => none
  | (k', v) :: rest => if k = k' then some v else lookup k rest

def find? (m : OrderedMap κ ν) (k : κ) : Option ν := lookup k m.entries

/-- Put an entry at its place in an ordered list; `replace` decides what happens to an entry that
already has this key. -/
def place (replace : Bool) (k : κ) (v : ν) : List (κ × ν) → List (κ × ν)
  | [] => [(k, v)]
  | (k', v') :: rest =>
    if k < k' then (k, v) :: (k', v') :: rest
    else if k = k' then (if replace then (k, v) else (k', v')) :: rest
    else (k', v') :: place replace k v rest

theorem mem_place {b : Bool} {k : κ} {v : ν} {l : List (κ × ν)} {x : κ × ν}
    (h : x ∈ place b k v l) : x.1 = k ∨ x ∈ l := by
  induction l with
  | nil =>
    simp only [place, List.mem_singleton] at h
    exact Or.inl (congrArg Prod.fst h)
  | cons y rest ih =>
    obtain ⟨k', v'⟩ := y
    simp only [place] at h
    split_ifs at h with h1 h2 h3
    · rcases List.mem_cons.mp h with rfl | h
      · exact Or.inl rfl
      · exact Or.inr h
    · rcases List.mem_cons.mp h with rfl | h
      · exact Or.inl rfl
      · exact Or.inr (List.mem_cons_of_mem _ h)
    · exact Or.inr h
    · rcases List.mem_cons.mp h with rfl | h
      · exact Or.inr List.mem_cons_self
      · exact (ih h).imp id (List.mem_cons_of_mem _)

theorem place_sorted (b : Bool) (k : κ) (v : ν) {l : List (κ × ν)}
    (h : l.Pairwise (fun x y => x.1 < y.1)) :
    (place b k v l).Pairwise (fun x y => x.1 < y.1) := by
  induction l with
  | nil => exact List.pairwise_singleton _ _
  | cons y rest ih =>
    obtain ⟨k', v'⟩ := y
    have hy : ∀ x ∈ rest, k' < x.1 := fun _ hx => List.rel_of_pairwise_cons h hx
    have hr := List.Pairwise.of_cons h
    simp only [place]
    split_ifs with h1 h2 h3
    · refine List.pairwise_cons.mpr ⟨?_, h⟩
      intro x hx
      rcases List.mem_cons.mp hx with rfl | hx
      · exact h1
      · exact lt_trans h1 (hy x hx)
    · subst h2
      exact List.pairwise_cons.mpr ⟨fun x hx => hy x hx, hr⟩
    · exact h
    · refine List.pairwise_cons.mpr ⟨?_, ih hr⟩
      intro x hx
      rcases mem_place hx with hk | hx
      · rw [hk]
        exact lt_of_le_of_ne (not_lt.mp h1) (Ne.symm h2)
      · exact hy x hx

/-- Insertion that keeps an entry already present. -/
def emplace (m : OrderedMap κ ν) (k : κ) (v : ν) : OrderedMap κ ν :=
  ⟨place false k v m.entries, place_sorted false k v m.sorted⟩

/-- Insertion that replaces an entry already present. -/
def assign (m : OrderedMap κ ν) (k : κ) (v : ν) : OrderedMap κ ν :=
  ⟨place true k v m.entries, place_sorted true k v m.sorted⟩

def erase (m : OrderedMap κ ν) (k : κ) : OrderedMap κ ν :=
  ⟨m.entries.filter (fun x => x.1 ≠ k), m.sorted.filter _⟩

def last? (m : OrderedMap κ ν) : Option (κ × ν) := m.entries.getLast?

def mapValues {ξ : Type} (f : ν → ξ) (m : OrderedMap κ ν) : OrderedMap κ ξ :=
  ⟨m.entries.map (fun x => (x.1, f x.2)), List.Pairwise.map _ (fun _ _ h => h) m.sorted⟩

def keys (m : OrderedMap κ ν) : List κ := m.entries.map Prod.fst

theorem lookup_eq_none_of_lt {k : κ} {l : List (κ × ν)} (h : ∀ x ∈ l, k < x.1) :
    lookup k l = none := by
  induction l with
  | nil => rfl
  | cons y rest ih =>
    have hy := h y List.mem_cons_self
    rw [lookup, if_neg (ne_of_lt hy)]
    exact ih (fun x hx => h x (List.mem_cons_of_mem _ hx))

theorem lookup_place (b : Bool) (k : κ) (v : ν) {l : List (κ × ν)}
    (h : l.Pairwise (fun x y => x.1 < y.1)) (q : κ) :
    lookup q (place b k v l) =
      if q = k then (if b then some v else (lookup k l).or (some v)) else lookup q l := by
  induction l with
  | nil => cases b <;> simp [place, lookup]
  | cons y rest ih =>
    obtain ⟨k', v'⟩ := y
    have hy : ∀ x ∈ rest, k' < x.1 := fun _ hx => List.rel_of_pairwise_cons h hx
    rcases lt_trichotomy k k' with hlt | heq | hgt
    · have hn : lookup k rest = none :=
        lookup_eq_none_of_lt (fun x hx => lt_trans hlt (hy x hx))
      simp [place, lookup, hlt, ne_of_lt hlt, hn]
    · subst heq
      cases b
      · by_cases hq : q = k <;> simp [place, lookup, hq]
      · by_cases hq : q = k <;> simp [place, lookup, hq]
    · have hne : k ≠ k' := ne_of_gt hgt
      simp only [place, if_neg (not_lt_of_gt hgt), if_neg hne, lookup,
        ih (List.Pairwise.of_cons h)]
      by_cases hq : q = k'
      · have hk : q ≠ k := fun hk => hne (hk.symm.trans hq)
        simp [hq, hne.symm]
      · simp [hq]

@[simp] theorem find?_empty (q : κ) : (empty : OrderedMap κ ν).find? q = none := rfl

theorem find?_emplace (m : OrderedMap κ ν) (k : κ) (v : ν) (q : κ) :
    (m.emplace k v).find? q = if q = k then (m.find? k).or (some v) else m.find? q := by
  simp only [find?, emplace, lookup_place false k v m.sorted, Bool.false_eq_true, ↓reduceIte]

theorem find?_emplace_self {m : OrderedMap κ ν} {k : κ} (v : ν) (h : m.find? k = none) :
    (m.emplace k v).find? k = some v := by
  rw [find?_emplace, if_pos rfl, h, Option.none_or]

theorem find?_emplace_ne (m : OrderedMap κ ν) {k q : κ} (v : ν) (h : q ≠ k) :
    (m.emplace k v).find? q = m.find? q := by
  rw [find?_emplace, if_neg h]

theorem find?_assign (m : OrderedMap κ ν) (k : κ) (v : ν) (q : κ) :
    (m.assign k v).find? q = if q = k then some v else m.find? q := by
  simp only [find?, assign, lookup_place true k v m.sorted, ↓reduceIte]

theorem lookup_filter (k : κ) (l : List (κ × ν)) (q : κ) :
    lookup q (l.filter (fun x => x.1 ≠ k)) = if q = k then none else lookup q l := by
  induction l with
  | nil => simp [lookup]
  | cons y rest ih =>
    obtain ⟨k', v'⟩ := y
    by_cases hk : k' = k
    · rw [List.filter_cons_of_neg (by simp [hk]), ih, lookup, hk]
      split_ifs <;> rfl
    · rw [List.filter_cons_of_pos (by simp [hk]), lookup, lookup, ih]
      by_cases hq : q = k'
      · subst hq
        simp [hk]
      · simp [hq]

theorem find?_erase (m : OrderedMap κ ν) (k q : κ) :
    (m.erase k).find? q = if q = k then none else m.find? q :=
  lookup_filter k m.entries q

theorem find?_mapValues {ξ : Type} (f : ν → ξ) (m : OrderedMap κ ν) (q : κ) :
    (m.mapValues f).find? q = (m.find? q).map f := by
  obtain ⟨l, h⟩ := m
  change lookup q (l.map _) = (lookup q l).map f
  clear h
  induction l with
  | nil => rfl
  | cons y rest ih =>
    simp only [List.map_cons, lookup, ih]
    split_ifs <;> rfl

theorem lookup_eq_some_iff {l : List (κ × ν)} (h : l.Pairwise (fun x y => x.1 < y.1))
    (k : κ) (v : ν) : lookup k l = some v ↔ (k, v) ∈ l := by
  induction l with
  | nil => simp [lookup]
  | cons y rest ih =>
    obtain ⟨k', v'⟩ := y
    have hy : ∀ x ∈ rest, k' < x.1 := fun _ hx => List.rel_of_pairwise_cons h hx
    simp only [lookup, List.mem_cons, Prod.mk.injEq]
    split_ifs with hk
    · subst hk
      have hn : (k, v) ∉ rest := fun hm => lt_irrefl _ (hy _ hm)
      simp [hn, eq_comm]
    · simp [hk, ih (List.Pairwise.of_cons h)]

theorem find?_eq_some_iff (m : OrderedMap κ ν) (k : κ) (v : ν) :
    m.find? k = some v ↔ (k, v) ∈ m.entries :=
  lookup_eq_some_iff m.sorted k v

theorem last?_of_greatest {m : OrderedMap κ ν} {k : κ} {v : ν} (h : m.find? k = some v)
    (hmax : ∀ k' v', m.find? k' = some v' → k' ≤ k) : m.last? = some (k, v) := by
  have hmem := (m.find?_eq_some_iff k v).mp h
  have hne : m.entries ≠ [] := List.ne_nil_of_mem hmem
  have hlast := List.getLast_mem hne
  have hkey : m.entries.getLast hne = (k, v) := by
    by_contra hcon
    have hle := hmax _ _ ((m.find?_eq_some_iff _ _).mpr hlast)
    obtain ⟨pre, hpre⟩ : ∃ pre, m.entries = pre ++ [m.entries.getLast hne] :=
      ⟨_, (List.dropLast_append_getLast hne).symm⟩
    have hin : (k, v) ∈ pre := by
      rw [hpre] at hmem
      rcases List.mem_append.mp hmem with hm | hm
      · exact hm
      · exact absurd (List.mem_singleton.mp hm).symm hcon
    have hs := m.sorted
    rw [hpre] at hs
    have hlt := (List.pairwise_append.mp hs).2.2 _ hin _ List.mem_cons_self
    exact absurd hlt (not_lt.mpr hle)
  rw [last?, List.getLast?_eq_some_getLast hne, hkey]

def emplaceAll (m : OrderedMap κ ν) (entries : List (κ × ν)) : OrderedMap κ ν :=
  entries.foldl (fun m e => m.emplace e.1 e.2) m

theorem find?_emplaceAll (m : OrderedMap κ ν) (entries : List (κ × ν)) (q : κ) :
    (m.emplaceAll entries).find? q = (m.find? q).or (lookup q entries) := by
  induction entries generalizing m with
  | nil => simp [emplaceAll, lookup]
  | cons e entries ih =>
    obtain ⟨k, v⟩ := e
    change ((m.emplace k v).emplaceAll entries).find? q = _
    rw [ih, find?_emplace, lookup]
    by_cases hq : q = k
    · subst hq
      cases m.find? q <;> simp
    · simp [hq]

theorem mem_of_lookup {l : List (κ × ν)} {k : κ} {v : ν} (h : lookup k l = some v) :
    (k, v) ∈ l := by
  induction l with
  | nil => cases h
  | cons e l ih =>
    rw [lookup] at h
    split_ifs at h with hk
    · cases h
      rw [hk]
      exact List.mem_cons_self
    · exact List.mem_cons_of_mem _ (ih h)

theorem exists_lookup {l : List (κ × ν)} {x : κ × ν} (h : x ∈ l) : ∃ v, lookup x.1 l = some v := by
  induction l with
  | nil => cases h
  | cons y l ih =>
    unfold lookup
    split_ifs with hx
    · exact ⟨y.2, rfl⟩
    · exact ih ((List.mem_cons.mp h).resolve_left fun hxy => hx (congrArg Prod.fst hxy))

theorem lookup_append (q : κ) (l l' : List (κ × ν)) :
    lookup q (l ++ l') = (lookup q l).or (lookup q l') := by
  induction l with
  | nil => rfl
  | cons e l ih =>
    rw [List.cons_append, lookup, lookup, ih]
    split_ifs <;> rfl

theorem option_rel_imp {α β : Type} {R R' : α → β → Prop} {a : Option α} {b : Option β}
    (h : Option.Rel R a b) (himp : ∀ x y, a = some x → b = some y → R x y → R' x y) :
    Option.Rel R' a b := by
  cases h with
  | none => exact .none
  | some hR => exact .some (himp _ _ rfl rfl hR)

theorem exists_of_rel_left {α β : Type} {R : α → β → Prop} {a : Option α} {b : Option β}
    (h : Option.Rel R a b) {x : α} (hx : a = some x) : ∃ y, b = some y ∧ R x y := by
  cases h with
  | none => cases hx
  | some hR =>
    cases hx
    exact ⟨_, rfl, hR⟩

theorem exists_of_rel_right {α β : Type} {R : α → β → Prop} {a : Option α} {b : Option β}
    (h : Option.Rel R a b) {y : β} (hy : b = some y) : ∃ x, a = some x ∧ R x y := by
  cases h with
  | none => cases hy
  | some hR =>
    cases hy
    exact ⟨_, rfl, hR⟩

theorem lookup_rel {μ : Type} {R : ν → μ → Prop} {l : List (κ × ν)} {l' : List (κ × μ)}
    (h : List.Forall₂ (fun e e' => e'.1 = e.1 ∧ R e.2 e'.2) l l') (k : κ) :
    Option.Rel R (lookup k l) (lookup k l') := by
  induction h with
  | nil => exact .none
  | @cons e e' l l' he _ ih =>
    obtain ⟨hkey, hR⟩ := he
    rw [lookup, lookup, hkey]
    split_ifs
    · exact .some hR
    · exact ih

theorem lookup_eq_some_of_mem {l : List (κ × ν)} {k : κ} {v : ν} (h : (k, v) ∈ l)
    (hl : ∀ w, (k, w) ∈ l → w = v) : lookup k l = some v := by
  induction l with
  | nil => cases h
  | cons e l ih =>
    rw [lookup]
    split_ifs with hk
    · subst hk
      rw [hl e.2 List.mem_cons_self]
    · rcases List.mem_cons.mp h with rfl | h
      · exact absurd rfl hk
      · exact ih h fun w hw => hl w (List.mem_cons_of_mem _ hw)

theorem ext_find? {m m' : OrderedMap κ ν} (h : ∀ k, m.find? k = m'.find? k) : m = m' := by
  have hmem : ∀ e, e ∈ m.entries ↔ e ∈ m'.entries := by
    intro e
    rw [← find?_eq_some_iff, ← find?_eq_some_iff, h]
  have hnodup : ∀ n : OrderedMap κ ν, n.entries.Nodup := by
    intro n
    apply n.sorted.imp
    intro x y hlt heq
    exact absurd (congrArg Prod.fst heq) (ne_of_lt hlt)
  have hperm := (List.perm_ext_iff_of_nodup (hnodup m) (hnodup m')).mpr hmem
  have heq : m.entries = m'.entries := by
    refine hperm.eq_of_pairwise (fun x y _ _ hxy hyx => ?_) m.sorted m'.sorted
    exact absurd hxy (lt_asymm hyx)
  cases m
  cases m'
  cases heq
  rfl

theorem find?_of_last? {m : OrderedMap κ ν} {k : κ} {v : ν} (h : m.last? = some (k, v)) :
    m.find? k = some v :=
  (m.find?_eq_some_iff k v).mpr (List.mem_of_getLast? h)

theorem keys_sorted (m : OrderedMap κ ν) : m.keys.Pairwise (· < ·) :=
  List.Pairwise.map _ (fun _ _ h => h) m.sorted

theorem mem_keys_iff {m : OrderedMap κ ν} {k : κ} : k ∈ m.keys ↔ ∃ v, m.find? k = some v := by
  constructor
  · intro h
    obtain ⟨⟨k', v⟩, hmem, rfl⟩ := List.mem_map.mp h
    exact ⟨v, (m.find?_eq_some_iff k' v).mpr hmem⟩
  · rintro ⟨v, h⟩
    exact List.mem_map.mpr ⟨(k, v), (m.find?_eq_some_iff k v).mp h, rfl⟩

end OrderedMap

end Ahorn
