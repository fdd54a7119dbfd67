import Mathlib.Data.Prod.Lex
import Mathlib.Data.String.Basic
import Ahorn.Names
import Ahorn.OrderedMap
import Ahorn.Results

set_option autoImplicit false

/-!
# Containers in the order of the versions

By default `P.f.b_11` is sorted before `P.f.b_2`. The summarization therefore compares names by what
stands in front of the first underscore and then by the number behind it. On the versions of
variables without an underscore such a container is a map from variables and versions, in
lexicographic order.
-/
namespace Ahorn

def versionComparer (contextualizedName₁ contextualizedName₂ : String) : Except String Bool := do
  let version₁ ← extractVersion contextualizedName₁
  let version₂ ← extractVersion contextualizedName₂
  let name₁ := decontextualize contextualizedName₁
  let name₂ := decontextualize contextualizedName₂
  .ok (name₁ < name₂ || name₁ = name₂ && version₁ < version₂)

/-- A container ordered by the comparer. A set has nothing behind its names. -/
abbrev VersionedMap (α : Type) := List (String × α)

namespace VersionedMap

variable {α : Type}

/-- Insertion that keeps an entry already present. -/
def emplace (contextualizedName : String) (a : α) : VersionedMap α → Except String (VersionedMap α)
  | [] => .ok [(contextualizedName, a)]
  | entry :: entries => do
    if ← versionComparer contextualizedName entry.1 then
      .ok ((contextualizedName, a) :: entry :: entries)
    else if ← versionComparer entry.1 contextualizedName then do
      let entries ← emplace contextualizedName a entries
      .ok (entry :: entries)
    else .ok (entry :: entries)

def find? (contextualizedName : String) : VersionedMap α → Except String (Option α)
  | [] => .ok none
  | entry :: entries => do
    if ← versionComparer contextualizedName entry.1 then .ok none
    else if ← versionComparer entry.1 contextualizedName then find? contextualizedName entries
    else .ok (some entry.2)

def get (contextualizedName : String) (m : VersionedMap α) : Except String α := do
  match ← find? contextualizedName m with
  | some a => .ok a
  | none => .error "map::at"

end VersionedMap

abbrev VersionKey := String ×ₗ ℕ

namespace VersionKey

def name (k : VersionKey) : String := versioned (ofLex k).1 (ofLex k).2

theorem name_injective : Function.Injective name := by
  intro k k' h
  obtain ⟨hf, hv⟩ := versioned_injective h
  exact ofLex.injective (Prod.ext hf hv)

theorem versionComparer_name {k k' : VersionKey} (hk : Plain (ofLex k).1)
    (hk' : Plain (ofLex k').1) : versionComparer k.name k'.name = .ok (decide (k < k')) := by
  unfold versionComparer name
  rw [extractVersion_versioned hk, extractVersion_versioned hk', decontextualize_versioned hk,
    decontextualize_versioned hk']
  change Except.ok _ = _
  rw [Except.ok.injEq, Bool.eq_iff_iff, decide_eq_true_iff, Prod.Lex.lt_iff]
  simp

end VersionKey

namespace VersionedMap

variable {α : Type} {l l' : VersionedMap α} {m : OrderedMap VersionKey α} {k : VersionKey}
variable {a : α} {n : String}

theorem mem_emplace (h : emplace n a l = .ok l') : ∀ e ∈ l', e = (n, a) ∨ e ∈ l := by
  induction l generalizing l' with
  | nil =>
    cases h
    exact fun e he => Or.inl (List.mem_singleton.mp he)
  | cons x l ih =>
    unfold emplace at h
    obtain ⟨before, -, h⟩ := bind_eq_ok h
    cases before with
    | true =>
      cases h
      exact fun e he => List.mem_cons.mp he
    | false =>
      obtain ⟨after, -, h⟩ := bind_eq_ok h
      cases after with
      | true =>
        obtain ⟨rest, hrest, h⟩ := bind_eq_ok h
        cases h
        intro e he
        rcases List.mem_cons.mp he with rfl | he
        · exact Or.inr List.mem_cons_self
        · exact (ih hrest e he).imp_right (List.mem_cons_of_mem x)
      | false =>
        cases h
        exact fun e he => Or.inr he

theorem exists_mem_of_find? (h : find? n l = .ok (some a)) : ∃ e ∈ l, e.2 = a := by
  induction l with
  | nil => cases h
  | cons x l ih =>
    unfold find? at h
    obtain ⟨before, -, h⟩ := bind_eq_ok h
    cases before with
    | true => cases h
    | false =>
      obtain ⟨after, -, h⟩ := bind_eq_ok h
      cases after with
      | true =>
        obtain ⟨e, he, heq⟩ := ih h
        exact ⟨e, List.mem_cons_of_mem x he, heq⟩
      | false =>
        cases h
        exact ⟨x, List.mem_cons_self, rfl⟩

theorem exists_mem_of_get (h : get n l = .ok a) : ∃ e ∈ l, e.2 = a := by
  obtain ⟨found, hfound, h⟩ := bind_eq_ok h
  cases found with
  | none => cases h
  | some a' =>
    cases h
    exact exists_mem_of_find? hfound

/-- The entries of a container under the names of their versions. -/
structure Represents (l : VersionedMap α) (m : OrderedMap VersionKey α) : Prop where
  plain : ∀ e ∈ m.entries, Plain (ofLex e.1).1
  entries : l = m.entries.map fun e => (e.1.name, e.2)

theorem Represents.empty : Represents (α := α) [] OrderedMap.empty :=
  ⟨fun _ h => absurd h List.not_mem_nil, rfl⟩

theorem emplace_place (a : α) {entries : List (VersionKey × α)} (hk : Plain (ofLex k).1)
    (hplain : ∀ e ∈ entries, Plain (ofLex e.1).1) :
    emplace k.name a (entries.map fun e => (e.1.name, e.2)) =
      .ok ((OrderedMap.place false k a entries).map fun e => (e.1.name, e.2)) := by
  induction entries with
  | nil => rfl
  | cons e entries ih =>
    obtain ⟨k', b⟩ := e
    rw [List.forall_mem_cons] at hplain
    rw [List.map_cons, emplace, VersionKey.versionComparer_name hk hplain.1,
      VersionKey.versionComparer_name hplain.1 hk, ih hplain.2, OrderedMap.place]
    rcases lt_trichotomy k k' with hlt | heq | hgt
    · simp [hlt, bind, Except.bind]
    · subst heq
      simp [bind, Except.bind]
    · simp [hgt, lt_asymm hgt, hgt.ne', bind, Except.bind]

theorem Represents.emplace (h : Represents l m) (hk : Plain (ofLex k).1) (a : α) :
    ∃ l', VersionedMap.emplace k.name a l = .ok l' ∧ Represents l' (m.emplace k a) := by
  refine ⟨_, ?_, ?_, rfl⟩
  · rw [h.entries]
    exact emplace_place a hk h.plain
  · intro e he
    rcases OrderedMap.mem_place he with hkey | he
    · rwa [hkey]
    · exact h.plain e he

theorem find?_lookup {entries : List (VersionKey × α)} (hk : Plain (ofLex k).1)
    (hplain : ∀ e ∈ entries, Plain (ofLex e.1).1)
    (hsorted : entries.Pairwise fun x y => x.1 < y.1) :
    find? k.name (entries.map fun e => (e.1.name, e.2)) = .ok (OrderedMap.lookup k entries) := by
  induction entries with
  | nil => rfl
  | cons e entries ih =>
    rw [List.forall_mem_cons] at hplain
    obtain ⟨hlater, hsorted⟩ := List.pairwise_cons.mp hsorted
    rw [List.map_cons, find?, VersionKey.versionComparer_name hk hplain.1,
      VersionKey.versionComparer_name hplain.1 hk, ih hplain.2 hsorted, OrderedMap.lookup]
    rcases lt_trichotomy k e.1 with hlt | heq | hgt
    · have hnone : OrderedMap.lookup k entries = none :=
        OrderedMap.lookup_eq_none_of_lt fun x hx => hlt.trans (hlater x hx)
      simp [hlt, hlt.ne, hnone, bind, Except.bind]
    · subst heq
      simp [bind, Except.bind]
    · simp [hgt, lt_asymm hgt, hgt.ne', bind, Except.bind]

theorem Represents.find? (h : Represents l m) (hk : Plain (ofLex k).1) :
    VersionedMap.find? k.name l = .ok (m.find? k) := by
  rw [h.entries]
  exact find?_lookup hk h.plain m.sorted

theorem Represents.get (h : Represents l m) {a : α} (ha : m.find? k = some a) :
    VersionedMap.get k.name l = .ok a := by
  have hk : Plain (ofLex k).1 := h.plain _ ((m.find?_eq_some_iff k a).mp ha)
  unfold VersionedMap.get
  rw [h.find? hk, ha]
  rfl

end VersionedMap

end Ahorn
