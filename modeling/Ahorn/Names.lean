import Mathlib.Data.List.Basic
import Mathlib.Data.List.TakeWhile
import Mathlib.Data.Nat.Notation
import Std.Data.String.ToNat

set_option autoImplicit false

/-!
# Names of variable versions

The engines print the version of a variable, and the cycle where there is one, behind its flattened
name, and read them back by splitting at the first underscore.
-/
namespace Ahorn

def versioned (flattenedName : String) (version : ℕ) : String :=
  flattenedName ++ "_" ++ toString version

def contextualized (flattenedName : String) (version cycle : ℕ) : String :=
  versioned flattenedName version ++ "__" ++ toString cycle

def decontextualize (name : String) : String :=
  String.ofList (name.toList.takeWhile (· ≠ '_'))

/-- The number in front of the first character that is not a digit. -/
def stoi (cs : List Char) : Except String ℕ :=
  let digits := cs.takeWhile Char.isDigit
  if digits = [] then .error "stoi" else .ok (Nat.ofDigitChars 10 digits 0)

def extractVersion (name : String) : Except String ℕ :=
  stoi ((name.toList.dropWhile (· ≠ '_')).drop 1)

/-- A name the engines can read back. -/
def Plain (name : String) : Prop := '_' ∉ name.toList

theorem underscore_notMem_toString (n : ℕ) : '_' ∉ (toString n).toList := by
  change '_' ∉ n.repr.toList
  rw [Nat.toList_repr]
  exact Nat.underscore_not_in_toDigits

theorem toList_versioned (f : String) (v : ℕ) :
    (versioned f v).toList = f.toList ++ '_' :: (toString v).toList := by
  simp [versioned]

theorem append_cons_inj_of_notMem_left {α : Type} {a : α} {x y z w : List α} (hx : a ∉ x)
    (hy : a ∉ y) (h : x ++ a :: z = y ++ a :: w) : x = y ∧ z = w := by
  induction x generalizing y with
  | nil =>
    cases y with
    | nil => exact ⟨rfl, (List.cons.inj h).2⟩
    | cons b y => exact absurd (List.mem_cons.mpr (Or.inl (List.cons.inj h).1)) hy
  | cons b x ih =>
    cases y with
    | nil => exact absurd (List.mem_cons.mpr (Or.inl (List.cons.inj h).1.symm)) hx
    | cons c y =>
      obtain ⟨rfl, htail⟩ := List.cons.inj h
      obtain ⟨rfl, hz⟩ := ih (fun hm => hx (List.mem_cons_of_mem _ hm))
        (fun hm => hy (List.mem_cons_of_mem _ hm)) htail
      exact ⟨rfl, hz⟩

theorem versioned_injective {f g : String} {v w : ℕ} (h : versioned f v = versioned g w) :
    f = g ∧ v = w := by
  have hl := congrArg (List.reverse ∘ String.toList) h
  simp only [Function.comp, toList_versioned, List.reverse_append, List.reverse_cons,
    List.append_assoc, List.cons_append, List.nil_append] at hl
  have hv : '_' ∉ (toString v).toList.reverse := fun hm =>
    underscore_notMem_toString v (List.mem_reverse.mp hm)
  have hw : '_' ∉ (toString w).toList.reverse := fun hm =>
    underscore_notMem_toString w (List.mem_reverse.mp hm)
  obtain ⟨hvw, hfg⟩ := append_cons_inj_of_notMem_left hv hw hl
  exact ⟨String.toList_injective (List.reverse_injective hfg),
    Nat.repr_injective (String.toList_injective (List.reverse_injective hvw))⟩

theorem contextualized_eq_versioned (f : String) (v c : ℕ) :
    contextualized f v c = versioned (versioned f v ++ "_") c := by
  apply String.toList_injective
  simp [contextualized, versioned]

theorem contextualized_ne_versioned {f g : String} (hg : Plain g) (v w c : ℕ) :
    contextualized f v c ≠ versioned g w := by
  intro h
  rw [contextualized_eq_versioned] at h
  obtain ⟨rfl, -⟩ := versioned_injective h
  apply hg
  simp [versioned]

theorem contextualized_injective {f g : String} {v w c d : ℕ}
    (h : contextualized f v c = contextualized g w d) : f = g ∧ v = w ∧ c = d := by
  rw [contextualized_eq_versioned, contextualized_eq_versioned] at h
  obtain ⟨hn, rfl⟩ := versioned_injective h
  have hl := congrArg String.toList hn
  rw [String.toList_append, String.toList_append] at hl
  obtain ⟨rfl, rfl⟩ := versioned_injective (String.toList_injective (List.append_cancel_right hl))
  exact ⟨rfl, rfl, rfl⟩

theorem plain_decontextualize (name : String) : Plain (decontextualize name) := by
  unfold Plain decontextualize
  rw [String.toList_ofList]
  intro hmem
  simpa using List.mem_takeWhile_imp hmem

theorem decontextualize_versioned {f : String} (h : Plain f) (v : ℕ) :
    decontextualize (versioned f v) = f := by
  have hf : ∀ c ∈ f.toList, decide (c ≠ '_') = true := by
    intro c hc
    exact decide_eq_true fun hcu => h (hcu ▸ hc)
  rw [decontextualize, toList_versioned, List.takeWhile_append_of_pos hf]
  simp

theorem stoi_toString (v : ℕ) : stoi (toString v).toList = .ok v := by
  have hd : ∀ c ∈ Nat.toDigits 10 v, c.isDigit = true := fun c hc =>
    Nat.isDigit_of_mem_toDigits (by omega) (by omega) hc
  have htake : (toString v).toList.takeWhile Char.isDigit = Nat.toDigits 10 v := by
    change v.repr.toList.takeWhile Char.isDigit = Nat.toDigits 10 v
    rw [Nat.toList_repr]
    rw [← List.append_nil (Nat.toDigits 10 v), List.takeWhile_append_of_pos hd]
    simp
  unfold stoi
  rw [htake, if_neg Nat.toDigits_ne_nil, Nat.ofDigitChars_ten_toDigits]

theorem extractVersion_versioned {f : String} (h : Plain f) (v : ℕ) :
    extractVersion (versioned f v) = .ok v := by
  have hf : ∀ c ∈ f.toList, decide (c ≠ '_') = true := by
    intro c hc
    exact decide_eq_true fun hcu => h (hcu ▸ hc)
  rw [extractVersion, toList_versioned, List.dropWhile_append_of_pos hf]
  simpa using stoi_toString v

end Ahorn
