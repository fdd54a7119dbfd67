import Mathlib.Data.List.TakeWhile
import Mathlib.Data.Int.Notation
import Mathlib.Algebra.Order.Group.Int
import Mathlib.Tactic.Ring

set_option autoImplicit false

/-!
# Conversions of text

Numbers are read from the front of a text up to the first character that is no digit. Integers have
32 bits, and a number outside of their range is an error.
-/
namespace Ahorn

def intMax : ℤ := 2147483647

def intMin : ℤ := -2147483648

def FitsInt (n : ℤ) : Prop := intMin ≤ n ∧ n ≤ intMax

instance (n : ℤ) : Decidable (FitsInt n) := inferInstanceAs (Decidable (_ ∧ _))

/-- The result of an integer operation, if it does not overflow. -/
def checkedInt (n : ℤ) : Except String ℤ := if FitsInt n then .ok n else .error "overflow"

def digitValue (base : ℕ) (c : Char) : Option ℕ :=
  let value :=
    if c.isDigit then some (c.toNat - '0'.toNat)
    else if 'a' ≤ c ∧ c ≤ 'z' then some (c.toNat - 'a'.toNat + 10)
    else if 'A' ≤ c ∧ c ≤ 'Z' then some (c.toNat - 'A'.toNat + 10)
    else none
  value.filter (· < base)

def isDigitOf (base : ℕ) (c : Char) : Bool := (digitValue base c).isSome

def digitsValue (base : ℕ) (cs : List Char) : ℕ :=
  cs.foldl (fun n c => n * base + (digitValue base c).getD 0) 0

def isSpace (c : Char) : Bool := c ∈ [' ', '\t', '\n', '\x0b', '\x0c', '\r']

def dropSign : List Char → Bool × List Char
  | '-' :: cs => (true, cs)
  | '+' :: cs => (false, cs)
  | cs => (false, cs)

/-- A hexadecimal number may have a prefix, if a digit follows it. -/
def dropPrefix : List Char → List Char
  | '0' :: x :: c :: cs => if (x = 'x' ∨ x = 'X') ∧ isDigitOf 16 c then c :: cs else '0' :: x :: c :: cs
  | cs => cs

/-- The number at the front of a text, behind white space. -/
def strtol (base : ℕ) (cs : List Char) : Option ℤ :=
  let (negative, cs) := dropSign (cs.dropWhile isSpace)
  let digits := (if base = 16 then dropPrefix cs else cs).takeWhile (isDigitOf base)
  if digits = [] then none
  else some (if negative then -(digitsValue base digits : ℤ) else digitsValue base digits)

def stringToInt (base : ℕ) (cs : List Char) : Except String ℤ :=
  match strtol base cs with
  | none => .error "invalid_argument"
  | some n => if FitsInt n then .ok n else .error "out_of_range"

theorem foldl_digits (base : ℕ) (cs : List Char) (n : ℕ) :
    cs.foldl (fun n c => n * base + (digitValue base c).getD 0) n =
      n * base ^ cs.length + digitsValue base cs := by
  unfold digitsValue
  induction cs generalizing n with
  | nil => simp
  | cons c cs ih =>
    rw [List.foldl_cons, List.foldl_cons, ih, ih (0 * base + _), List.length_cons, pow_succ]
    ring

theorem digitsValue_append (base : ℕ) (cs ds : List Char) :
    digitsValue base (cs ++ ds) = digitsValue base cs * base ^ ds.length + digitsValue base ds := by
  conv_lhs => unfold digitsValue
  rw [List.foldl_append, foldl_digits]
  rfl

theorem digitValue_of_isDigit {base : ℕ} {c : Char} (hc : c.isDigit = true) :
    digitValue base c = (some (c.toNat - '0'.toNat)).filter (· < base) := by
  unfold digitValue
  simp only [hc, if_true]

theorem isDigitOf_of_isDigit {base : ℕ} (hbase : 10 ≤ base) {c : Char} (hc : c.isDigit = true) :
    isDigitOf base c = true := by
  have hlt : c.toNat - '0'.toNat < base := by
    have hle : c.toNat ≤ '9'.toNat := by
      simp only [Char.isDigit, Bool.and_eq_true, decide_eq_true_eq] at hc
      exact hc.2
    change c.toNat ≤ 57 at hle
    change c.toNat - 48 < base
    omega
  unfold isDigitOf
  rw [digitValue_of_isDigit hc, Option.filter_some, if_pos (by simpa using hlt)]
  rfl

theorem isDigitOf_ten (c : Char) : isDigitOf 10 c = c.isDigit := by
  cases hc : c.isDigit with
  | true => exact isDigitOf_of_isDigit le_rfl hc
  | false =>
    unfold isDigitOf digitValue
    simp only [hc, Bool.false_eq_true, if_false]
    split_ifs <;> simp [Option.filter_some]

theorem dropSign_of_isDigit {c : Char} {cs : List Char} (hc : c.isDigit = true) :
    dropSign (c :: cs) = (false, c :: cs) := by
  unfold dropSign
  split
  · next h =>
    obtain ⟨rfl, -⟩ := List.cons.inj h
    cases hc
  · next h =>
    obtain ⟨rfl, -⟩ := List.cons.inj h
    cases hc
  · rfl

theorem dropSpace_of_isDigit {c : Char} {cs : List Char} (hc : c.isDigit = true) :
    (c :: cs).dropWhile isSpace = c :: cs := by
  apply List.dropWhile_cons_of_neg
  intro hspace
  simp only [isSpace, List.mem_cons, List.not_mem_nil, or_false, decide_eq_true_eq] at hspace
  rcases hspace with rfl | rfl | rfl | rfl | rfl | rfl <;> cases hc

theorem takeWhile_digits {base : ℕ} {ds rest : List Char}
    (hds : ∀ c ∈ ds, isDigitOf base c = true)
    (hrest : ∀ c ∈ rest.head?, isDigitOf base c = false) :
    (ds ++ rest).takeWhile (isDigitOf base) = ds := by
  rw [List.takeWhile_append_of_pos hds]
  cases rest with
  | nil => simp
  | cons c rest =>
    rw [List.takeWhile_cons_of_neg (by simp [hrest c rfl]), List.append_nil]

theorem strtol_digits {ds rest : List Char} (hne : ds ≠ []) (hds : ∀ c ∈ ds, c.isDigit = true)
    (hrest : ∀ c ∈ rest.head?, c.isDigit = false) :
    strtol 10 (ds ++ rest) = some (digitsValue 10 ds : ℤ) := by
  obtain ⟨d, ds', rfl⟩ := List.exists_cons_of_ne_nil hne
  have hd := hds d List.mem_cons_self
  have htake := @takeWhile_digits 10 (d :: ds') rest
    (fun c hc => by rw [isDigitOf_ten]; exact hds c hc)
    fun c hc => by rw [isDigitOf_ten]; exact hrest c hc
  unfold strtol
  rw [List.cons_append, dropSpace_of_isDigit hd, dropSign_of_isDigit hd, ← List.cons_append]
  simp only [Nat.reduceEqDiff, if_false, htake, reduceCtorEq]

theorem strtol_hexadecimal {ds : List Char} (hne : ds ≠ [])
    (hds : ∀ c ∈ ds, isDigitOf 16 c = true) :
    strtol 16 ('0' :: 'x' :: ds) = some (digitsValue 16 ds : ℤ) := by
  obtain ⟨d, ds', rfl⟩ := List.exists_cons_of_ne_nil hne
  have hd := hds d List.mem_cons_self
  have htake := @takeWhile_digits 16 (d :: ds') [] hds (by simp)
  rw [List.append_nil] at htake
  have hprefix : dropPrefix ('0' :: 'x' :: d :: ds') = d :: ds' := by
    unfold dropPrefix
    simp [hd]
  unfold strtol
  rw [dropSpace_of_isDigit rfl, dropSign_of_isDigit rfl]
  simp only [if_true, hprefix, htake, reduceCtorEq, if_false]

theorem stringToInt_of_strtol {base : ℕ} {cs : List Char} {n : ℕ}
    (h : strtol base cs = some (n : ℤ)) : stringToInt base cs =
      if (n : ℤ) ≤ intMax then .ok (n : ℤ) else .error "out_of_range" := by
  unfold stringToInt
  rw [h]
  have hmin : intMin ≤ (n : ℤ) := by
    unfold intMin
    omega
  simp only [FitsInt, hmin, true_and]

theorem isDigit_toString (n : ℕ) : ∀ c ∈ (toString n).toList, c.isDigit = true := by
  intro c hc
  change c ∈ n.repr.toList at hc
  rw [Nat.toList_repr] at hc
  exact Nat.isDigit_of_mem_toDigits (by omega) (by omega) hc

theorem toString_ne_nil (n : ℕ) : (toString n).toList ≠ [] := by
  change n.repr.toList ≠ []
  rw [Nat.toList_repr]
  exact Nat.toDigits_ne_nil

theorem digitsValue_toString (n : ℕ) : digitsValue 10 (toString n).toList = n := by
  have hfold : ∀ (cs : List Char) (m : ℕ), (∀ c ∈ cs, c.isDigit = true) →
      cs.foldl (fun n c => n * 10 + (digitValue 10 c).getD 0) m = Nat.ofDigitChars 10 cs m := by
    intro cs
    induction cs with
    | nil => exact fun m _ => rfl
    | cons c cs ih =>
      intro m hcs
      have hc := hcs c List.mem_cons_self
      have hsome := isDigitOf_ten c
      rw [hc] at hsome
      unfold isDigitOf at hsome
      rw [digitValue_of_isDigit hc] at hsome
      have hlt : c.toNat - '0'.toNat < 10 := by
        by_contra h
        rw [Option.filter_some, if_neg (by simpa using h)] at hsome
        cases hsome
      have hvalue : (digitValue 10 c).getD 0 = c.toNat - '0'.toNat := by
        rw [digitValue_of_isDigit hc, Option.filter_some, if_pos (by simpa using hlt)]
        rfl
      rw [List.foldl_cons, ih _ fun d hd => hcs d (List.mem_cons_of_mem _ hd), hvalue,
        Nat.ofDigitChars_cons, Nat.mul_comm]
  unfold digitsValue
  rw [hfold _ _ (isDigit_toString n)]
  change Nat.ofDigitChars 10 n.repr.toList 0 = n
  rw [Nat.toList_repr, Nat.ofDigitChars_ten_toDigits]

end Ahorn
