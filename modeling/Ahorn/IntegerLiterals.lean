import Ahorn.Conversions

set_option autoImplicit false

/-!
# Integer literals

The grammar lets single underscores stand between the digits of a decimal number; the conversion
stops at the first of them.
-/
namespace Ahorn

/-- `('_'? DIGIT)*` -/
def isDigitTail : List Char → Bool
  | [] => true
  | '_' :: c :: cs => c.isDigit && isDigitTail cs
  | c :: cs => c.isDigit && isDigitTail cs

/-- `DIGIT ('_'? DIGIT)*` -/
def isUnsignedInteger : List Char → Bool
  | [] => false
  | c :: cs => c.isDigit && isDigitTail cs

/-- `DIGIT | 'A' .. 'F'` -/
def isHexadecimalDigit (c : Char) : Bool := c.isDigit || decide ('A' ≤ c ∧ c ≤ 'F')

/-- A token that the lexer takes for a decimal or a hexadecimal integer. The digits of the latter
stand behind `16#`. -/
inductive IntegerToken where
  | unsignedInteger (text : List Char) (h : isUnsignedInteger text = true)
  | hexadecimalInteger (digits : List Char) (hne : digits ≠ [])
      (h : digits.all isHexadecimalDigit = true)

namespace IntegerToken

def text : IntegerToken → List Char
  | unsignedInteger text _ => text
  | hexadecimalInteger digits _ _ => '1' :: '6' :: '#' :: digits

/-- The number that the token denotes. Separators do not count. -/
def value : IntegerToken → ℕ
  | unsignedInteger text _ => digitsValue 10 (text.filter (· ≠ '_'))
  | hexadecimalInteger digits _ _ => digitsValue 16 digits

/-- The number in front of the first separator. -/
def leadingValue (t : IntegerToken) : ℕ := digitsValue 10 (t.text.takeWhile (· ≠ '_'))

/-- The number that the front end makes of the token. -/
def visitIntegerLiteral : IntegerToken → Except String ℤ
  | unsignedInteger text _ => stringToInt 10 text
  | hexadecimalInteger digits _ _ =>
    stringToInt 16 ('0' :: 'x' :: ('1' :: '6' :: '#' :: digits).drop 3)

/-- The token is read as what it denotes, and rejected if this does not fit. -/
structure Exact (t : IntegerToken) : Prop where
  fits : (t.value : ℤ) ≤ intMax → t.visitIntegerLiteral = .ok t.value
  rejected : intMax < (t.value : ℤ) → ∃ e, t.visitIntegerLiteral = .error e

end IntegerToken

theorem isDigit_or_underscore {cs : List Char} (h : isDigitTail cs = true) :
    ∀ c ∈ cs, c.isDigit = true ∨ c = '_' := by
  fun_induction isDigitTail cs with
  | case1 => simp
  | case2 c cs ih =>
    obtain ⟨hc, hcs⟩ := Bool.and_eq_true_iff.mp h
    simpa [hc] using ih hcs
  | case3 c cs _ ih =>
    obtain ⟨hc, hcs⟩ := Bool.and_eq_true_iff.mp h
    simpa [hc] using ih hcs

theorem dropWhile_digits {cs : List Char} (h : isDigitTail cs = true) :
    cs.dropWhile (· ≠ '_') = [] ∨ ∃ c rest, cs.dropWhile (· ≠ '_') = '_' :: c :: rest ∧
      c.isDigit = true ∧ isDigitTail rest = true := by
  fun_induction isDigitTail cs with
  | case1 => exact Or.inl rfl
  | case2 c cs _ =>
    obtain ⟨hc, hcs⟩ := Bool.and_eq_true_iff.mp h
    exact Or.inr ⟨c, cs, by simp, hc, hcs⟩
  | case3 c cs _ ih =>
    obtain ⟨hc, hcs⟩ := Bool.and_eq_true_iff.mp h
    have hne : c ≠ '_' := by
      rintro rfl
      cases hc
    rw [List.dropWhile_cons_of_pos (by simpa using hne)]
    exact ih hcs

/-- A decimal token: digits, and behind a separator more of them. -/
theorem unsignedInteger_cases {cs : List Char} (h : isUnsignedInteger cs = true) :
    ∃ ds, ds ≠ [] ∧ (∀ c ∈ ds, c.isDigit = true) ∧ cs.takeWhile (· ≠ '_') = ds ∧
      (cs = ds ∨ ∃ rest, cs = ds ++ '_' :: rest ∧ rest.filter (· ≠ '_') ≠ []) := by
  cases cs with
  | nil => cases h
  | cons c cs =>
    obtain ⟨hc, hcs⟩ := Bool.and_eq_true_iff.mp h
    have hne : c ≠ '_' := by
      rintro rfl
      cases hc
    have htake : (c :: cs).takeWhile (· ≠ '_') = c :: cs.takeWhile (· ≠ '_') :=
      List.takeWhile_cons_of_pos (by simpa using hne)
    refine ⟨c :: cs.takeWhile (· ≠ '_'), by simp, ?_, htake, ?_⟩
    · intro d hd
      rcases List.mem_cons.mp hd with rfl | hd
      · exact hc
      · rcases isDigit_or_underscore hcs d ((List.takeWhile_sublist _).mem hd) with hdigit | rfl
        · exact hdigit
        · simpa using List.mem_takeWhile_imp hd
    · have hsplit := (List.takeWhile_append_dropWhile (p := (· ≠ '_')) (l := cs)).symm
      rcases dropWhile_digits hcs with hnil | ⟨d, rest, hrest, hd, -⟩
      · rw [hnil, List.append_nil] at hsplit
        exact Or.inl (congrArg (List.cons c) hsplit)
      · have hd' : d ≠ '_' := by
          rintro rfl
          cases hd
        rw [hrest] at hsplit
        refine Or.inr ⟨d :: rest, congrArg (List.cons c) hsplit, ?_⟩
        rw [List.filter_cons_of_pos (by simpa using hd')]
        exact List.cons_ne_nil _ _

theorem filter_digits {ds : List Char} (hds : ∀ c ∈ ds, c.isDigit = true) :
    ds.filter (· ≠ '_') = ds := by
  apply List.filter_eq_self.mpr
  intro c hc
  have hdigit := hds c hc
  simp only [ne_eq, decide_not, Bool.not_eq_true', decide_eq_false_iff_not]
  rintro rfl
  cases hdigit

theorem unsignedInteger_value {cs : List Char} (h : isUnsignedInteger cs = true) :
    ∃ p, digitsValue 10 (cs.takeWhile (· ≠ '_')) = p ∧ stringToInt 10 cs =
        (if (p : ℤ) ≤ intMax then .ok (p : ℤ) else .error "out_of_range") ∧
      (('_' ∉ cs ∧ digitsValue 10 (cs.filter (· ≠ '_')) = p) ∨
        '_' ∈ cs ∧ ∃ k r, digitsValue 10 (cs.filter (· ≠ '_')) = p * 10 ^ (k + 1) + r) := by
  obtain ⟨ds, hne, hds, htake, rfl | ⟨rest, rfl, hrest⟩⟩ := unsignedInteger_cases h
  · refine ⟨digitsValue 10 cs, by rw [htake], ?_, Or.inl ⟨?_, by rw [filter_digits hds]⟩⟩
    · have hread := @strtol_digits _ [] hne hds (by simp)
      rw [List.append_nil] at hread
      exact stringToInt_of_strtol hread
    · intro hmem
      cases hds _ hmem
  · refine ⟨digitsValue 10 ds, by rw [htake], stringToInt_of_strtol
      (strtol_digits hne hds fun c hc => ?_), Or.inr ⟨by simp, ?_⟩⟩
    · obtain rfl := Option.some.inj hc
      rfl
    · obtain ⟨k, hk⟩ := Nat.exists_eq_succ_of_ne_zero
        (mt List.length_eq_zero_iff.mp hrest)
      refine ⟨k, digitsValue 10 (rest.filter (· ≠ '_')), ?_⟩
      rw [List.filter_append, filter_digits hds, List.filter_cons_of_neg (by simp),
        digitsValue_append, hk]

theorem digit_of_isHexadecimalDigit {c : Char} (h : isHexadecimalDigit c = true) :
    isDigitOf 16 c = true := by
  cases hc : c.isDigit with
  | true => exact isDigitOf_of_isDigit (by decide) hc
  | false =>
    unfold isHexadecimalDigit at h
    simp only [hc, Bool.false_or, decide_eq_true_eq] at h
    obtain ⟨hA, hF⟩ := h
    have hA' : 65 ≤ c.toNat := hA
    have hF' : c.toNat ≤ 70 := hF
    have hlower : ¬ ('a' ≤ c ∧ c ≤ 'z') := by
      rintro ⟨ha, -⟩
      have ha' : 97 ≤ c.toNat := ha
      omega
    have hZ : c ≤ 'Z' := by
      change c.toNat ≤ 90
      omega
    have hlt : c.toNat - 'A'.toNat + 10 < 16 := by
      change c.toNat - 65 + 10 < 16
      omega
    unfold isDigitOf digitValue
    simp only [hc, Bool.false_eq_true, if_false, hlower, if_pos (And.intro hA hZ),
      Option.filter_some, hlt, decide_true, if_true, Option.isSome_some]

namespace IntegerToken

theorem exact_of_read {t : IntegerToken} (h : t.visitIntegerLiteral =
    if (t.value : ℤ) ≤ intMax then .ok (t.value : ℤ) else .error "out_of_range") : t.Exact where
  fits := fun hle => by rw [h, if_pos hle]
  rejected := fun hlt => ⟨_, by rw [h, if_neg (not_le.mpr hlt)]⟩

theorem exact_iff_of_prefix {t : IntegerToken} {p k r : ℕ} (hread : t.visitIntegerLiteral =
      if (p : ℤ) ≤ intMax then .ok (p : ℤ) else .error "out_of_range")
    (hvalue : t.value = p * 10 ^ (k + 1) + r) : t.Exact ↔ t.value = 0 ∨ intMax < (p : ℤ) := by
  have hpow : 10 ≤ 10 ^ (k + 1) := Nat.le_self_pow (Nat.succ_ne_zero k) 10
  have hle : p * 10 ≤ p * 10 ^ (k + 1) := Nat.mul_le_mul_left p hpow
  by_cases hp : (p : ℤ) ≤ intMax
  · rw [if_pos hp] at hread
    constructor
    · intro h
      apply Or.inl
      by_cases hfits : (t.value : ℤ) ≤ intMax
      · have heq := hread.symm.trans (h.fits hfits)
        have hpv : p = t.value := Int.ofNat.inj (Except.ok.inj heq)
        omega
      · obtain ⟨e, he⟩ := h.rejected (not_le.mp hfits)
        rw [hread] at he
        cases he
    · rintro (hzero | hlt)
      · have hp0 : p = 0 := by omega
        subst hp0
        exact ⟨fun _ => by rw [hread, hzero], fun hlt => by rw [hzero] at hlt; cases hlt⟩
      · exact absurd hp (not_le.mpr hlt)
  · rw [if_neg hp] at hread
    have hlt : intMax < (t.value : ℤ) := by
      have hpv : (p : ℤ) ≤ t.value := by
        have : p ≤ t.value := by omega
        exact_mod_cast this
      exact lt_of_lt_of_le (not_le.mp hp) hpv
    exact iff_of_true ⟨fun hfits => absurd hfits (not_le.mpr hlt), fun _ => ⟨_, hread⟩⟩
      (Or.inr (not_le.mp hp))

/-- A token is read exactly if it has no separators, is zero, or is too large in front of the first
separator already. -/
theorem exact_iff (t : IntegerToken) :
    t.Exact ↔ '_' ∉ t.text ∨ t.value = 0 ∨ intMax < (t.leadingValue : ℤ) := by
  cases t with
  | hexadecimalInteger ds hne hds =>
    have hdigits : ∀ c ∈ ds, isHexadecimalDigit c = true := List.all_eq_true.mp hds
    have hno : '_' ∉ (hexadecimalInteger ds hne hds).text := by
      intro hmem
      simp only [text, List.mem_cons, Char.reduceEq, false_or] at hmem
      have hdigit := hdigits _ hmem
      revert hdigit
      decide
    refine iff_of_true (exact_of_read ?_) (Or.inl hno)
    exact stringToInt_of_strtol (strtol_hexadecimal hne fun c hc =>
      digit_of_isHexadecimalDigit (hdigits c hc))
  | unsignedInteger cs hcs =>
    obtain ⟨p, hp, hread, ⟨hno, hvalue⟩ | ⟨hmem, k, r, hvalue⟩⟩ := unsignedInteger_value hcs
    · refine iff_of_true (exact_of_read ?_) (Or.inl hno)
      have hv : (unsignedInteger cs hcs).value = p := hvalue
      rw [hv]
      exact hread
    · have hlead : (unsignedInteger cs hcs).leadingValue = p := hp
      have hno : ¬ '_' ∉ (unsignedInteger cs hcs).text := not_not_intro hmem
      rw [hlead, iff_false_intro hno, false_or]
      exact exact_iff_of_prefix (t := unsignedInteger cs hcs) hread hvalue

/-- `1_000` is read as one. -/
theorem separated_not_exact : ¬ (unsignedInteger ['1', '_', '0', '0', '0'] rfl).Exact := by
  intro h
  have hread := h.fits (by decide)
  revert hread
  decide

end IntegerToken

end Ahorn
