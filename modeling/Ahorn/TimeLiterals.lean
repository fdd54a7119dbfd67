import Mathlib.Algebra.Order.Field.Rat
import Mathlib.Tactic.Linarith
import Mathlib.Tactic.Positivity
import Mathlib.Tactic.NormNum
import Ahorn.IntegerLiterals

set_option autoImplicit false

/-!
# Time literals

An interval counts days, hours, minutes, seconds and milliseconds, from some unit on and without
leaving one out. The conversion looks for the letters of the units one after the other; what it
converts it removes from the front.
-/
namespace Ahorn

def findText (pattern : List Char) : List Char → Option ℕ
  | [] => if pattern = [] then some 0 else none
  | c :: cs =>
    if pattern.isPrefixOf (c :: cs) then some 0 else (findText pattern cs).map (· + 1)

def substr (cs : List Char) (pos length : ℕ) : List Char := (cs.drop pos).take length

/-- `[0-9]*(\.?([0-9]+))` -/
def isUnsignedNumber (cs : List Char) : Bool :=
  match cs.dropWhile Char.isDigit with
  | [] => cs ≠ []
  | '.' :: fraction => fraction ≠ [] && fraction.all Char.isDigit
  | _ => false

/-- `(\+|-)?[0-9]*(\.?([0-9]+))` -/
def isNumber (cs : List Char) : Bool := isUnsignedNumber (dropSign cs).2

namespace TimeLiteral

/-- What is left of the interval, and the milliseconds that have been converted. -/
abbrev State := List Char × ℤ

/-- Convert what stands in front of a position, and remove it with the letters of the unit. -/
def convert (pos letters : ℕ) (factor : ℤ) (s : State) : Except String State := do
  let n ← stringToInt 10 (s.1.take pos)
  let product ← checkedInt (n * factor)
  let value ← checkedInt (s.2 + product)
  .ok (s.1.drop (pos + letters), value)

def convertUnit (letter : Char) (factor : ℤ) (s : State) : Except String State :=
  match findText [letter] s.1 with
  | none => .ok s
  | some pos => convert pos 1 factor s

def convertDays : State → Except String State := convertUnit 'd' 86400000

def convertHours : State → Except String State := convertUnit 'h' 3600000

/-- Whether the letter is that of minutes is decided on the letter and what follows it. -/
def convertMinutes (s : State) : Except String State :=
  match findText ['m'] s.1 with
  | none => .ok s
  | some pos => if isNumber (substr s.1 pos (pos + 1)) then convert pos 1 60000 s else .ok s

/-- Whether the letter is that of seconds is decided on the character in front of it and as many
characters behind as stand in front. -/
def convertSeconds (s : State) : Except String State :=
  match findText ['s'] s.1 with
  | none => .ok s
  | some 0 => .error "out_of_range"
  | some (pos + 1) =>
    if isNumber (substr s.1 pos (pos + 1)) then convert (pos + 1) 1 1000 s else .ok s

def convertMilliseconds (s : State) : Except String State :=
  match findText ['m', 's'] s.1 with
  | none => .ok s
  | some pos => convert pos 2 1 s

/-- The milliseconds of an interval. The sign of the literal is not looked at. -/
def visitTimeLiteral (interval : List Char) : Except String ℤ := do
  let s ← convertDays (interval, 0)
  let s ← convertHours s
  let s ← convertMinutes s
  let s ← convertSeconds s
  let s ← convertMilliseconds s
  .ok s.2

end TimeLiteral

example : TimeLiteral.visitTimeLiteral ['2', 'd', '3', 'h'] = .ok 183600000 := by decide

/-- `DIGIT ('_'? DIGIT)*` -/
structure UnsignedInteger where
  text : List Char
  wellFormed : isUnsignedInteger text = true

namespace UnsignedInteger

def digits (n : UnsignedInteger) : List Char := n.text.filter (· ≠ '_')

def value (n : UnsignedInteger) : ℕ := digitsValue 10 n.digits

/-- The number in front of the first separator. -/
def leading (n : UnsignedInteger) : ℕ := digitsValue 10 (n.text.takeWhile (· ≠ '_'))

end UnsignedInteger

inductive TimeUnit where
  | d | h | m | s | ms
  deriving DecidableEq, Repr

namespace TimeUnit

def letters : TimeUnit → List Char
  | d => ['d']
  | h => ['h']
  | m => ['m']
  | s => ['s']
  | ms => ['m', 's']

def milliseconds : TimeUnit → ℕ
  | d => 86400000
  | h => 3600000
  | m => 60000
  | s => 1000
  | ms => 1

end TimeUnit

/-- How often a unit is taken: a number that may have a fraction. -/
structure Component where
  number : UnsignedInteger
  fraction : Option UnsignedInteger := none

namespace Component

def text (c : Component) : List Char :=
  c.number.text ++ (c.fraction.elim [] fun f => '.' :: f.text)

def fractionValue (c : Component) : ℚ :=
  match c.fraction with
  | none => 0
  | some f => (f.value : ℚ) / 10 ^ f.digits.length

def value (c : Component) : ℚ := c.number.value + c.fractionValue

/-- One digit and nothing else. -/
def IsDigit (c : Component) : Prop := c.number.text.length = 1 ∧ c.fraction = none

instance (c : Component) : Decidable c.IsDigit := inferInstanceAs (Decidable (_ ∧ _))

/-- The digits in front of the first separator or point give the number already. -/
def IsLeading (c : Component) : Prop := (c.number.leading : ℚ) = c.value

end Component

/-- An interval that begins with the first of the units. A separator may stand behind the letters of
a unit, if its number has no fraction, and only then another unit may follow. -/
inductive Interval : List TimeUnit → Type where
  | last {u : TimeUnit} {us : List TimeUnit} (c : Component) (separated : Bool)
      (h : c.fraction = none ∨ separated = false) : Interval (u :: us)
  | more {u : TimeUnit} {us : List TimeUnit} (n : UnsignedInteger) (separated : Bool)
      (rest : Interval us) : Interval (u :: us)

namespace Interval

def separator (separated : Bool) : List Char := if separated then ['_'] else []

def text : {us : List TimeUnit} → Interval us → List Char
  | u :: _, last c separated _ => c.text ++ u.letters ++ separator separated
  | u :: _, more n separated rest => n.text ++ u.letters ++ separator separated ++ rest.text

def value : {us : List TimeUnit} → Interval us → ℚ
  | u :: _, last c _ _ => c.value * u.milliseconds
  | u :: _, more n _ rest => n.value * u.milliseconds + rest.value

end Interval

/-- An interval may begin with any of the units. -/
inductive IntervalToken where
  | days (i : Interval [.d, .h, .m, .s, .ms])
  | hours (i : Interval [.h, .m, .s, .ms])
  | minutes (i : Interval [.m, .s, .ms])
  | seconds (i : Interval [.s, .ms])
  | milliseconds (i : Interval [.ms])

namespace IntervalToken

def text : IntervalToken → List Char
  | days i | hours i | minutes i | seconds i | milliseconds i => i.text

def value : IntervalToken → ℚ
  | days i | hours i | minutes i | seconds i | milliseconds i => i.value

end IntervalToken

namespace Interval

def readMilliseconds : Interval [.ms] → ℕ
  | last c _ _ => c.number.leading
  | more n _ _ => n.leading

/-- What the conversion makes of seconds at the beginning, if it does not fail. Seconds with more than
one digit are left, and are then read as milliseconds if there are some. -/
def readSeconds : Interval [.s, .ms] → Option ℕ
  | last c _ _ => if c.IsDigit then some (c.number.leading * 1000) else some 0
  | more n separated rest =>
    if Component.IsDigit ⟨n, none⟩ then
      if separated then none else some (n.leading * 1000 + rest.readMilliseconds)
    else some n.leading

def hasMilliseconds : Interval [.m, .s, .ms] → Bool
  | more _ _ (more _ _ _) => true
  | _ => false

def minutes : Interval [.m, .s, .ms] → UnsignedInteger
  | last c _ _ => c.number
  | more n _ _ => n

/-- Minutes are left, and are then read as milliseconds if there are some. -/
def readMinutes (front : Bool) (i : Interval [.m, .s, .ms]) : Option ℕ :=
  if i.hasMilliseconds then if front then some i.minutes.leading else none else some 0

def readHours (front : Bool) : Interval [.h, .m, .s, .ms] → Option ℕ
  | last c _ _ => if front then some (c.number.leading * 3600000) else none
  | more n separated rest =>
    if front then (rest.readMinutes !separated).map (n.leading * 3600000 + ·) else none

def readDays : Interval [.d, .h, .m, .s, .ms] → Option ℕ
  | last c _ _ => some (c.number.leading * 86400000)
  | more n separated rest => (rest.readHours !separated).map (n.leading * 86400000 + ·)

/-- Nothing is lost of milliseconds at the beginning. -/
def MillisecondsKept : Interval [.ms] → Prop
  | last c _ _ => c.IsLeading
  | more n _ _ => Component.IsLeading ⟨n, none⟩

/-- One digit of seconds is kept, and with it the milliseconds right behind it. -/
def SecondsKept : Interval [.s, .ms] → Prop
  | last c _ _ => c.IsDigit ∨ c.value = 0
  | more n separated rest =>
    (Component.IsDigit ⟨n, none⟩ ∧ separated = false ∧ rest.MillisecondsKept) ∨
      (¬ Component.IsDigit ⟨n, none⟩ ∧ n.value = 0 ∧ rest.value = 0)

/-- Nothing is kept of minutes and of what is behind them. -/
def MinutesKept (front : Bool) (i : Interval [.m, .s, .ms]) : Prop :=
  i.value = 0 ∧ (i.hasMilliseconds = true → front = true)

def HoursKept (front : Bool) : Interval [.h, .m, .s, .ms] → Prop
  | last c _ _ => front = true ∧ c.IsLeading
  | more n separated rest =>
    front = true ∧ Component.IsLeading ⟨n, none⟩ ∧ rest.MinutesKept !separated

def DaysKept : Interval [.d, .h, .m, .s, .ms] → Prop
  | last c _ _ => c.IsLeading
  | more n separated rest => Component.IsLeading ⟨n, none⟩ ∧ rest.HoursKept !separated

end Interval

namespace IntervalToken

/-- The conversion keeps everything of the interval: days and hours are followed without a separator,
minutes with what follows them are zero, seconds are at most one digit at the beginning, and no digits
that count stand behind a separator in a number or behind a point. -/
def Kept : IntervalToken → Prop
  | days i => i.DaysKept
  | hours i => i.HoursKept true
  | minutes i => i.MinutesKept true
  | seconds i => i.SecondsKept
  | milliseconds i => i.MillisecondsKept

/-- What the conversion makes of the interval, if it does not fail. -/
def read : IntervalToken → Option ℕ
  | days i => i.readDays
  | hours i => i.readHours true
  | minutes i => i.readMinutes true
  | seconds i => i.readSeconds
  | milliseconds i => some i.readMilliseconds

end IntervalToken

theorem UnsignedInteger.leading_le_value (n : UnsignedInteger) : n.leading ≤ n.value := by
  obtain ⟨p, hp, -, ⟨-, hvalue⟩ | ⟨-, k, r, hvalue⟩⟩ := unsignedInteger_value n.wellFormed
  · change n.value = p at hvalue
    change n.leading = p at hp
    omega
  · have hle : p * 1 ≤ p * 10 ^ (k + 1) := Nat.mul_le_mul_left p (Nat.one_le_pow _ _ (by omega))
    change n.value = p * 10 ^ (k + 1) + r at hvalue
    change n.leading = p at hp
    omega

namespace Component

theorem leading_le_value (c : Component) : (c.number.leading : ℚ) ≤ c.value := by
  have hnumber : (c.number.leading : ℚ) ≤ c.number.value := by
    exact_mod_cast c.number.leading_le_value
  have hfraction : 0 ≤ c.fractionValue := by
    unfold fractionValue
    split
    · exact le_rfl
    · positivity
  unfold value
  linarith

theorem value_nonneg (c : Component) : 0 ≤ c.value :=
  (Nat.cast_nonneg c.number.leading).trans c.leading_le_value

theorem IsDigit.isLeading {c : Component} (h : c.IsDigit) : c.IsLeading := by
  obtain ⟨hlength, hfraction⟩ := h
  obtain ⟨d, hd⟩ := List.length_eq_one_iff.mp hlength
  have hdigit := c.number.wellFormed
  rw [hd] at hdigit
  have hne : d ≠ '_' := by
    rintro rfl
    cases hdigit
  have htake : [d].takeWhile (· ≠ '_') = [d] :=
    List.takeWhile_cons_of_pos (by simpa using hne)
  have hfilter : [d].filter (· ≠ '_') = [d] := List.filter_cons_of_pos (by simpa using hne)
  unfold IsLeading value fractionValue UnsignedInteger.value UnsignedInteger.digits
    UnsignedInteger.leading
  rw [hfraction, hd, htake, hfilter]
  exact (add_zero _).symm

end Component

theorem sum_eq_iff {a b k v f : ℚ} (hf : 0 < f) (hab : a ≤ b) (hkv : k ≤ v) :
    a * f + k = b * f + v ↔ a = b ∧ k = v := by
  constructor
  · intro h
    have hmul : a * f ≤ b * f := mul_le_mul_of_nonneg_right hab hf.le
    have hk : k = v := by linarith
    have hprod : a * f = b * f := by linarith
    exact ⟨mul_right_cancel₀ hf.ne' hprod, hk⟩
  · rintro ⟨rfl, rfl⟩
    rfl

namespace Interval

theorem value_nonneg : {us : List TimeUnit} → (i : Interval us) → 0 ≤ i.value
  | _ :: _, last c _ _ => mul_nonneg c.value_nonneg (Nat.cast_nonneg _)
  | _ :: _, more _ _ rest =>
    add_nonneg (mul_nonneg (Nat.cast_nonneg _) (Nat.cast_nonneg _)) rest.value_nonneg

theorem readMilliseconds_eq_iff (i : Interval [.ms]) :
    (i.readMilliseconds : ℚ) = i.value ↔ i.MillisecondsKept := by
  cases i with
  | last c separated h =>
    rw [readMilliseconds, value, TimeUnit.milliseconds, Nat.cast_one, mul_one]
    rfl
  | more n separated rest => cases rest

theorem isLeading_iff (n : UnsignedInteger) :
    Component.IsLeading ⟨n, none⟩ ↔ (n.leading : ℚ) = n.value := by
  change (n.leading : ℚ) = n.value + 0 ↔ _
  rw [add_zero]

theorem sum_eq_zero_iff {n : UnsignedInteger} {f v : ℚ} (hf : 1 < f) (hv : 0 ≤ v) :
    n.value * f + v = 0 ↔ n.value = 0 ∧ v = 0 := by
  have hnonneg : (0 : ℚ) ≤ n.value := Nat.cast_nonneg _
  rw [add_eq_zero_iff_of_nonneg (mul_nonneg hnonneg (by linarith)) hv, mul_eq_zero,
    or_iff_left (by linarith), Nat.cast_eq_zero]

theorem leading_eq_iff {n : UnsignedInteger} {f v : ℚ} (hf : 1 < f) (hv : 0 ≤ v) :
    (n.leading : ℚ) = n.value * f + v ↔ n.value * f + v = 0 := by
  have hle : (n.leading : ℚ) ≤ n.value := by exact_mod_cast n.leading_le_value
  have hnonneg : (0 : ℚ) ≤ n.value := Nat.cast_nonneg _
  constructor
  · intro h
    rw [sum_eq_zero_iff hf hv]
    have hzero : (n.value : ℚ) = 0 := by nlinarith
    exact ⟨by exact_mod_cast hzero, by nlinarith⟩
  · intro h
    obtain ⟨hn, -⟩ := (sum_eq_zero_iff hf hv).mp h
    have hleading : n.leading = 0 := by
      have := n.leading_le_value
      omega
    rw [h, hleading, Nat.cast_zero]

theorem readSeconds_eq_iff (i : Interval [.s, .ms]) :
    (∃ k, i.readSeconds = some k ∧ (k : ℚ) = i.value) ↔ i.SecondsKept := by
  cases i with
  | last c separated h =>
    rw [readSeconds, value, TimeUnit.milliseconds]
    by_cases hdigit : c.IsDigit
    · have hleading : (c.number.leading : ℚ) = c.value := hdigit.isLeading
      rw [if_pos hdigit]
      refine iff_of_true ⟨_, rfl, ?_⟩ (Or.inl hdigit)
      rw [Nat.cast_mul, hleading]
    · rw [if_neg hdigit]
      have hkept : SecondsKept (.last c separated h) ↔ c.value = 0 := or_iff_right hdigit
      rw [hkept]
      constructor
      · rintro ⟨k, ⟨⟩, hk⟩
        norm_num at hk
        exact hk
      · intro hzero
        exact ⟨0, rfl, by rw [hzero]; norm_num⟩
  | more n separated rest =>
    rw [readSeconds, value, TimeUnit.milliseconds, SecondsKept]
    by_cases hdigit : Component.IsDigit ⟨n, none⟩
    · have hleading := (isLeading_iff n).mp hdigit.isLeading
      rw [if_pos hdigit]
      cases separated with
      | true => simp [hdigit]
      | false =>
        simp only [Bool.false_eq_true, if_false, Option.some.injEq, exists_eq_left', hdigit,
          not_true_eq_false, false_and, or_false, true_and]
        rw [← readMilliseconds_eq_iff, Nat.cast_add, Nat.cast_mul, hleading]
        exact add_right_inj _
    · rw [if_neg hdigit]
      simp only [Option.some.injEq, exists_eq_left', hdigit, false_and, false_or,
        not_false_eq_true, true_and]
      rw [← sum_eq_zero_iff (f := 1000) (by norm_num) rest.value_nonneg]
      exact leading_eq_iff (by norm_num) rest.value_nonneg

theorem value_minutes {i : Interval [.m, .s, .ms]} (h : i.hasMilliseconds = true) :
    ∃ v : ℚ, 0 ≤ v ∧ i.value = i.minutes.value * 60000 + v := by
  cases i with
  | last c separated hc => cases h
  | more n separated rest => exact ⟨rest.value, rest.value_nonneg, rfl⟩

theorem readMinutes_eq_iff {front : Bool} (i : Interval [.m, .s, .ms]) :
    (∃ k, i.readMinutes front = some k ∧ (k : ℚ) = i.value) ↔ i.MinutesKept front := by
  unfold readMinutes MinutesKept
  cases hms : i.hasMilliseconds with
  | false =>
    simp only [Bool.false_eq_true, if_false, Option.some.injEq, exists_eq_left', false_imp_iff,
      and_true, Nat.cast_zero]
    exact eq_comm
  | true =>
    obtain ⟨v, hv, hvalue⟩ := value_minutes hms
    cases front with
    | false => simp
    | true =>
      simp only [if_true, Option.some.injEq, exists_eq_left', imp_self, and_true]
      rw [hvalue]
      exact leading_eq_iff (by norm_num) hv

theorem readMinutes_le {front : Bool} {i : Interval [.m, .s, .ms]} {k : ℕ}
    (h : i.readMinutes front = some k) : (k : ℚ) ≤ i.value := by
  unfold readMinutes at h
  split_ifs at h with hms hfront
  · obtain ⟨v, hv, hvalue⟩ := value_minutes hms
    have hle : (i.minutes.leading : ℚ) ≤ i.minutes.value := by
      exact_mod_cast i.minutes.leading_le_value
    have hnonneg : (0 : ℚ) ≤ i.minutes.value := Nat.cast_nonneg _
    obtain rfl := Option.some.inj h
    rw [hvalue]
    linarith
  · obtain rfl := Option.some.inj h
    rw [Nat.cast_zero]
    exact i.value_nonneg

theorem read_more_iff {n : UnsignedInteger} {f : ℕ} {o : Option ℕ} {v : ℚ} (hf : 0 < f)
    (hle : ∀ k, o = some k → (k : ℚ) ≤ v) :
    (∃ k, o.map (n.leading * f + ·) = some k ∧ (k : ℚ) = n.value * f + v) ↔
      Component.IsLeading ⟨n, none⟩ ∧ ∃ k, o = some k ∧ (k : ℚ) = v := by
  have hleading : (n.leading : ℚ) ≤ n.value := by exact_mod_cast n.leading_le_value
  have hf' : (0 : ℚ) < f := by exact_mod_cast hf
  rw [isLeading_iff]
  cases o with
  | none => simp
  | some k =>
    simp only [Option.map_some, Option.some.injEq, exists_eq_left', Nat.cast_add, Nat.cast_mul]
    exact sum_eq_iff hf' hleading (hle k rfl)

theorem read_last_iff {c : Component} {f : ℕ} (hf : 0 < f) :
    ((c.number.leading * f : ℕ) : ℚ) = c.value * f ↔ c.IsLeading := by
  have hf' : (f : ℚ) ≠ 0 := by exact_mod_cast hf.ne'
  rw [Nat.cast_mul, mul_left_inj' hf']
  rfl

theorem readHours_eq_iff {front : Bool} (i : Interval [.h, .m, .s, .ms]) :
    (∃ k, i.readHours front = some k ∧ (k : ℚ) = i.value) ↔ i.HoursKept front := by
  cases i with
  | last c separated h =>
    rw [readHours, HoursKept, value]
    cases front with
    | false => simp
    | true =>
      simp only [if_true, Option.some.injEq, exists_eq_left', true_and]
      exact read_last_iff (by decide)
  | more n separated rest =>
    rw [readHours, HoursKept, value]
    cases front with
    | false => simp
    | true =>
      simp only [if_true, true_and]
      rw [← readMinutes_eq_iff]
      exact read_more_iff (by decide) fun k hk => readMinutes_le hk

theorem readHours_le {front : Bool} {i : Interval [.h, .m, .s, .ms]} {k : ℕ}
    (h : i.readHours front = some k) : (k : ℚ) ≤ i.value := by
  cases i with
  | last c separated hc =>
    rw [readHours] at h
    split_ifs at h
    obtain rfl := Option.some.inj h
    rw [value, Nat.cast_mul]
    exact mul_le_mul_of_nonneg_right c.leading_le_value (Nat.cast_nonneg _)
  | more n separated rest =>
    rw [readHours] at h
    split_ifs at h
    obtain ⟨j, hj, rfl⟩ := Option.map_eq_some_iff.mp h
    have hleading : (n.leading : ℚ) ≤ n.value := by exact_mod_cast n.leading_le_value
    rw [value, Nat.cast_add, Nat.cast_mul]
    exact add_le_add (mul_le_mul_of_nonneg_right hleading (Nat.cast_nonneg _)) (readMinutes_le hj)

theorem readDays_eq_iff (i : Interval [.d, .h, .m, .s, .ms]) :
    (∃ k, i.readDays = some k ∧ (k : ℚ) = i.value) ↔ i.DaysKept := by
  cases i with
  | last c separated h =>
    rw [readDays, DaysKept, value]
    simp only [Option.some.injEq, exists_eq_left']
    exact read_last_iff (by decide)
  | more n separated rest =>
    rw [readDays, DaysKept, value, ← readHours_eq_iff]
    exact read_more_iff (by decide) fun k hk => readHours_le hk

end Interval

theorem IntervalToken.read_eq_iff (t : IntervalToken) :
    (∃ k, t.read = some k ∧ (k : ℚ) = t.value) ↔ t.Kept := by
  cases t with
  | days i => exact i.readDays_eq_iff
  | hours i => exact i.readHours_eq_iff
  | minutes i => exact i.readMinutes_eq_iff
  | seconds i => exact i.readSeconds_eq_iff
  | milliseconds i =>
    change (∃ k, some i.readMilliseconds = some k ∧ (k : ℚ) = i.value) ↔ _
    simp only [Option.some.injEq, exists_eq_left']
    exact i.readMilliseconds_eq_iff

end Ahorn
