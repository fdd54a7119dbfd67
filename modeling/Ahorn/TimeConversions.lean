import Ahorn.Results
import Ahorn.TimeLiterals

set_option autoImplicit false

/-!
# The conversion of time literals

What each search of the conversion finds in an interval, and what is read there.
-/
namespace Ahorn

section Search

variable {p : Char} {w pre l cs : List Char}

theorem findText_append_of_notMem (h : p ∉ pre) :
    findText (p :: w) (pre ++ l) = (findText (p :: w) l).map (· + pre.length) := by
  induction pre with
  | nil => simp
  | cons c pre ih =>
    have hne : c ≠ p := fun hc => h (List.mem_cons.mpr (Or.inl hc.symm))
    rw [List.cons_append, findText, if_neg (by simp [List.isPrefixOf, hne.symm]),
      ih fun hp => h (List.mem_cons_of_mem _ hp), Option.map_map]
    rfl

theorem findText_prefix (p : Char) (w l : List Char) :
    findText (p :: w) (p :: (w ++ l)) = some 0 := by
  rw [findText, if_pos]
  rw [List.isPrefixOf_iff_prefix]
  exact List.prefix_append (p :: w) l

theorem findText_eq_none (h : p ∉ cs) : findText (p :: w) cs = none := by
  have hcs := findText_append_of_notMem (w := w) (l := []) h
  rwa [List.append_nil] at hcs

theorem findText_found (h : p ∉ pre) :
    findText (p :: w) (pre ++ p :: (w ++ l)) = some pre.length := by
  rw [findText_append_of_notMem h, findText_prefix, Option.map_some, Nat.zero_add]

theorem findText_skip {c q : Char} (h : c ≠ q) :
    findText [p, q] (p :: c :: l) = (findText [p, q] (c :: l)).map (· + 1) := by
  rw [findText, if_neg]
  simp [List.isPrefixOf, h.symm]

theorem findText_drop {pattern : List Char} {pos : ℕ} (h : findText pattern cs = some pos) :
    ∃ rest, cs.drop pos = pattern ++ rest := by
  induction cs generalizing pos with
  | nil =>
    rw [findText] at h
    split_ifs at h with hpattern
    exact ⟨[], by simp [hpattern]⟩
  | cons c cs ih =>
    rw [findText] at h
    split_ifs at h with hpre
    · obtain rfl := Option.some.inj h
      obtain ⟨rest, hrest⟩ := List.isPrefixOf_iff_prefix.mp hpre
      exact ⟨rest, hrest.symm⟩
    · obtain ⟨k, hk, rfl⟩ := Option.map_eq_some_iff.mp h
      exact ih hk

theorem findText_eq_none_of_notMem {pattern : List Char} {x : Char} (hx : x ∈ pattern)
    (h : x ∉ cs) : findText pattern cs = none := by
  cases hfind : findText pattern cs with
  | none => rfl
  | some pos =>
    obtain ⟨rest, hrest⟩ := findText_drop hfind
    refine absurd (List.mem_of_mem_drop (i := pos) ?_) h
    rw [hrest]
    exact List.mem_append_left _ hx

end Search

theorem isUnsignedNumber_chars {cs : List Char} (h : isUnsignedNumber cs = true) :
    ∀ c ∈ cs, c.isDigit = true ∨ c = '.' := by
  intro c hc
  rw [← List.takeWhile_append_dropWhile (p := Char.isDigit) (l := cs), List.mem_append] at hc
  rcases hc with hc | hc
  · exact Or.inl (List.mem_takeWhile_imp hc)
  · unfold isUnsignedNumber at h
    split at h
    · next hnil =>
      rw [hnil] at hc
      cases hc
    · next fraction hpoint =>
      rw [hpoint] at hc
      rcases List.mem_cons.mp hc with rfl | hc
      · exact Or.inr rfl
      · exact Or.inl (List.all_eq_true.mp (Bool.and_eq_true_iff.mp h).2 c hc)
    · cases h

theorem mem_dropSign {cs : List Char} {c : Char} (hc : c ∈ cs) :
    c = '+' ∨ c = '-' ∨ c ∈ (dropSign cs).2 := by
  unfold dropSign
  split
  · rcases List.mem_cons.mp hc with rfl | hc
    · exact Or.inr (Or.inl rfl)
    · exact Or.inr (Or.inr hc)
  · rcases List.mem_cons.mp hc with rfl | hc
    · exact Or.inl rfl
    · exact Or.inr (Or.inr hc)
  · exact Or.inr (Or.inr hc)

theorem not_isNumber_of_mem {cs : List Char} {c : Char} (hc : c ∈ cs)
    (hletter : c.isDigit = false ∧ c ≠ '.' ∧ c ≠ '+' ∧ c ≠ '-') : isNumber cs = false := by
  obtain ⟨hdigit, hpoint, hplus, hminus⟩ := hletter
  apply Bool.eq_false_iff.mpr
  intro h
  rcases mem_dropSign hc with rfl | rfl | hmem
  · exact hplus rfl
  · exact hminus rfl
  · rcases isUnsignedNumber_chars h c hmem with hd | rfl
    · rw [hdigit] at hd
      cases hd
    · exact hpoint rfl

theorem isNumber_digit {c : Char} (hc : c.isDigit = true) : isNumber [c] = true := by
  unfold isNumber isUnsignedNumber
  rw [dropSign_of_isDigit hc, List.dropWhile_cons_of_pos hc]
  simp

/-- The computation gives the number, if there is one and it fits, and fails otherwise. -/
def Computes (r : Except String ℤ) (n : Option ℕ) : Prop :=
  ∀ v : ℤ, r = .ok v ↔ ∃ k : ℕ, n = some k ∧ v = k ∧ v ≤ intMax

namespace Computes

theorem error (e : String) : Computes (.error e) none := by
  intro v
  simp

theorem ok {k : ℕ} (h : (k : ℤ) ≤ intMax) : Computes (.ok (k : ℤ)) (some k) := by
  intro v
  simp only [Except.ok.injEq, Option.some.injEq, exists_eq_left']
  constructor
  · rintro rfl
    exact ⟨rfl, h⟩
  · rintro ⟨rfl, -⟩
    rfl

end Computes

/-- The text reads as a number, if that fits. -/
def ReadsAs (cs : List Char) (p : ℕ) : Prop :=
  stringToInt 10 cs = if (p : ℤ) ≤ intMax then .ok (p : ℤ) else .error "out_of_range"

theorem ReadsAs.ok {cs : List Char} {p : ℕ} (h : ReadsAs cs p) (hp : (p : ℤ) ≤ intMax) :
    stringToInt 10 cs = .ok (p : ℤ) := h.trans (if_pos hp)

theorem ReadsAs.eq_of_ok {cs : List Char} {p : ℕ} (h : ReadsAs cs p) {n : ℤ}
    (hn : stringToInt 10 cs = .ok n) : n = p := by
  rw [h] at hn
  split_ifs at hn
  exact (Except.ok.inj hn).symm

theorem checkedInt_eq_ok {n m : ℤ} : checkedInt n = .ok m ↔ FitsInt n ∧ m = n := by
  unfold checkedInt
  split_ifs with h
  · rw [Except.ok.injEq, eq_comm]
    exact (and_iff_right h).symm
  · simp [h]

theorem fitsInt_cast {n : ℕ} : FitsInt n ↔ (n : ℤ) ≤ intMax := by
  refine and_iff_right ?_
  unfold intMin
  omega

namespace TimeLiteral

theorem computes_convert {pre q l : List Char} {p f V : ℕ} (hf : 0 < f) (hread : ReadsAs pre p)
    {k : State → Except String ℤ} {n : Option ℕ} (hle : ∀ j, n = some j → V + p * f ≤ j)
    (hk : ((V + p * f : ℕ) : ℤ) ≤ intMax → Computes (k (l, ((V + p * f : ℕ) : ℤ))) n) :
    Computes (convert pre.length q.length f (pre ++ (q ++ l), (V : ℤ)) >>= k) n := by
  have hdrop : (pre ++ (q ++ l)).drop (pre.length + q.length) = l := by
    rw [← List.append_assoc, ← List.length_append, List.drop_left]
  have hpf : p ≤ p * f := Nat.le_mul_of_pos_right p hf
  intro v
  constructor
  · intro h
    obtain ⟨s, hs, h⟩ := bind_eq_ok h
    obtain ⟨n', hn', hs⟩ := bind_eq_ok hs
    obtain ⟨product, hproduct, hs⟩ := bind_eq_ok hs
    obtain ⟨value, hvalue, hs⟩ := bind_eq_ok hs
    dsimp only at hn' hvalue hs
    rw [List.take_left] at hn'
    obtain rfl := hread.eq_of_ok hn'
    obtain ⟨-, rfl⟩ := checkedInt_eq_ok.mp hproduct
    obtain ⟨hfits, rfl⟩ := checkedInt_eq_ok.mp hvalue
    rw [hdrop] at hs
    cases hs
    have hcast : ((V : ℤ) + p * f) = ((V + p * f : ℕ) : ℤ) := by push_cast; rfl
    rw [hcast] at hfits h
    exact (hk (fitsInt_cast.mp hfits) v).mp h
  · rintro ⟨j, hj, rfl, hfits⟩
    have hsum : V + p * f ≤ j := hle j hj
    have hV : ((V + p * f : ℕ) : ℤ) ≤ intMax := by omega
    have hconvert : convert pre.length q.length f (pre ++ (q ++ l), (V : ℤ)) =
        .ok (l, ((V + p * f : ℕ) : ℤ)) := by
      have hp : (p : ℤ) ≤ intMax := by omega
      have hproduct : checkedInt ((p : ℤ) * f) = .ok ((p * f : ℕ) : ℤ) :=
        checkedInt_eq_ok.mpr ⟨by rw [← Nat.cast_mul, fitsInt_cast]; omega, by push_cast; rfl⟩
      have hvalue : checkedInt ((V : ℤ) + (p * f : ℕ)) = .ok ((V + p * f : ℕ) : ℤ) :=
        checkedInt_eq_ok.mpr ⟨by rw [← Nat.cast_add, fitsInt_cast]; omega, by push_cast; rfl⟩
      unfold convert
      rw [List.take_left, hread.ok hp]
      simp only [bind, Except.bind, hproduct, hvalue, hdrop]
    rw [hconvert]
    exact (hk hV j).mpr ⟨j, hj, rfl, hfits⟩

theorem convert_separator (cs : List Char) (pos letters : ℕ) (hpos : pos ≠ 0) (f V : ℤ) :
    convert pos letters f ('_' :: cs, V) = .error "invalid_argument" := by
  obtain ⟨n, rfl⟩ := Nat.exists_eq_succ_of_ne_zero hpos
  rfl

end TimeLiteral

section Chars

theorem UnsignedInteger.chars (n : UnsignedInteger) :
    ∀ c ∈ n.text, c.isDigit = true ∨ c = '_' := by
  have h := n.wellFormed
  cases htext : n.text with
  | nil =>
    rw [htext] at h
    cases h
  | cons c cs =>
    rw [htext] at h
    obtain ⟨hc, hcs⟩ := Bool.and_eq_true_iff.mp h
    intro d hd
    rcases List.mem_cons.mp hd with rfl | hd
    · exact Or.inl hc
    · exact isDigit_or_underscore hcs d hd

theorem UnsignedInteger.exists_cons (n : UnsignedInteger) :
    ∃ c cs, n.text = c :: cs ∧ c.isDigit = true := by
  have h := n.wellFormed
  cases htext : n.text with
  | nil =>
    rw [htext] at h
    cases h
  | cons c cs =>
    rw [htext] at h
    exact ⟨c, cs, rfl, (Bool.and_eq_true_iff.mp h).1⟩

theorem Component.chars (c : Component) :
    ∀ x ∈ c.text, x.isDigit = true ∨ x = '_' ∨ x = '.' := by
  intro x hx
  rcases List.mem_append.mp hx with hx | hx
  · exact (c.number.chars x hx).imp_right Or.inl
  · cases hfraction : c.fraction with
    | none =>
      rw [hfraction] at hx
      cases hx
    | some f =>
      rw [hfraction] at hx
      rcases List.mem_cons.mp hx with rfl | hx
      · exact Or.inr (Or.inr rfl)
      · exact (f.chars x hx).imp_right Or.inl

/-- A letter is no digit, no separator and no point. -/
def IsLetter (c : Char) : Prop := c.isDigit = false ∧ c ≠ '_' ∧ c ≠ '.'

instance (c : Char) : Decidable (IsLetter c) := inferInstanceAs (Decidable (_ ∧ _))

theorem Component.letter_notMem (c : Component) {x : Char} (hx : IsLetter x) : x ∉ c.text := by
  intro hmem
  obtain ⟨hdigit, hseparator, hpoint⟩ := hx
  rcases c.chars x hmem with h | h | h
  · rw [hdigit] at h
    cases h
  · exact hseparator h
  · exact hpoint h

theorem UnsignedInteger.letter_notMem (n : UnsignedInteger) {x : Char} (hx : IsLetter x) :
    x ∉ n.text := by
  intro hmem
  exact Component.letter_notMem ⟨n, none⟩ hx (List.mem_append_left _ hmem)

theorem Interval.letter_notMem_separator {separated : Bool} {x : Char} (hx : IsLetter x) :
    x ∉ separator separated := by
  cases separated with
  | false => exact List.not_mem_nil
  | true =>
    intro hmem
    exact hx.2.1 (List.mem_singleton.mp hmem)

theorem Interval.letter_notMem {x : Char} (hx : IsLetter x) : {us : List TimeUnit} →
    (i : Interval us) → (∀ u ∈ us, x ∉ u.letters) → x ∉ i.text
  | u :: us, last c separated _, hus => by
    unfold text
    simp only [List.mem_append, not_or]
    exact ⟨⟨c.letter_notMem hx, hus u List.mem_cons_self⟩, letter_notMem_separator hx⟩
  | u :: us, more n separated rest, hus => by
    unfold text
    simp only [List.mem_append, not_or]
    exact ⟨⟨⟨n.letter_notMem hx, hus u List.mem_cons_self⟩, letter_notMem_separator hx⟩,
      rest.letter_notMem hx fun u hu => hus u (List.mem_cons_of_mem _ hu)⟩

end Chars

theorem Component.readsAs (c : Component) {t : List Char}
    (htail : ∀ x ∈ t.head?, x.isDigit = false) :
    ReadsAs (c.text ++ t) c.number.leading := by
  obtain ⟨ds, hne, hds, htake, hcases⟩ := unsignedInteger_cases c.number.wellFormed
  have hread : ∀ {rest : List Char}, (∀ x ∈ rest.head?, x.isDigit = false) →
      ReadsAs (ds ++ rest) (digitsValue 10 ds) :=
    fun hrest => stringToInt_of_strtol (strtol_digits hne hds hrest)
  have hleading : c.number.leading = digitsValue 10 ds := by
    unfold UnsignedInteger.leading
    rw [htake]
  rw [hleading]
  unfold text
  rcases hcases with heq | ⟨rest, heq, -⟩
  · rw [heq, List.append_assoc]
    apply hread
    cases c.fraction with
    | none => exact htail
    | some f =>
      intro x hx
      obtain rfl := Option.some.inj hx
      rfl
  · rw [heq, List.append_assoc, List.append_assoc]
    apply hread
    intro x hx
    obtain rfl := Option.some.inj hx
    rfl

theorem UnsignedInteger.readsAs (n : UnsignedInteger) {t : List Char}
    (htail : ∀ x ∈ t.head?, x.isDigit = false) : ReadsAs (n.text ++ t) n.leading := by
  have h := Component.readsAs ⟨n, none⟩ htail
  have htext : Component.text ⟨n, none⟩ = n.text := List.append_nil _
  rwa [htext] at h

namespace TimeLiteral

def fromMilliseconds (s : State) : Except String ℤ := convertMilliseconds s >>= fun s => .ok s.2

def fromSeconds (s : State) : Except String ℤ := convertSeconds s >>= fromMilliseconds

def fromHours (s : State) : Except String ℤ :=
  convertHours s >>= fun s => convertMinutes s >>= fromSeconds

theorem visitTimeLiteral_eq (interval : List Char) :
    visitTimeLiteral interval = convertDays (interval, 0) >>= fromHours := rfl

theorem convertMinutes_eq (s : State) : convertMinutes s = .ok s := by
  unfold convertMinutes
  split
  · rfl
  · next pos hpos =>
    obtain ⟨rest, hrest⟩ := findText_drop hpos
    rw [if_neg]
    rw [Bool.not_eq_true]
    apply not_isNumber_of_mem (c := 'm') _ (by decide)
    unfold substr
    rw [hrest]
    exact List.mem_cons_self

theorem fromHours_eq (s : State) : fromHours s = convertHours s >>= fromSeconds := by
  unfold fromHours
  simp only [convertMinutes_eq, bind, Except.bind]

section Stages

variable {V : ℕ} {pre l cs : List Char}

theorem convertUnit_none {letter : Char} {f V : ℤ} (h : letter ∉ cs) :
    convertUnit letter f (cs, V) = .ok (cs, V) := by
  unfold convertUnit
  rw [findText_eq_none h]

theorem convertUnit_found {letter : Char} {f V : ℤ} (h : letter ∉ pre) :
    convertUnit letter f (pre ++ ([letter] ++ l), V) =
      convert pre.length [letter].length f (pre ++ ([letter] ++ l), V) := by
  have hfind : findText [letter] (pre ++ ([letter] ++ l)) = some pre.length :=
    findText_found (w := []) h
  unfold convertUnit
  rw [hfind]
  rfl

theorem computes_milliseconds_none (hV : (V : ℤ) ≤ intMax) (h : findText ['m', 's'] cs = none) :
    Computes (fromMilliseconds (cs, (V : ℤ))) (some V) := by
  unfold fromMilliseconds convertMilliseconds
  rw [h]
  exact .ok hV

theorem computes_milliseconds {p : ℕ}
    (h : findText ['m', 's'] (pre ++ (['m', 's'] ++ l)) = some pre.length) (hread : ReadsAs pre p) :
    Computes (fromMilliseconds (pre ++ (['m', 's'] ++ l), (V : ℤ))) (some (V + p)) := by
  unfold fromMilliseconds convertMilliseconds
  rw [h]
  refine computes_convert (q := ['m', 's']) (f := 1) Nat.one_pos hread ?_ ?_
  · rintro j ⟨⟩
    rw [Nat.mul_one]
  · rw [Nat.mul_one]
    exact .ok

theorem computes_milliseconds_separator {pos : ℕ} (hpos : pos ≠ 0)
    (h : findText ['m', 's'] ('_' :: cs) = some pos) :
    Computes (fromMilliseconds ('_' :: cs, (V : ℤ))) none := by
  unfold fromMilliseconds convertMilliseconds
  rw [h]
  change Computes (convert pos 2 1 ('_' :: cs, (V : ℤ)) >>= _) none
  rw [convert_separator cs pos 2 hpos]
  exact .error _

theorem convertSeconds_none {V : ℤ} (h : 's' ∉ cs) : convertSeconds (cs, V) = .ok (cs, V) := by
  unfold convertSeconds
  rw [findText_eq_none h]

theorem convertSeconds_skip {V : ℤ} (h : 's' ∉ pre) (hlength : 2 ≤ pre.length) :
    convertSeconds (pre ++ (['s'] ++ l), V) = .ok (pre ++ (['s'] ++ l), V) := by
  obtain ⟨j, hj⟩ := Nat.exists_eq_add_of_le' hlength
  have hfind : findText ['s'] (pre ++ (['s'] ++ l)) = some (j + 1 + 1) := by
    rw [← hj]
    exact findText_found (w := []) h
  have hmem : 's' ∈ substr (pre ++ (['s'] ++ l)) (j + 1) (j + 1 + 1) := by
    have hdrop : pre.drop (j + 1) ≠ [] := by
      rw [ne_eq, List.drop_eq_nil_iff]
      omega
    obtain ⟨x, xs, hx⟩ := List.exists_cons_of_ne_nil hdrop
    have hxs : xs = [] := by
      have hl := congrArg List.length hx
      rw [List.length_drop, List.length_cons] at hl
      exact List.length_eq_zero_iff.mp (by omega)
    unfold substr
    rw [List.drop_append_of_le_length (by omega), hx, hxs]
    simp
  unfold convertSeconds
  dsimp only
  rw [hfind]
  exact if_neg (by rw [not_isNumber_of_mem hmem (by decide)]; exact Bool.false_ne_true)

theorem convertSeconds_digit {V : ℤ} {d : Char} (hd : d.isDigit = true) :
    convertSeconds ([d] ++ (['s'] ++ l), V) =
      convert [d].length ['s'].length 1000 ([d] ++ (['s'] ++ l), V) := by
  have hne : 's' ∉ [d] := by
    intro hmem
    obtain rfl := List.mem_singleton.mp hmem
    cases hd
  have hfind : findText ['s'] ([d] ++ (['s'] ++ l)) = some (0 + 1) :=
    findText_found (w := []) hne
  unfold convertSeconds
  dsimp only
  rw [hfind]
  exact if_pos (isNumber_digit hd)

end Stages

section Intervals

open Ahorn.Interval (separator)

variable {V : ℕ}

theorem readsAs_text (c : Component) : ReadsAs c.text c.number.leading := by
  have h := c.readsAs (t := []) (by simp)
  rwa [List.append_nil] at h

theorem computes_behind (separated : Bool) (i : Interval [.ms]) :
    Computes (fromMilliseconds (separator separated ++ i.text, (V : ℤ)))
      (if separated then none else some (V + i.readMilliseconds)) := by
  cases i with
  | more n sep rest => cases rest
  | last c sep h =>
    have htext : (@Interval.last .ms [] c sep h).text =
        c.text ++ (['m', 's'] ++ separator sep) := List.append_assoc _ _ _
    have hm : 'm' ∉ c.text := c.letter_notMem (by decide)
    rw [htext]
    cases separated with
    | false =>
      exact computes_milliseconds (findText_found (w := ['s']) hm) (readsAs_text c)
    | true =>
      have hm' : 'm' ∉ '_' :: c.text := List.not_mem_cons_of_ne_of_not_mem (by decide) hm
      exact computes_milliseconds_separator (Nat.succ_ne_zero _)
        (findText_found (w := ['s']) (l := separator sep) hm')

theorem length_text_of_not_isDigit {c : Component} (h : ¬ c.IsDigit) : 2 ≤ c.text.length := by
  obtain ⟨d, ds, hd, -⟩ := c.number.exists_cons
  unfold Component.text
  rw [hd, List.length_append, List.length_cons]
  cases hfraction : c.fraction with
  | some f =>
    simp only [Option.elim_some, List.length_cons]
    omega
  | none =>
    have hne : ds ≠ [] := by
      rintro rfl
      exact h ⟨by rw [hd]; rfl, hfraction⟩
    have := List.length_pos_iff.mpr hne
    omega

theorem text_of_isDigit {c : Component} (h : c.IsDigit) :
    ∃ d : Char, d.isDigit = true ∧ c.text = [d] := by
  obtain ⟨hlength, hfraction⟩ := h
  obtain ⟨d, ds, hd, hdigit⟩ := c.number.exists_cons
  rw [hd, List.length_cons] at hlength
  have hds : ds = [] := List.length_eq_zero_iff.mp (by omega)
  refine ⟨d, hdigit, ?_⟩
  unfold Component.text
  rw [hd, hfraction, hds]
  rfl

theorem letter_notMem_append {x : Char} {cs ds : List Char} (h : x ∉ cs) (h' : x ∉ ds) :
    x ∉ cs ++ ds := by
  rw [List.mem_append]
  exact not_or.mpr ⟨h, h'⟩

theorem text_number (n : UnsignedInteger) : Component.text ⟨n, none⟩ = n.text :=
  List.append_nil _

theorem computes_digit {c : Component} (hc : c.IsDigit) {l : List Char} {n : Option ℕ}
    (hle : ∀ j, n = some j → V + c.number.leading * 1000 ≤ j)
    (hl : ((V + c.number.leading * 1000 : ℕ) : ℤ) ≤ intMax →
      Computes (fromMilliseconds (l, ((V + c.number.leading * 1000 : ℕ) : ℤ))) n) :
    Computes (fromSeconds (c.text ++ (['s'] ++ l), (V : ℤ))) n := by
  obtain ⟨d, hd, htext⟩ := text_of_isDigit hc
  have hread := readsAs_text c
  rw [htext] at hread ⊢
  unfold fromSeconds
  rw [convertSeconds_digit hd]
  exact computes_convert (q := ['s']) (f := 1000) (by decide) hread hle hl

theorem computes_seconds (hV : (V : ℤ) ≤ intMax) (i : Interval [.s, .ms]) :
    Computes (fromSeconds (i.text, (V : ℤ))) (i.readSeconds.map (V + ·)) := by
  cases i with
  | last c separated h =>
    have htext : (@Interval.last .s [.ms] c separated h).text =
        c.text ++ (['s'] ++ separator separated) := List.append_assoc _ _ _
    have hm : 'm' ∉ separator separated := Interval.letter_notMem_separator (by decide)
    rw [htext, Interval.readSeconds]
    by_cases hdigit : c.IsDigit
    · rw [if_pos hdigit]
      refine computes_digit hdigit ?_ fun hV' => ?_
      · rintro j ⟨⟩
        exact le_rfl
      · exact computes_milliseconds_none hV' (findText_eq_none hm)
    · have hm' : 'm' ∉ c.text ++ (['s'] ++ separator separated) :=
        letter_notMem_append (c.letter_notMem (by decide)) (letter_notMem_append (by decide) hm)
      rw [if_neg hdigit]
      unfold fromSeconds
      rw [convertSeconds_skip (c.letter_notMem (by decide)) (length_text_of_not_isDigit hdigit)]
      exact computes_milliseconds_none hV (findText_eq_none hm')
  | more n separated rest =>
    have htext : (Interval.more (u := .s) n separated rest).text =
        n.text ++ (['s'] ++ (separator separated ++ rest.text)) := by
      simp only [Interval.text, TimeUnit.letters, List.append_assoc]
    rw [htext, Interval.readSeconds]
    by_cases hdigit : Component.IsDigit ⟨n, none⟩
    · rw [if_pos hdigit, ← text_number n]
      refine computes_digit hdigit ?_ fun hV' => ?_
      · intro j hj
        cases separated with
        | true => cases hj
        | false =>
          cases hj
          change V + n.leading * 1000 ≤ V + (n.leading * 1000 + _)
          omega
      · have hrest := computes_behind (V := V + n.leading * 1000) separated rest
        cases separated with
        | true => exact hrest
        | false =>
          change Computes _ (some (V + (n.leading * 1000 + rest.readMilliseconds)))
          rw [← Nat.add_assoc]
          exact hrest
    · cases rest with
      | more _ _ nothing => cases nothing
      | last c sep hc =>
        have hlength := length_text_of_not_isDigit hdigit
        rw [text_number] at hlength
        have htext' : n.text ++ (['s'] ++ (separator separated ++
            (@Interval.last .ms [] c sep hc).text)) =
            (n.text ++ (['s'] ++ (separator separated ++ c.text))) ++
              (['m', 's'] ++ separator sep) := by
          simp only [Interval.text, TimeUnit.letters, List.append_assoc]
        have hm : 'm' ∉ n.text ++ (['s'] ++ (separator separated ++ c.text)) :=
          letter_notMem_append (n.letter_notMem (by decide)) (letter_notMem_append (by decide)
            (letter_notMem_append (Interval.letter_notMem_separator (by decide))
              (c.letter_notMem (by decide))))
        rw [if_neg hdigit]
        unfold fromSeconds
        rw [convertSeconds_skip (n.letter_notMem (by decide)) hlength, htext']
        exact computes_milliseconds (findText_found (w := ['s']) hm)
          (n.readsAs fun x hx => by obtain rfl := Option.some.inj hx; rfl)

theorem computes_seconds_none {cs : List Char} (hV : (V : ℤ) ≤ intMax) (h : 's' ∉ cs) :
    Computes (fromSeconds (cs, (V : ℤ))) (some V) := by
  unfold fromSeconds
  rw [convertSeconds_none h]
  exact computes_milliseconds_none hV (findText_eq_none_of_notMem (by decide) h)

theorem findText_minutes {pre l : List Char} (hm : 'm' ∉ pre) (hl : ∀ x ∈ l.head?, x ≠ 's') :
    findText ['m', 's'] (pre ++ ('m' :: l)) =
      (findText ['m', 's'] l).map (· + (pre.length + 1)) := by
  rw [findText_append_of_notMem hm]
  cases l with
  | nil => rfl
  | cons x l =>
    rw [findText_skip (hl x rfl), Option.map_map]
    congr 1
    funext k
    simp only [Function.comp_apply]
    omega

theorem head_ne (separated : Bool) (c : Component) (l : List Char) :
    ∀ x ∈ (separator separated ++ (c.text ++ l)).head?, x ≠ 's' := by
  obtain ⟨d, ds, hd, hdigit⟩ := c.number.exists_cons
  cases separated with
  | true =>
    rintro x ⟨⟩
    decide
  | false =>
    unfold Component.text
    rw [hd]
    rintro x ⟨⟩ rfl
    cases hdigit

def minutesText (separated : Bool) (n : UnsignedInteger) (separated' : Bool) (cs : List Char) :
    List Char :=
  (separator separated ++ n.text) ++ ('m' :: (separator separated' ++ cs))

theorem letter_notMem_minutesText {x : Char} (hx : IsLetter x) (hm : x ≠ 'm')
    {separated separated' : Bool} {n : UnsignedInteger} {cs : List Char} (hcs : x ∉ cs) :
    x ∉ minutesText separated n separated' cs :=
  letter_notMem_append
    (letter_notMem_append (Interval.letter_notMem_separator hx) (n.letter_notMem hx))
    (List.not_mem_cons_of_ne_of_not_mem hm
      (letter_notMem_append (Interval.letter_notMem_separator hx) hcs))

theorem length_minutesText (separated separated' : Bool) (n : UnsignedInteger) (cs : List Char) :
    2 ≤ (minutesText separated n separated' cs).length := by
  obtain ⟨d, ds, hd, -⟩ := n.exists_cons
  unfold minutesText
  rw [hd]
  simp only [List.length_append, List.length_cons]
  omega

theorem findText_minutesText {separated separated' : Bool} {n n' : UnsignedInteger}
    {cs l : List Char} (hm : 'm' ∉ cs) :
    findText ['m', 's'] (minutesText separated n separated' (n'.text ++ cs) ++ (['m', 's'] ++ l)) =
      some (minutesText separated n separated' (n'.text ++ cs)).length := by
  have happend : minutesText separated n separated' (n'.text ++ cs) ++ (['m', 's'] ++ l) =
      (separator separated ++ n.text) ++
        ('m' :: ((separator separated' ++ (n'.text ++ cs)) ++ (['m', 's'] ++ l))) := by
    simp only [minutesText, List.append_assoc, List.cons_append]
  have hhead := head_ne separated' ⟨n', none⟩ (cs ++ (['m', 's'] ++ l))
  rw [text_number, ← List.append_assoc n'.text, ← List.append_assoc] at hhead
  have hfront : 'm' ∉ separator separated ++ n.text :=
    letter_notMem_append (Interval.letter_notMem_separator (by decide))
      (n.letter_notMem (by decide))
  have hbehind : 'm' ∉ separator separated' ++ (n'.text ++ cs) :=
    letter_notMem_append (Interval.letter_notMem_separator (by decide))
      (letter_notMem_append (n'.letter_notMem (by decide)) hm)
  have hfound : findText ['m', 's'] ((separator separated' ++ (n'.text ++ cs)) ++ (['m', 's'] ++ l)) =
      some (separator separated' ++ (n'.text ++ cs)).length :=
    findText_found (w := ['s']) hbehind
  rw [happend, findText_minutes hfront hhead, hfound, Option.map_some]
  unfold minutesText
  congr 1
  simp only [List.length_append, List.length_cons]
  omega

theorem computes_minutes (hV : (V : ℤ) ≤ intMax) (separated : Bool) (i : Interval [.m, .s, .ms]) :
    Computes (fromSeconds (separator separated ++ i.text, (V : ℤ)))
      ((i.readMinutes !separated).map (V + ·)) := by
  cases i with
  | last c sep h =>
    refine computes_seconds_none hV (letter_notMem_append (Interval.letter_notMem_separator
      (by decide)) ?_)
    exact letter_notMem_append (letter_notMem_append (c.letter_notMem (by decide)) (by decide))
      (Interval.letter_notMem_separator (by decide))
  | more n sep rest =>
    cases rest with
    | last c sep' h =>
      have htext : separator separated ++ (Interval.more (u := .m) n sep
          (@Interval.last .s [.ms] c sep' h)).text =
          minutesText separated n sep c.text ++ (['s'] ++ separator sep') := by
        simp only [Interval.text, TimeUnit.letters, minutesText, List.append_assoc,
          List.cons_append, List.nil_append]
      have hs : 's' ∉ minutesText separated n sep c.text :=
        letter_notMem_minutesText (by decide) (by decide) (c.letter_notMem (by decide))
      have hfind : findText ['m', 's']
          (minutesText separated n sep c.text ++ (['s'] ++ separator sep')) = none := by
        have hm : 'm' ∉ separator sep ++ (c.text ++ (['s'] ++ separator sep')) :=
          letter_notMem_append (Interval.letter_notMem_separator (by decide))
            (letter_notMem_append (c.letter_notMem (by decide)) (letter_notMem_append (by decide)
              (Interval.letter_notMem_separator (by decide))))
        have happend : minutesText separated n sep c.text ++ (['s'] ++ separator sep') =
            (separator separated ++ n.text) ++
              ('m' :: (separator sep ++ (c.text ++ (['s'] ++ separator sep')))) := by
          simp only [minutesText, List.append_assoc, List.cons_append]
        rw [happend, findText_minutes (letter_notMem_append
          (Interval.letter_notMem_separator (by decide)) (n.letter_notMem (by decide)))
          (head_ne sep c _), findText_eq_none hm]
        rfl
      unfold fromSeconds
      rw [htext, convertSeconds_skip hs (length_minutesText _ _ _ _)]
      exact computes_milliseconds_none hV hfind
    | more n' sep' rest =>
      cases rest with
      | more _ _ nothing => cases nothing
      | last c sep'' h =>
        have htext : separator separated ++ (Interval.more (u := .m) n sep (.more (u := .s) n' sep'
            (@Interval.last .ms [] c sep'' h))).text =
            minutesText separated n sep n'.text ++
              (['s'] ++ (separator sep' ++ (c.text ++ (['m', 's'] ++ separator sep'')))) := by
          simp only [Interval.text, TimeUnit.letters, minutesText, List.append_assoc,
            List.cons_append, List.nil_append]
        have hs : 's' ∉ minutesText separated n sep n'.text :=
          letter_notMem_minutesText (by decide) (by decide) (n'.letter_notMem (by decide))
        -- what stands in front of the letters of the milliseconds
        have happend : minutesText separated n sep n'.text ++
            (['s'] ++ (separator sep' ++ (c.text ++ (['m', 's'] ++ separator sep'')))) =
            minutesText separated n sep (n'.text ++ (['s'] ++ (separator sep' ++ c.text))) ++
              (['m', 's'] ++ separator sep'') := by
          simp only [minutesText, List.append_assoc, List.cons_append]
        have hfind : findText ['m', 's']
            (minutesText separated n sep (n'.text ++ (['s'] ++ (separator sep' ++ c.text))) ++
              (['m', 's'] ++ separator sep'')) =
            some (minutesText separated n sep
              (n'.text ++ (['s'] ++ (separator sep' ++ c.text)))).length :=
          findText_minutesText (letter_notMem_append (by decide) (letter_notMem_append
            (Interval.letter_notMem_separator (by decide)) (c.letter_notMem (by decide))))
        unfold fromSeconds
        rw [htext, convertSeconds_skip hs (length_minutesText _ _ _ _), happend]
        cases separated with
        | false =>
          refine computes_milliseconds hfind ?_
          exact n.readsAs (t := 'm' :: _) fun x hx => by obtain rfl := Option.some.inj hx; rfl
        | true => exact computes_milliseconds_separator (Nat.succ_ne_zero _) hfind

theorem letter_notMem_front {letter : Char} (hletter : IsLetter letter) (separated : Bool)
    (c : Component) : letter ∉ separator separated ++ c.text :=
  letter_notMem_append (Interval.letter_notMem_separator hletter) (c.letter_notMem hletter)

theorem computes_unit {letter : Char} (hletter : IsLetter letter) {f : ℕ} (hf : 0 < f)
    {b : Bool} {c : Component} {l : List Char} {k : State → Except String ℤ} {o : Option ℕ}
    (hk : ∀ V : ℕ, (V : ℤ) ≤ intMax → Computes (k (l, (V : ℤ))) (o.map (V + ·))) :
    Computes (convertUnit letter f (separator b ++ c.text ++ ([letter] ++ l), (V : ℤ)) >>= k)
      ((if b then none else o.map (c.number.leading * f + ·)).map (V + ·)) := by
  rw [convertUnit_found (letter_notMem_front hletter b c)]
  cases b with
  | true =>
    change Computes (convert (_ :: c.text).length _ f ('_' :: _, (V : ℤ)) >>= k) none
    rw [convert_separator _ ('_' :: c.text).length _ (Nat.succ_ne_zero _)]
    exact .error _
  | false =>
    change Computes (convert c.text.length _ f (c.text ++ _, (V : ℤ)) >>= k)
      ((o.map (c.number.leading * f + ·)).map (V + ·))
    have hmap : (o.map (c.number.leading * f + ·)).map (V + ·) =
        o.map (V + c.number.leading * f + ·) := by
      rw [Option.map_map]
      congr 1
      funext j
      exact (Nat.add_assoc _ _ _).symm
    rw [hmap]
    refine computes_convert hf (readsAs_text c) ?_ fun hV => hk _ hV
    intro j hj
    obtain ⟨i, -, rfl⟩ := Option.map_eq_some_iff.mp hj
    exact Nat.le_add_right _ _

theorem computes_hours (separated : Bool) (i : Interval [.h, .m, .s, .ms]) :
    Computes (fromHours (separator separated ++ i.text, (V : ℤ)))
      ((i.readHours !separated).map (V + ·)) := by
  have hrest : ∀ s : State, fromHours s = convertUnit 'h' (3600000 : ℕ) s >>= fromSeconds :=
    fromHours_eq
  rw [hrest]
  cases i with
  | last c sep h =>
    have htext : separator separated ++ (@Interval.last .h [.m, .s, .ms] c sep h).text
        = separator separated ++ c.text ++ (['h'] ++ separator sep) := by
      simp only [Interval.text, TimeUnit.letters, List.append_assoc]
    have hread : (@Interval.last .h [.m, .s, .ms] c sep h).readHours (!separated) =
        if separated then none else (some 0).map (c.number.leading * 3600000 + ·) := by
      rw [Interval.readHours]
      cases separated <;> simp
    rw [htext, hread]
    refine computes_unit (by decide) (by decide) fun V hV => ?_
    exact computes_seconds_none hV (Interval.letter_notMem_separator (by decide))
  | more n sep rest =>
    have htext : separator separated ++ (Interval.more (u := .h) n sep rest).text =
        separator separated ++ Component.text ⟨n, none⟩ ++
          (['h'] ++ (separator sep ++ rest.text)) := by
      simp only [Interval.text, TimeUnit.letters, List.append_assoc, text_number]
    have hread : (Interval.more (u := .h) n sep rest).readHours (!separated) =
        if separated then none
        else (rest.readMinutes !sep).map (n.leading * 3600000 + ·) := by
      rw [Interval.readHours]
      cases separated <;> simp
    rw [htext, hread]
    exact computes_unit (c := ⟨n, none⟩) (by decide) (by decide)
      fun V hV => computes_minutes hV sep rest

theorem computes_days (i : Interval [.d, .h, .m, .s, .ms]) :
    Computes (visitTimeLiteral i.text) i.readDays := by
  have hzero : ∀ o : Option ℕ, o = o.map (0 + ·) := by
    intro o
    cases o with
    | none => rfl
    | some k => rw [Option.map_some, Nat.zero_add]
  have hvisit : visitTimeLiteral i.text =
      convertUnit 'd' (86400000 : ℕ) (i.text, ((0 : ℕ) : ℤ)) >>= fromHours := rfl
  rw [hvisit, hzero i.readDays]
  cases i with
  | last c sep h =>
    have htext : (@Interval.last .d [.h, .m, .s, .ms] c sep h).text =
        separator false ++ c.text ++ (['d'] ++ separator sep) := by
      simp only [Interval.text, TimeUnit.letters, separator, List.append_assoc, List.nil_append,
        Bool.false_eq_true, if_false]
    have hread : (@Interval.last .d [.h, .m, .s, .ms] c sep h).readDays =
        (some 0).map (c.number.leading * 86400000 + ·) := by
      rw [Interval.readDays]
      simp
    have hh : 'h' ∉ separator sep := Interval.letter_notMem_separator (by decide)
    rw [htext, hread]
    refine computes_unit (V := 0) (b := false) (o := some 0) (by decide) (by decide)
      fun V hV => ?_
    rw [fromHours_eq, convertHours, convertUnit_none hh]
    exact computes_seconds_none hV (Interval.letter_notMem_separator (by decide))
  | more n sep rest =>
    have htext : (Interval.more (u := .d) n sep rest).text =
        separator false ++ Component.text ⟨n, none⟩ ++
          (['d'] ++ (separator sep ++ rest.text)) := by
      simp only [Interval.text, TimeUnit.letters, separator, List.append_assoc, List.nil_append,
        Bool.false_eq_true, if_false, text_number]
    rw [htext, Interval.readDays]
    exact computes_unit (V := 0) (b := false) (c := ⟨n, none⟩) (by decide) (by decide)
      fun V hV => computes_hours sep rest

end Intervals

end TimeLiteral

open TimeLiteral in
/-- What is read of the units of an interval is what the conversion computes of its text. -/
theorem IntervalToken.computes (t : IntervalToken) : Computes (visitTimeLiteral t.text) t.read := by
  have hzero : ∀ o : Option ℕ, o = o.map (0 + ·) := by
    intro o
    cases o with
    | none => rfl
    | some k => rw [Option.map_some, Nat.zero_add]
  have hskip : ∀ {cs : List Char}, 'd' ∉ cs → 'h' ∉ cs →
      visitTimeLiteral cs = fromSeconds (cs, ((0 : ℕ) : ℤ)) := by
    intro cs hd hh
    rw [visitTimeLiteral_eq, convertDays, convertUnit_none hd]
    change fromHours (cs, 0) = _
    rw [fromHours_eq, convertHours, convertUnit_none hh]
    rfl
  have hle : ((0 : ℕ) : ℤ) ≤ intMax := by decide
  rw [hzero t.read]
  cases t with
  | days i =>
    rw [← hzero]
    exact computes_days i
  | hours i =>
    have hd : 'd' ∉ i.text := i.letter_notMem (by decide) (by decide)
    have hvisit : visitTimeLiteral i.text = fromHours (i.text, ((0 : ℕ) : ℤ)) := by
      rw [visitTimeLiteral_eq, convertDays, convertUnit_none hd]
      rfl
    change Computes (visitTimeLiteral i.text) _
    rw [hvisit]
    exact computes_hours false i
  | minutes i =>
    change Computes (visitTimeLiteral i.text) _
    rw [hskip (i.letter_notMem (by decide) (by decide)) (i.letter_notMem (by decide) (by decide))]
    exact computes_minutes hle false i
  | seconds i =>
    change Computes (visitTimeLiteral i.text) _
    rw [hskip (i.letter_notMem (by decide) (by decide)) (i.letter_notMem (by decide) (by decide))]
    exact computes_seconds hle i
  | milliseconds i =>
    change Computes (visitTimeLiteral i.text) _
    rw [hskip (i.letter_notMem (by decide) (by decide)) (i.letter_notMem (by decide) (by decide))]
    have hbehind := computes_behind (V := 0) false i
    cases i with
    | more _ _ nothing => cases nothing
    | last c separated h =>
      have htext : (@Interval.last .ms [] c separated h).text =
          (c.text ++ ['m']) ++ (['s'] ++ Interval.separator separated) := by
        simp only [Interval.text, TimeUnit.letters, List.append_assoc, List.cons_append,
          List.nil_append]
      have hs : 's' ∉ c.text ++ ['m'] :=
        letter_notMem_append (c.letter_notMem (by decide)) (by decide)
      have hlength : 2 ≤ (c.text ++ ['m']).length := by
        obtain ⟨d, ds, hd, -⟩ := c.number.exists_cons
        unfold Component.text
        rw [hd]
        simp only [List.length_append, List.length_cons]
        omega
      unfold fromSeconds
      rw [htext, convertSeconds_skip hs hlength, ← htext]
      exact hbehind

/-- A time literal. -/
structure TimeLiteral where
  negative : Bool
  interval : IntervalToken

namespace TimeLiteral

def value (t : TimeLiteral) : ℚ := if t.negative then -t.interval.value else t.interval.value

theorem interval_value_nonneg (t : IntervalToken) : 0 ≤ t.value := by
  cases t <;> exact Interval.value_nonneg _

/-- A literal whose value is an integer that fits is converted to it exactly if there is no negative
sign, or nothing to negate, and the conversion keeps everything of the interval. -/
theorem visitTimeLiteral_eq_iff (t : TimeLiteral) (v : ℤ) (hv : (v : ℚ) = t.value)
    (hfits : FitsInt v) : visitTimeLiteral t.interval.text = .ok v ↔
      (t.negative = true → t.interval.value = 0) ∧ t.interval.Kept := by
  rw [t.interval.computes v, ← t.interval.read_eq_iff]
  have hnonneg := interval_value_nonneg t.interval
  unfold value at hv
  constructor
  · rintro ⟨k, hk, rfl, -⟩
    have hk0 : (0 : ℚ) ≤ ((k : ℤ) : ℚ) := by positivity
    split_ifs at hv with hsign
    · have hzero : t.interval.value = 0 := by linarith
      refine ⟨fun _ => hzero, k, hk, ?_⟩
      rw [hzero, neg_zero] at hv
      rw [hzero]
      exact_mod_cast hv
    · exact ⟨fun h => absurd h hsign, k, hk, by exact_mod_cast hv⟩
  · rintro ⟨hsign, k, hk, hvalue⟩
    have hvk : (v : ℚ) = t.interval.value := by
      split_ifs at hv with hnegative
      · rw [hv, hsign hnegative, neg_zero]
      · exact hv
    refine ⟨k, hk, ?_, hfits.2⟩
    rw [← hvalue] at hvk
    exact_mod_cast hvk

/-- `T#2d3h` -/
def daysAndHours : TimeLiteral :=
  ⟨false, .days (.more ⟨['2'], rfl⟩ false (.last ⟨⟨['3'], rfl⟩, none⟩ false (Or.inl rfl)))⟩

theorem visitTimeLiteral_daysAndHours :
    visitTimeLiteral daysAndHours.interval.text = .ok 183600000 ↔
      (daysAndHours.negative = true → daysAndHours.interval.value = 0) ∧
        daysAndHours.interval.Kept := by
  apply visitTimeLiteral_eq_iff
  · have htwo : UnsignedInteger.value ⟨['2'], rfl⟩ = 2 := by decide
    have hthree : UnsignedInteger.value ⟨['3'], rfl⟩ = 3 := by decide
    change ((183600000 : ℤ) : ℚ) = (UnsignedInteger.value ⟨['2'], rfl⟩ : ℚ) * ((86400000 : ℕ) : ℚ) +
      ((UnsignedInteger.value ⟨['3'], rfl⟩ : ℚ) + 0) * ((3600000 : ℕ) : ℚ)
    rw [htwo, hthree]
    norm_num
  · decide

/-- `T#10s` -/
def tenSeconds : TimeLiteral :=
  ⟨false, .seconds (.last ⟨⟨['1', '0'], rfl⟩, none⟩ false (Or.inl rfl))⟩

/-- Ten seconds are lost. -/
theorem tenSeconds_lost : ¬ ∀ (t : TimeLiteral) (v : ℤ), (v : ℚ) = t.value → FitsInt v →
    visitTimeLiteral t.interval.text = .ok v := by
  intro h
  have hvalue : ((10000 : ℤ) : ℚ) = tenSeconds.value := by
    have hten : UnsignedInteger.value ⟨['1', '0'], rfl⟩ = 10 := by decide
    change ((10000 : ℤ) : ℚ) = ((UnsignedInteger.value ⟨['1', '0'], rfl⟩ : ℚ) + 0) * ((1000 : ℕ) : ℚ)
    rw [hten]
    norm_num
  have hread := h tenSeconds 10000 hvalue (by decide)
  revert hread
  decide

end TimeLiteral

end Ahorn
