import ThemeColor.Proofs.ExactValue
import ThemeColor.Proofs.LongestNumber
import ThemeColor.Proofs.WrittenText

/-!
# Trimmed number text

Between `10 ^ -4` and `10 ^ 15` a double is written with five decimals, from which the trailing
zeros, a trailing point and the sign of a zero are removed. A text denotes the number that
`Numeral.scan` reads from it. Trimming does not change that number: it stops at the point, so it
never takes a zero of the whole part, and what it takes behind the point only counts in smaller
units. So the short text stands for the rounded double, and two doubles have one text exactly if
they are rounded to one number.

## Main definitions

* `Numeral.Denotes`: the number of a text, which is the `Numeral.value` of what is read from it;
* `Number.IsTrimmed`: a decimal text in which nothing is left to remove.

## Main results

* `Numeral.denotes_signed`: what a plain decimal text denotes;
* `Number.trimFixed_signed`: trimming removes the zeros at the end of the fraction;
* `Number.denotes_trimFixed`, `Number.trimFixed_eq_iff`: trimming keeps the number, and equal
  numbers get equal texts;
* `Number.compact_denotes_rounded`: the text of a double of ordinary size.
-/

namespace ThemeColor

/-! ## The number of a text -/

namespace Numeral

open Number (signed signFactor)

/-- The text is a numeral from its first to its last character, and stands for the number. -/
def Denotes (text : List Char) (x : ℚ) : Prop :=
  startsWith text ∧ (scan text).2 = [] ∧ (scan text).1.value = x

/-- A text `Denotes` only one number. -/
theorem Denotes.unique {text : List Char} {x y : ℚ} (hx : Denotes text x) (hy : Denotes text y) :
    x = y :=
  hx.2.2.symm.trans hy.2.2

section Plain

variable {whole fraction : List Char}

/-- The sign of a `signed` text is read in front of its digits. -/
theorem scan_signed_sign (negative : Bool) (hwhole : IsDigits whole) (rest : List Char) :
    Sign.scan (signed negative (whole ++ rest)) =
      (if negative then some .minus else none, whole ++ rest) := by
  cases negative with
  | true => rfl
  | false =>
    obtain ⟨d, ds, rfl⟩ := List.exists_cons_of_ne_nil hwhole.1
    have hd := hwhole.ofChar?_head rest d rfl
    show Sign.scan (d :: (ds ++ rest)) = (none, d :: (ds ++ rest))
    rw [Sign.scan, hd]

/-- Digits behind a point, the `fractionText`, are read to the end of the text. -/
theorem scanFraction_fractionText (hfraction : ∀ c ∈ fraction, isDigit c) :
    scanFraction (fractionText fraction) = (fraction, []) := by
  cases fraction with
  | nil => rfl
  | cons d ds =>
    have htake : (d :: ds).takeWhile isDigit = d :: ds := List.takeWhile_eq_self_iff.mpr hfraction
    have hdrop : (d :: ds).dropWhile isDigit = [] := List.dropWhile_eq_nil_iff.mpr hfraction
    simp only [fractionText, scanFraction, htake, hdrop]

/-- A `signed` text without a power of ten is read by `scan` to its end. -/
theorem scan_signed (negative : Bool) (hwhole : IsDigits whole)
    (hfraction : ∀ c ∈ fraction, isDigit c) :
    scan (signed negative (whole ++ fractionText fraction)) =
      (⟨if negative then some .minus else none, whole, fraction, none⟩, []) := by
  have hstop : (fractionText fraction).takeWhile isDigit = [] ∧
      (fractionText fraction).dropWhile isDigit = fractionText fraction := by
    cases fraction with
    | nil => exact ⟨rfl, rfl⟩
    | cons d ds => exact ⟨rfl, rfl⟩
  have htake : (whole ++ fractionText fraction).takeWhile isDigit = whole := by
    rw [List.takeWhile_append_of_pos hwhole.2, hstop.1, List.append_nil]
  have hdrop : (whole ++ fractionText fraction).dropWhile isDigit = fractionText fraction := by
    rw [List.dropWhile_append_of_pos hwhole.2, hstop.2]
  simp only [scan, scan_signed_sign negative hwhole, htake, hdrop,
    scanFraction_fractionText hfraction, scanPower]

/-- A `signed` text without a power of ten denotes the number of its digits, divided by a power of
ten for those behind the point. -/
theorem denotes_signed (negative : Bool) (hwhole : IsDigits whole)
    (hfraction : ∀ c ∈ fraction, isDigit c) :
    Denotes (signed negative (whole ++ fractionText fraction))
      (signFactor negative * (digitsValue (whole ++ fraction) / 10 ^ fraction.length)) := by
  have hscan := scan_signed negative hwhole hfraction
  refine ⟨?_, by rw [hscan], ?_⟩
  · obtain ⟨d, ds, rfl⟩ := List.exists_cons_of_ne_nil hwhole.1
    have hd : isDigit d := hwhole.2 d List.mem_cons_self
    have hpoint : d ≠ '.' := by
      rintro rfl
      cases hd
    rw [startsWith, scan_signed_sign negative hwhole, List.cons_append, startsUnsigned]
    · exact hd
    · rintro rest hrest
      exact hpoint (List.cons.inj hrest).1
  · have hsign : decide ((if negative then some Sign.minus else none) = some .minus) =
        negative := by
      cases negative <;> rfl
    rw [hscan]
    simp only [value, hsign, coefficient, exponent, zero_sub, zpow_neg, zpow_natCast]
    rw [div_eq_mul_inv]

end Plain

/-! ## The number of a list of digits -/

theorem digitsValue_append_zeros (digits : List Char) (n : Nat) :
    digitsValue (digits ++ List.replicate n '0') = 10 ^ n * digitsValue digits :=
  (Nat.ofDigitChars_append 0).trans Nat.ofDigitChars_replicate_zero

theorem digitsValue_append (a b : List Char) :
    digitsValue (a ++ b) = 10 ^ b.length * digitsValue a + digitsValue b :=
  (Nat.ofDigitChars_append 0).trans Nat.ofDigitChars_eq_ofDigitChars_zero

theorem digitsValue_toDigits (n : Nat) : digitsValue (Nat.toDigits 10 n) = n :=
  Nat.ofDigitChars_ten_toDigits

/-- Zeros at the end of a fraction multiply the digits and their unit by the same power of ten. -/
theorem digitsValue_div_zeros (whole kept : List Char) (n : Nat) :
    (digitsValue (whole ++ (kept ++ List.replicate n '0')) : ℚ) /
        10 ^ (kept ++ List.replicate n '0').length =
      digitsValue (whole ++ kept) / 10 ^ kept.length := by
  rw [← List.append_assoc, digitsValue_append_zeros, List.length_append, List.length_replicate,
    pow_add, mul_comm (10 ^ kept.length)]
  push_cast
  exact mul_div_mul_left _ _ (pow_ne_zero n (by norm_num))

theorem isDigits_toDigits (n : Nat) : IsDigits (Nat.toDigits 10 n) :=
  ⟨Nat.toDigits_ne_nil, fun _ hc => Nat.isDigit_of_mem_toDigits (by decide) (by decide) hc⟩

/-- Zero can be `signed`. -/
theorem denotes_zero (negative : Bool) : Denotes (signed negative ['0']) 0 := by
  simpa [digitsValue, fractionText] using
    denotes_signed negative (isDigits_toDigits 0) (List.forall_mem_nil _)

end Numeral

namespace Number

open Numeral

/-! ## The text with all decimals -/

/-- The digits behind the point in `fixedText`. -/
def fixedFraction (places n : Nat) : List Char :=
  let digits := Nat.toDigits 10 (n % 10 ^ places)
  List.replicate (places - digits.length) '0' ++ digits

theorem fixedText_eq (places n : Nat) :
    fixedText places n = Nat.toDigits 10 (n / 10 ^ places) ++ '.' :: fixedFraction places n := rfl

theorem isDigit_fixedFraction (places n : Nat) : ∀ c ∈ fixedFraction places n, isDigit c := by
  intro c hc
  rcases List.mem_append.mp hc with hzero | hdigit
  · rw [List.eq_of_mem_replicate hzero]
    rfl
  · exact (isDigits_toDigits _).2 c hdigit

/-- The `fixedFraction` has as many digits as there are places. -/
theorem length_fixedFraction {places : Nat} (hplaces : 0 < places) (n : Nat) :
    (fixedFraction places n).length = places := by
  have hlength : (Nat.toDigits 10 (n % 10 ^ places)).length ≤ places := by
    rw [Nat.length_toDigits_le_iff (by decide) hplaces]
    exact Nat.mod_lt n (Nat.pow_pos (by decide))
  simp only [fixedFraction, List.length_append, List.length_replicate]
  omega

/-- All digits together, with those of the `fixedFraction`, are those of the count. -/
theorem digitsValue_fixed {places : Nat} (hplaces : 0 < places) (n : Nat) :
    digitsValue (Nat.toDigits 10 (n / 10 ^ places) ++ fixedFraction places n) = n := by
  have hfraction : digitsValue (fixedFraction places n) = n % 10 ^ places := by
    have hzeros := digitsValue_append_zeros [] (places - (Nat.toDigits 10 (n % 10 ^ places)).length)
    rw [List.nil_append] at hzeros
    rw [fixedFraction, digitsValue_append, hzeros, digitsValue_toDigits]
    simp [digitsValue]
  rw [digitsValue_append, hfraction, length_fixedFraction hplaces, digitsValue_toDigits]
  exact Nat.div_add_mod n _

/-! ## Trimming -/

/-- A decimal text without a power of ten in which nothing is left to remove: there is no zero at
the end of the fraction, no point without a fraction, no zero in front of another digit, and no sign
of a zero. -/
def IsTrimmed (text : List Char) : Prop :=
  ∃ (negative : Bool) (whole : Nat) (fraction : List Char),
    text = signed negative (Nat.toDigits 10 whole ++ fractionText fraction) ∧
      (∀ c ∈ fraction, isDigit c) ∧ fraction.getLast? ≠ some '0' ∧ text ≠ ['-', '0']

section Trimming

variable {whole fraction : List Char}

/-- What is kept of a fraction, and the zeros that are not. -/
theorem exists_rdropWhile_append (fraction : List Char) :
    ∃ n, fraction = fraction.rdropWhile (· == '0') ++ List.replicate n '0' := by
  have hzeros : fraction.reverse.takeWhile (· == '0') =
      List.replicate (fraction.reverse.takeWhile (· == '0')).length '0' :=
    List.eq_replicate_iff.mpr ⟨rfl, fun c hc => by simpa using List.mem_takeWhile_imp hc⟩
  have hsplit := List.takeWhile_append_dropWhile (p := (· == '0')) (l := fraction.reverse)
  rw [hzeros, ← List.reverse_inj, List.reverse_append, List.reverse_replicate,
    List.reverse_reverse] at hsplit
  exact ⟨_, hsplit.symm⟩

theorem isDigit_rdropWhile (hfraction : ∀ c ∈ fraction, isDigit c) :
    ∀ c ∈ fraction.rdropWhile (· == '0'), isDigit c := fun c hc =>
  hfraction c ((List.rdropWhile_prefix _ _).subset hc)

/-- A point is removed if there are no digits behind it. -/
theorem dropLast_point (front : List Char) (hfraction : ∀ c ∈ fraction, isDigit c) :
    (if (front ++ '.' :: fraction).getLast? = some '.' then (front ++ '.' :: fraction).dropLast
      else front ++ '.' :: fraction) = front ++ fractionText fraction := by
  cases fraction with
  | nil => rw [if_pos (by simp), List.dropLast_concat, fractionText, List.append_nil]
  | cons d ds =>
    rw [if_neg, fractionText]
    · simp
    · intro hlast
      have hmem : '.' ∈ d :: ds := by
        apply List.mem_of_getLast?
        simpa [List.getLast?_append, List.getLast?_cons] using hlast
      exact absurd (hfraction '.' hmem) (by decide)

/-- The function `trimFixed` removes the zeros at the end of the fraction, the point if nothing is
left of the fraction, and the sign if nothing but zero is left at all. -/
theorem trimFixed_signed (negative : Bool) (whole : List Char)
    (hfraction : ∀ c ∈ fraction, isDigit c) :
    trimFixed (signed negative (whole ++ '.' :: fraction)) =
      let kept := signed negative (whole ++ fractionText (fraction.rdropWhile (· == '0')))
      if kept = ['-', '0'] then ['0'] else kept := by
  unfold trimFixed
  dsimp only
  rw [signed_append, signed_append, reverse_dropWhile_point,
    ← dropLast_point _ (isDigit_rdropWhile hfraction)]
  rfl

/-- The function `trimFixed` keeps the number that a text denotes. -/
theorem denotes_trimFixed_signed (negative : Bool) (hwhole : IsDigits whole)
    (hfraction : ∀ c ∈ fraction, isDigit c) :
    Denotes (trimFixed (signed negative (whole ++ '.' :: fraction)))
      (signFactor negative * (digitsValue (whole ++ fraction) / 10 ^ fraction.length)) := by
  have hkept := denotes_signed negative hwhole (isDigit_rdropWhile hfraction)
  rw [trimFixed_signed negative whole hfraction]
  obtain ⟨n, hzeros⟩ := exists_rdropWhile_append fraction
  generalize fraction.rdropWhile (· == '0') = kept at hkept hzeros ⊢
  rw [hzeros, digitsValue_div_zeros]
  dsimp only
  split
  · -- Both texts of zero denote zero, so the sign can go.
    rename_i hzero
    rw [hzero] at hkept
    rw [hkept.unique (denotes_zero true)]
    exact denotes_zero false
  · exact hkept

end Trimming

section Fixed

variable (negative : Bool) (n : Nat)

/-- The text with all decimals denotes the count of `10 ^ -5`. -/
theorem denotes_fixedText : Denotes (signed negative (fixedText fixedPlaces n))
    (signFactor negative * (n / 10 ^ fixedPlaces)) := by
  have hlength : (fixedFraction fixedPlaces n).length = fixedPlaces :=
    length_fixedFraction (by decide) n
  have hpoint : fractionText (fixedFraction fixedPlaces n) =
      '.' :: fixedFraction fixedPlaces n := by
    cases hfraction : fixedFraction fixedPlaces n with
    | nil =>
      rw [hfraction] at hlength
      cases hlength
    | cons d ds => rfl
  have hdenotes := denotes_signed negative (isDigits_toDigits (n / 10 ^ fixedPlaces))
    (isDigit_fixedFraction fixedPlaces n)
  rwa [digitsValue_fixed (by decide), hlength, hpoint, ← fixedText_eq] at hdenotes

/-- The trimmed text denotes the count of `10 ^ -5` as well. -/
theorem denotes_trimFixed : Denotes (trimFixed (signed negative (fixedText fixedPlaces n)))
    (signFactor negative * (n / 10 ^ fixedPlaces)) := by
  have hdenotes := denotes_trimFixed_signed negative (isDigits_toDigits (n / 10 ^ fixedPlaces))
    (isDigit_fixedFraction fixedPlaces n)
  rwa [digitsValue_fixed (by decide), length_fixedFraction (by decide), ← fixedText_eq] at hdenotes

/-- What `trimFixed` leaves has no zeros to be trimmed: `IsTrimmed` holds of it. -/
theorem isTrimmed_trimFixed :
    IsTrimmed (trimFixed (signed negative (fixedText fixedPlaces n))) := by
  rw [fixedText_eq, trimFixed_signed negative _ (isDigit_fixedFraction fixedPlaces n)]
  dsimp only
  split
  · exact ⟨false, 0, [], rfl, List.forall_mem_nil _, by decide, by decide⟩
  · rename_i hzero
    refine ⟨negative, _, _, rfl, fun c hc => ?_, fun hlast => ?_, hzero⟩
    · exact isDigit_rdropWhile (isDigit_fixedFraction _ n) c hc
    · have hne : (fixedFraction fixedPlaces n).rdropWhile (· == '0') ≠ [] := by
        intro hnil
        rw [hnil] at hlast
        cases hlast
      refine List.rdropWhile_last_not _ _ hne ?_
      rw [(List.getLast_eq_iff_getLast?_eq_some hne).mpr hlast]
      rfl

end Fixed

/-- The number determines its count of `10 ^ -5`, and its sign if it is not zero. -/
theorem signFactor_mul_inj {a b : Bool} {m n : Nat}
    (h : signFactor a * (m / 10 ^ fixedPlaces) = signFactor b * (n / 10 ^ fixedPlaces)) :
    m = n ∧ (a = b ∨ m = 0) := by
  have hcount : signFactor a * m = signFactor b * n := by
    rw [← mul_div_assoc, ← mul_div_assoc] at h
    exact (div_left_inj' (by positivity)).mp h
  have hopposite (hsum : (m : ℚ) + n = 0) : m = 0 ∧ n = 0 := by
    have : m + n = 0 := by exact_mod_cast hsum
    omega
  cases a <;> cases b <;> simp only [signFactor, Bool.false_eq_true, if_true, if_false, one_mul,
    neg_mul, neg_inj, Nat.cast_inj] at hcount
  · exact ⟨hcount, .inl rfl⟩
  · obtain ⟨rfl, rfl⟩ := hopposite (by linarith)
    exact ⟨rfl, .inr rfl⟩
  · obtain ⟨rfl, rfl⟩ := hopposite (by linarith)
    exact ⟨rfl, .inr rfl⟩
  · exact ⟨hcount, .inl rfl⟩

/-- Texts that `trimFixed` leaves are equal exactly if their numbers are. -/
theorem trimFixed_eq_iff {a b : Bool} {m n : Nat} :
    trimFixed (signed a (fixedText fixedPlaces m)) =
        trimFixed (signed b (fixedText fixedPlaces n)) ↔
      signFactor a * (m / 10 ^ fixedPlaces) = signFactor b * (n / 10 ^ fixedPlaces) := by
  constructor
  · intro h
    have hdenotes := denotes_trimFixed a m
    rw [h] at hdenotes
    exact hdenotes.unique (denotes_trimFixed b n)
  · intro h
    obtain ⟨rfl, rfl | rfl⟩ := signFactor_mul_inj h
    · rfl
    · have hzero (negative : Bool) :
          trimFixed (signed negative (fixedText fixedPlaces 0)) = ['0'] := by
        cases negative <;> decide
      rw [hzero, hzero]

/-! ## Doubles -/

/-- A double of ordinary size is written by `compact` with five decimals and trimmed. -/
theorem compact_eq_trimFixed {x : Float} (hlow : 1e-4 ≤ x.abs) (hhigh : x.abs < 1e15) :
    compact x = String.ofList (trimFixed (fixed x)) := by
  unfold compact
  dsimp only
  rw [if_neg (abs_ne_zero_of_le hlow), if_pos ⟨hlow, hhigh⟩]

/-- The decimals of a double that `fixed` writes are those of its rounded value. -/
theorem exists_rounded {x y : Float} (h : x.abs < y) :
    ∃ negative n v, (Binary.ofFloat x).value? = some v ∧
      IsRounded v (signFactor negative * ((n : Nat) / 10 ^ fixedPlaces)) ∧
      fixed x = signed negative (fixedText fixedPlaces n) := by
  obtain ⟨negative, mantissa, exponent, hx⟩ := exists_finite_of_abs_lt h
  refine ⟨negative, fixedCount mantissa exponent, _, ?_, isRounded_fixedCount _ _ _, ?_⟩
  · rw [hx, Binary.value?]
  · rw [fixed, hx]

/-- **The text of a double denotes its rounded value.** Every double with a magnitude from `10 ^ -4`
on and below `10 ^ 15` stands for a number `v`, and its text is a decimal text in which nothing is
left to remove. The text denotes the number `r` that the text with five decimals denotes, which is
`v` rounded to five decimals. Any other double in this range has the same text exactly if it is
rounded to the same number. -/
theorem compact_denotes_rounded {x : Float} (hlow : 1e-4 ≤ x.abs) (hhigh : x.abs < 1e15) :
    ∃ v r : ℚ, (Binary.ofFloat x).value? = some v ∧ IsRounded v r ∧ |r - v| ≤ 5e-6 ∧
      IsTrimmed (compact x).toList ∧ Denotes (compact x).toList r ∧ Denotes (fixed x) r ∧
      ∀ (y : Float) (w s : ℚ), 1e-4 ≤ y.abs → y.abs < 1e15 →
        (Binary.ofFloat y).value? = some w → IsRounded w s → (compact x = compact y ↔ r = s) := by
  obtain ⟨negative, n, v, hvalue, hrounded, hfixed⟩ := exists_rounded hhigh
  have htext : compact x =
      String.ofList (trimFixed (signed negative (fixedText fixedPlaces n))) := by
    rw [compact_eq_trimFixed hlow hhigh, hfixed]
  refine ⟨v, _, hvalue, hrounded, hrounded.abs_sub_le, ?_, ?_, ?_, ?_⟩
  · rw [htext, String.toList_ofList]
    exact isTrimmed_trimFixed negative n
  · rw [htext, String.toList_ofList]
    exact denotes_trimFixed negative n
  · rw [hfixed]
    exact denotes_fixedText negative n
  · intro y w s hylow hyhigh hw hs
    obtain ⟨negative', n', w', hvalue', hrounded', hfixed'⟩ := exists_rounded hyhigh
    obtain rfl : w = w' := Option.some.inj (hw.symm.trans hvalue')
    obtain rfl := hs.unique hrounded'
    rw [htext, compact_eq_trimFixed hylow hyhigh, hfixed', String.ofList_inj, trimFixed_eq_iff]

/-- A double that is rounded to a multiple of ten keeps the zeros of its whole part. It has the text
of the double that stands for this multiple. -/
theorem compact_denotes_rounded_hundred :
    (1e-4 : Float) ≤ (-99.999996 : Float).abs ∧ (-99.999996 : Float).abs < 1e15 ∧
      ∃ v : ℚ, (Binary.ofFloat (-99.999996)).value? = some v ∧ IsRounded v (-100) ∧
        |-100 - v| ≤ 5e-6 ∧ IsTrimmed "-100".toList ∧ Denotes "-100".toList (-100) ∧
        Denotes "-100.00000".toList (-100) := by
  have hlow : (1e-4 : Float) ≤ (-99.999996 : Float).abs := by decide +kernel
  have hhigh : (-99.999996 : Float).abs < 1e15 := by decide +kernel
  have htext : compact (-99.999996) = "-100" := by decide +kernel
  have hfixed : fixed (-99.999996) = "-100.00000".toList := by decide +kernel
  have hother : compact (-100) = "-100" := by decide +kernel
  have hexact : (Binary.ofFloat (-100)).value? = some (-100) := by
    have hbits : Binary.ofFloat (-100) = .finite true 7036874417766400 (-46) := by decide +kernel
    rw [hbits, Binary.value?, signFactor]
    norm_num
  have hround : IsRounded (-100) (-100) := ⟨-10000000, by norm_num [fixedPlaces]⟩
  obtain ⟨v, r, hvalue, hrounded, hnear, htrimmed, hdenotes, hdecimals, hsame⟩ :=
    compact_denotes_rounded hlow hhigh
  obtain rfl : r = -100 := (hsame (-100) _ _ (by decide +kernel) (by decide +kernel) hexact
    hround).mp (htext.trans hother.symm)
  rw [htext] at htrimmed hdenotes
  rw [hfixed] at hdecimals
  exact ⟨hlow, hhigh, v, hvalue, hrounded, hnear, htrimmed, hdenotes, hdecimals⟩

end Number

end ThemeColor
