import ThemeColor.Proofs.LongestName
import ThemeColor.Proofs.NearestDouble
import ThemeColor.Proofs.Unescaping

/-!
# Numbers are read as far as they go

`Numeral.IsNumber` is the language of written numbers,

  `[+-]? (digits (. digits)? | . digits) ([eE] [+-]? digits)?`

with nonempty runs of digits. Whether a number starts is found out from at most three characters,
and the number is then put together from its parts, each of which looks ahead for itself. The result
is nevertheless the longest text of the language at that place: a part that is not taken could not
have been taken by any number.

## Main results

* `Numeral.isNumber_scan`: what is read is a number;
* `Numeral.isPrefix_scan`: every number at the same place is a front part of it;
* `Lexeme.numeral_longest`: the numbers among the tokens of a text.
-/

namespace ThemeColor

namespace Numeral

/-! ## Written numbers -/

/-- One digit or more. -/
def IsDigits (text : List Char) : Prop := text ≠ [] ∧ ∀ c ∈ text, isDigit c

/-- A sign, or nothing. -/
def IsSign (text : List Char) : Prop := text = [] ∨ text = ['+'] ∨ text = ['-']

/-- A point and digits, or nothing. -/
def IsFraction (text : List Char) : Prop :=
  text = [] ∨ ∃ digits, IsDigits digits ∧ text = '.' :: digits

/-- A mark, perhaps a sign, and digits; or nothing. -/
def IsPower (text : List Char) : Prop :=
  text = [] ∨ ∃ mark sign digits, (mark = 'e' ∨ mark = 'E') ∧ IsSign sign ∧ IsDigits digits ∧
    text = mark :: (sign ++ digits)

/-- A written number. -/
inductive IsNumber : List Char → Prop
  /-- Digits, perhaps with a fraction. -/
  | whole {sign digits fraction power : List Char} (hsign : IsSign sign) (hdigits : IsDigits digits)
      (hfraction : IsFraction fraction) (hpower : IsPower power) :
      IsNumber (sign ++ (digits ++ (fraction ++ power)))
  /-- A fraction without digits in front of the point. -/
  | point {sign digits power : List Char} (hsign : IsSign sign) (hdigits : IsDigits digits)
      (hpower : IsPower power) : IsNumber (sign ++ ('.' :: digits ++ power))

/-! ## What is read is a number -/

/-- The text of a sign that was read satisfies `IsSign`. -/
theorem isSign_text (sign : Option Sign) : IsSign (Sign.text sign) := by
  rcases sign with _ | _ | _
  · exact .inl rfl
  · exact .inr (.inl rfl)
  · exact .inr (.inr rfl)

/-- Digits at the front of a text, if there are any, satisfy `IsDigits`. -/
theorem isDigits_takeWhile {text : List Char} (h : text.takeWhile isDigit ≠ []) :
    IsDigits (text.takeWhile isDigit) :=
  ⟨h, fun _ hc => List.mem_takeWhile_imp hc⟩

/-- The text that `scanFraction` reads satisfies `IsFraction`. -/
theorem isFraction_scan (input : List Char) : IsFraction (fractionText (scanFraction input).1) := by
  unfold scanFraction
  split
  · rename_i rest
    cases h : rest.takeWhile isDigit with
    | nil => exact .inl rfl
    | cons d ds => exact .inr ⟨d :: ds, h ▸ isDigits_takeWhile (by simp [h]), rfl⟩
  · exact .inl rfl

/-- The text that `scanPower` reads satisfies `IsPower`. -/
theorem isPower_scan (input : List Char) : IsPower (powerText (scanPower input).1) := by
  cases input with
  | nil => exact .inl rfl
  | cons mark rest =>
    simp only [scanPower]
    split
    · rename_i hmark
      cases h : (Sign.scan rest).2.takeWhile isDigit with
      | nil => exact .inl rfl
      | cons d ds =>
        exact .inr ⟨mark, _, d :: ds, hmark, isSign_text _,
          h ▸ isDigits_takeWhile (by simp [h]), rfl⟩
    · exact .inl rfl

/-- The text that `scan` reads where a number starts satisfies `IsNumber`. -/
theorem isNumber_scan {input : List Char} (h : startsWith input) :
    IsNumber (scan input).1.text := by
  have hsign := isSign_text (Sign.scan input).1
  have hstart : startsUnsigned (Sign.scan input).2 := h
  simp only [scan, text]
  generalize (Sign.scan input).2 = rest at hstart ⊢
  have hpower := isPower_scan (scanFraction (rest.dropWhile isDigit)).2
  by_cases hwhole : rest.takeWhile isDigit = []
  · -- Without digits in front, the text starts with a point and digits behind it.
    unfold startsUnsigned at hstart
    split at hstart
    · rename_i after
      have hdrop : ('.' :: after).dropWhile isDigit = '.' :: after := by
        simp [show isDigit '.' = false by decide]
      rw [hdrop] at hpower ⊢
      rw [hwhole, List.nil_append]
      cases hdigits : after.takeWhile isDigit with
      | nil =>
        cases after with
        | nil => cases hstart
        | cons d ds =>
          simp only [startsWithDigit] at hstart
          simp [hstart] at hdigits
      | cons d ds =>
        have hdigit : IsDigits (d :: ds) := hdigits ▸ isDigits_takeWhile (by simp [hdigits])
        simp only [scanFraction, hdigits, fractionText] at hpower ⊢
        exact .point hsign hdigit hpower
    · cases rest with
      | nil => cases hstart
      | cons d ds =>
        simp only [startsWithDigit] at hstart
        simp [hstart] at hwhole
  · exact .whole hsign (isDigits_takeWhile hwhole) (isFraction_scan _) hpower

/-! ## No longer text is a number -/

/-- The text does not start with a digit. -/
def NoDigitNext (text : List Char) : Prop := ∀ c, text.head? = some c → isDigit c = false

/-- A run of digits and what is read behind it. If a number goes on behind its digits, the run ends
where they end. -/
theorem isPrefix_run (read : List Char → List Char) {digits tail rest : List Char}
    (hdigits : ∀ c ∈ digits, isDigit c) (hnext : NoDigitNext tail)
    (htail : tail <+: read (tail ++ rest)) :
    digits ++ tail <+: (digits ++ (tail ++ rest)).takeWhile isDigit ++
      read ((digits ++ (tail ++ rest)).dropWhile isDigit) := by
  rw [List.takeWhile_append_of_pos hdigits, List.dropWhile_append_of_pos hdigits,
    List.append_assoc, List.prefix_append_right_inj]
  cases tail with
  | nil => exact List.nil_prefix
  | cons c more =>
    have hc : isDigit c = false := hnext c rfl
    rw [List.cons_append, List.takeWhile_cons_of_neg (by simp [hc]),
      List.dropWhile_cons_of_neg (by simp [hc])]
    exact htail

theorem IsDigits.takeWhile_ne_nil {digits : List Char} (h : IsDigits digits) (rest : List Char) :
    (digits ++ rest).takeWhile isDigit ≠ [] := by
  rw [List.takeWhile_append_of_pos h.2]
  simp [h.1]

/-- A sign is read by `Sign.scan` in front of anything that is no sign. -/
theorem IsSign.scan_append {sign : List Char} (h : IsSign sign) {rest : List Char}
    (hrest : ∀ c, rest.head? = some c → Sign.ofChar? c = none) :
    Sign.text (Sign.scan (sign ++ rest)).1 = sign ∧ (Sign.scan (sign ++ rest)).2 = rest := by
  rcases h with rfl | rfl | rfl
  · cases rest with
    | nil => exact ⟨rfl, rfl⟩
    | cons c more =>
      have hscan : Sign.scan (c :: more) = (none, c :: more) := by
        rw [Sign.scan, hrest c rfl]
      rw [List.nil_append, hscan]
      exact ⟨rfl, rfl⟩
  · exact ⟨rfl, rfl⟩
  · exact ⟨rfl, rfl⟩

/-- No digit is a sign. -/
theorem ofChar?_of_isDigit {c : Char} (h : isDigit c) : Sign.ofChar? c = none := by
  unfold Sign.ofChar?
  split
  · rename_i heq
    rw [heq] at h
    cases h
  · split
    · rename_i heq
      rw [heq] at h
      cases h
    · rfl

theorem IsDigits.ofChar?_head {digits : List Char} (h : IsDigits digits) (rest : List Char) :
    ∀ c, (digits ++ rest).head? = some c → Sign.ofChar? c = none := by
  obtain ⟨d, ds, rfl⟩ := List.exists_cons_of_ne_nil h.1
  rintro c hc
  cases hc
  exact ofChar?_of_isDigit (h.2 d List.mem_cons_self)

/-- A power of ten is read by `scanPower` at least as far as it is written. -/
theorem IsPower.isPrefix_scan {power : List Char} (h : IsPower power) (rest : List Char) :
    power <+: powerText (scanPower (power ++ rest)).1 := by
  rcases h with rfl | ⟨mark, sign, digits, hmark, hsign, hdigits, rfl⟩
  · exact List.nil_prefix
  · obtain ⟨htext, hafter⟩ := hsign.scan_append (hdigits.ofChar?_head rest)
    obtain ⟨d, ds, hrun⟩ := List.exists_cons_of_ne_nil (hdigits.takeWhile_ne_nil rest)
    have hfront : digits <+: d :: ds := by
      rw [← hrun, List.takeWhile_append_of_pos hdigits.2]
      exact List.prefix_append _ _
    simp only [List.cons_append, List.append_assoc, scanPower, if_pos hmark, hafter, hrun,
      powerText, htext]
    rw [List.cons_prefix_cons, List.prefix_append_right_inj]
    exact ⟨rfl, hfront⟩

/-- A text that satisfies `IsPower` starts neither with a digit nor with a point. -/
theorem IsPower.head {power : List Char} (h : IsPower power) :
    ∀ c, power.head? = some c → isDigit c = false ∧ c ≠ '.' := by
  rcases h with rfl | ⟨mark, sign, digits, hmark | hmark, -, -, rfl⟩
  · simp
  all_goals
    rintro c hc
    cases hc
    subst hmark
    decide

/-- What is read behind the digits in front of the point. -/
def tailText (input : List Char) : List Char :=
  fractionText (scanFraction input).1 ++ powerText (scanPower (scanFraction input).2).1

/-- The `tailText` of a point and digits behind it. -/
theorem tailText_point {input : List Char} (h : input.takeWhile isDigit ≠ []) :
    tailText ('.' :: input) =
      '.' :: (input.takeWhile isDigit ++ powerText (scanPower (input.dropWhile isDigit)).1) := by
  obtain ⟨d, ds, hrun⟩ := List.exists_cons_of_ne_nil h
  simp only [tailText, scanFraction, hrun, fractionText, List.cons_append]

/-- Without a point the `tailText` is the power of ten. -/
theorem tailText_of_ne_point {input : List Char} (h : input.head? ≠ some '.') :
    tailText input = powerText (scanPower input).1 := by
  unfold tailText scanFraction
  split
  · exact absurd rfl h
  · rfl

/-- A fraction and a power of ten are read at least as far as they are written: they start the
`tailText`. -/
theorem isPrefix_tailText {fraction power : List Char} (hfraction : IsFraction fraction)
    (hpower : IsPower power) (rest : List Char) :
    fraction ++ power <+: tailText (fraction ++ power ++ rest) := by
  have hfront := hpower.isPrefix_scan rest
  rcases hfraction with rfl | ⟨digits, hdigits, rfl⟩
  · rw [List.nil_append]
    cases power with
    | nil => exact List.nil_prefix
    | cons mark more =>
      rw [tailText_of_ne_point]
      · exact hfront
      · simpa using (hpower.head mark rfl).2
  · rw [List.cons_append, List.cons_append, List.append_assoc,
      tailText_point (hdigits.takeWhile_ne_nil _), List.cons_prefix_cons]
    exact ⟨rfl, isPrefix_run (fun left => powerText (scanPower left).1) hdigits.2
      (fun c hc => (hpower.head c hc).1) hfront⟩

theorem text_scan (input : List Char) :
    (scan input).1.text = Sign.text (Sign.scan input).1 ++
      ((Sign.scan input).2.takeWhile isDigit ++
        tailText ((Sign.scan input).2.dropWhile isDigit)) := rfl

/-- Every number at the front of a text is a front part of what `scan` reads. -/
theorem IsNumber.isPrefix_scan {number : List Char} (h : IsNumber number) (rest : List Char) :
    number <+: (scan (number ++ rest)).1.text := by
  cases h with
  | @whole sign digits fraction power hsign hdigits hfraction hpower =>
    have hassoc : sign ++ (digits ++ (fraction ++ power)) ++ rest =
        sign ++ (digits ++ (fraction ++ power ++ rest)) := by simp
    obtain ⟨htext, hafter⟩ :=
      hsign.scan_append (hdigits.ofChar?_head (fraction ++ power ++ rest))
    rw [hassoc, text_scan, htext, hafter, List.prefix_append_right_inj]
    refine isPrefix_run tailText hdigits.2 ?_ (isPrefix_tailText hfraction hpower rest)
    -- The digits end at a point, at the mark of a power or with the number.
    rcases hfraction with rfl | ⟨more, -, rfl⟩
    · exact fun c hc => (hpower.head c hc).1
    · rintro c hc
      cases hc
      decide
  | @point sign digits power hsign hdigits hpower =>
    have hassoc : sign ++ ('.' :: digits ++ power) ++ rest =
        sign ++ ([] ++ ('.' :: digits ++ power ++ rest)) := by simp
    have hpoint : ∀ c, ([] ++ ('.' :: digits ++ power ++ rest)).head? = some c →
        Sign.ofChar? c = none := by
      rintro c hc
      cases hc
      rfl
    obtain ⟨htext, hafter⟩ := hsign.scan_append hpoint
    rw [hassoc, text_scan, htext, hafter, List.prefix_append_right_inj]
    have htail := isPrefix_tailText (.inr ⟨digits, hdigits, rfl⟩) hpower rest
    refine isPrefix_run tailText (List.forall_mem_nil _) ?_ htail
    rintro c hc
    cases hc
    decide

/-- What `scan` reads from a text that starts with a number is the longest number there. -/
theorem isLongest_scan {input : List Char} (h : startsWith input) :
    Text.IsLongest IsNumber (scan input).1.text input where
  isPrefix := ⟨_, text_append_scan input⟩
  holds := isNumber_scan h
  length_le := by
    rintro other hother ⟨rest, rfl⟩
    exact (hother.isPrefix_scan rest).length_le

/-- The text of a number that `scan` has read is read as this number. -/
theorem scan_text (input : List Char) : scan (scan input).1.text = ((scan input).1, []) := by
  refine Scan.numeral_cut (r := (scan input).2) (y := []) ?_
  rw [text_append_scan]
  rfl

/-- A number `isSigned` exactly if the text that is read starts with a sign. -/
theorem isSigned_scan_iff {input : List Char} (h : startsWith input) :
    (scan input).1.isSigned ↔
      (scan input).1.text.head? = some '+' ∨ (scan input).1.text.head? = some '-' := by
  -- The text that is read starts as the input does.
  have hhead : (scan input).1.text.head? = input.head? := by
    obtain ⟨c, more, htext⟩ := List.exists_cons_of_ne_nil (text_scan_ne_nil h)
    have happend := text_append_scan input
    rw [htext] at happend
    rw [htext, ← happend]
    rfl
  have hsigned : (scan input).1.isSigned = (Sign.scan input).1.isSome := rfl
  rw [hhead, hsigned]
  cases input with
  | nil => cases h
  | cons c rest =>
    simp only [Sign.scan, Sign.ofChar?, List.head?_cons, Option.some.injEq]
    by_cases hplus : c = '+'
    · simp [hplus]
    · by_cases hminus : c = '-'
      · simp [hminus]
      · simp [hplus, hminus]

end Numeral

/-! ## Numbers among tokens -/

/-- The numeral of a number, of a percentage or of a number with a unit. -/
def Token.numeral? : Token → Option Numeral
  | .number n | .percentage n | .dimension n _ => some n
  | _ => none

namespace Scan

theorem numeral?_punctuation (c : Char) : (punctuation c).numeral? = none := by
  unfold punctuation
  repeat' split
  all_goals rfl

/-- Only where a number starts, `token` reads one. -/
theorem token_eq_numeric {c : Char} {rest : List Char} {n : Numeral}
    (h : (token c rest).value.numeral? = some n) :
    Numeral.startsWith (c :: rest) ∧ token c rest = numeric (c :: rest) := by
  revert h
  fun_cases token c rest with
  | case1 => exact fun h => absurd h (by simp [Token.numeral?])
  | case2 =>
    simp only [string, Scanned.after]
    split <;> exact fun h => absurd h (by simp [Token.numeral?])
  | case3 => exact fun h => absurd h (by simp [Scanned.after, Token.numeral?])
  | case4 => exact fun h => absurd h (by simp [Scanned.after, Token.numeral?])
  | case5 _ _ _ _ hstart => exact fun _ => ⟨hstart, rfl⟩
  | case6 => exact fun h => absurd h (by simp [Token.numeral?])
  | case7 => exact fun h => absurd h (by simp [Token.numeral?])
  | case8 =>
    obtain ⟨word, hword | hword | hword | ⟨hword, -⟩⟩ := value_nameLike (c :: rest) <;>
      rw [hword] <;> exact fun h => absurd h (by simp [Token.numeral?])
  | case9 =>
    rw [numeral?_punctuation]
    exact fun h => absurd h (by simp)

theorem numeral?_numeric (input : List Char) :
    (numeric input).value.numeral? = some (Numeral.scan input).1 := by
  unfold numeric
  split
  rename_i value rest hscan
  rw [hscan]
  split
  · rfl
  · split <;> rfl

/-- What a token that starts with the number `n` is, given the text behind the number: the longest
name there is its unit, and a percent sign belongs to it. -/
structure IsNumeric (n : Numeral) (rest : List Char) (token : Token) (text : List Char) : Prop where
  /-- A percentage has a percent sign and no unit. -/
  percentage_iff : token = .percentage n ↔ rest.head? = some '%' ∧ ¬ StartsIdentifier rest
  /-- A number with a unit has a name behind it. -/
  dimension_iff : (∃ unit, token = .dimension n unit) ↔ StartsIdentifier rest
  /-- A plain number has neither. -/
  number_iff : token = .number n ↔ rest.head? ≠ some '%' ∧ ¬ StartsIdentifier rest
  /-- A percentage is read from the number and the percent sign. -/
  text_percentage : token = .percentage n → text = n.text ++ ['%']
  /-- A number with a unit is read from the number and the name, which writes the unit. -/
  text_dimension : ∀ unit, token = .dimension n unit → ∃ source, text = n.text ++ source ∧
    Text.IsLongest IsIdentifier source rest ∧ Decodes false source unit
  /-- A plain number is read from nothing else. -/
  text_number : token = .number n → text = n.text

/-- The token that `numeric` reads behind a number satisfies `IsNumeric`. -/
theorem isNumeric_numeric (input : List Char) :
    IsNumeric (Numeral.scan input).1 (Numeral.scan input).2 (numeric input).value
      (numeric input).text := by
  unfold numeric
  split
  rename_i n rest hscan
  rw [hscan]
  dsimp only
  split
  · rename_i hname
    have hunit := isLongest_name hname
    rw [startsName_iff] at hname
    constructor <;> simp [Scanned.after, hname, hunit, decodes_name]
  · rename_i hname
    rw [startsName_iff] at hname
    split
    · constructor <;> simp [hname]
    · rename_i hpercent
      have hhead : rest.head? ≠ some '%' := by
        intro hhead
        obtain ⟨after, hrest⟩ := List.head?_eq_some_iff.mp hhead
        exact hpercent after hrest
      constructor <;> simp [hname, hhead]

end Scan

namespace Lexeme

open Scan Text

/-- The double of a text that is a number from its first to its last character. -/
def readWhole (text : List Char) : Option Float :=
  if (Numeral.scan text).2 = [] then some (Numeral.scan text).1.toFloat else none

/-- **Numbers are read as far as they go.** For every number, percentage or number with a unit among
the tokens of any text, the part of its text that writes the number is the longest written number
that starts there. So it is never refused by a reader that accepts written numbers, and reading it
by itself gives the number of the token again. This is the double nearest to what is written, unless
that is too great for a double. It counts as signed if it starts with a sign. If a name starts
behind it, this name is its unit; otherwise a percent sign makes it a percentage, and anything else
leaves it a plain number. The token is read from the number and from the percent sign or the unit,
and from nothing else. -/
theorem numeral_longest {text : List Char} {l : Lexeme} (hl : l ∈ ofText text) {n : Numeral}
    (hn : l.token.numeral? = some n) :
    ∃ before rest, text = before ++ (n.text ++ rest) ∧ byteSize before = l.start ∧
      Text.IsLongest Numeral.IsNumber n.text (n.text ++ rest) ∧
      (∀ read : List Char → Option Float,
        (∀ number, Numeral.IsNumber number → (read number).isSome) → (read n.text).isSome) ∧
      readWhole n.text = some n.toFloat ∧
      (|n.value| ≤ Number.greatest → Number.IsNearest n.value n.toFloat) ∧
      (n.isSigned ↔ n.text.head? = some '+' ∨ n.text.head? = some '-') ∧
      IsNumeric n rest l.token l.text := by
  have hend : l.token ≠ .eof := by
    intro heof
    rw [heof] at hn
    cases hn
  obtain ⟨before, c, after, htext, hstart, htoken, hltext⟩ := exists_of_mem_scanFrom hl hend
  rw [htoken] at hn
  obtain ⟨hstarts, hscan⟩ := token_eq_numeric hn
  rw [hscan] at hn htoken hltext
  obtain rfl := Option.some.inj ((numeral?_numeric (c :: after)).symm.trans hn)
  have hlongest := Numeral.isLongest_scan hstarts
  refine ⟨before, (Numeral.scan (c :: after)).2, ?_, ?_, ?_, ?_, ?_, Numeral.isNearest_toFloat,
    Numeral.isSigned_scan_iff hstarts, ?_⟩
  · rw [Numeral.text_append_scan, htext]
  · omega
  · rwa [Numeral.text_append_scan]
  · exact fun read hread => hread _ hlongest.holds
  · rw [readWhole, Numeral.scan_text, if_pos rfl]
  · rw [htoken, hltext]
    exact isNumeric_numeric (c :: after)

/-- A sign, no digits in front of the point, a power of ten, and a unit that is written with an
escape and could be taken for another power. -/
theorem numeral_longest_unit :
    let text := "a -.5e+3\\65 m".toList
    let n : Numeral := ⟨some .minus, [], ['5'], some ('e', some .plus, ['3'])⟩
    ∃ l ∈ ofText text, l.token = .dimension n "em" ∧
      ∃ before rest, text = before ++ (n.text ++ rest) ∧ byteSize before = l.start ∧
        Text.IsLongest Numeral.IsNumber n.text (n.text ++ rest) ∧ readWhole n.text = some (-500) ∧
        n.value = -500 ∧ Number.IsNearest (-500) (-500) ∧
        StartsIdentifier rest ∧
        ∃ source, l.text = n.text ++ source ∧ Text.IsLongest IsIdentifier source rest ∧
          Decodes false source "em" := by
  intro text n
  let l : Lexeme := ⟨.dimension n "em", [], "-.5e+3\\65 m".toList, 2⟩
  have hl : l ∈ ofText text := by decide +kernel
  obtain ⟨before, rest, htext, hstart, hlongest, -, hread, hnearest, -, hkind⟩ :=
    numeral_longest hl (n := n) rfl
  have hdouble : n.toFloat = -500 := by decide +kernel
  have hvalue : n.value = -500 := by decide +kernel
  have hgreatest : |(-500 : ℚ)| ≤ Number.greatest := by decide +kernel
  rw [hdouble] at hread hnearest
  rw [hvalue] at hnearest
  exact ⟨l, hl, rfl, before, rest, htext, hstart, hlongest, hread, hvalue, hnearest hgreatest,
    hkind.dimension_iff.mp ⟨_, rfl⟩, hkind.text_dimension _ rfl⟩

end Lexeme

end ThemeColor
