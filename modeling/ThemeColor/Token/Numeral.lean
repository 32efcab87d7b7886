/-!
# Numerals

A numeral is a written number: an optional sign, digits around an optional point, and an optional
power of ten. `Numeral.scan` reads the longest numeral at the front of a text, `Numeral.text` writes
it back, and `Numeral.toFloat` is the double nearest to its value.
-/

namespace ThemeColor

/-- An explicit sign. -/
inductive Sign where
  /-- The sign `+`. -/
  | plus
  /-- The sign `-`. -/
  | minus
  deriving DecidableEq, Repr

namespace Sign

/-- The character of the sign. -/
def char : Sign → Char
  | .plus => '+'
  | .minus => '-'

/-- The sign that the character writes. -/
def ofChar? (c : Char) : Option Sign :=
  if c = '+' then some .plus else if c = '-' then some .minus else none

/-- Splits an optional sign off the front of a text. -/
def scan : List Char → Option Sign × List Char
  | [] => (none, [])
  | c :: rest =>
    match ofChar? c with
    | some sign => (some sign, rest)
    | none => (none, c :: rest)

/-- The text of an optional sign. -/
def text (sign : Option Sign) : List Char := (sign.map char).toList

end Sign

/-- A written number. -/
structure Numeral where
  /-- The sign, if one is written. -/
  sign : Option Sign
  /-- The digits before the point. -/
  whole : List Char
  /-- The digits after the point; none if there is no point. -/
  fraction : List Char
  /-- The mark `e` or `E`, the sign and the digits of the power of ten, if there is one. -/
  power : Option (Char × Option Sign × List Char)
  deriving DecidableEq, Repr

namespace Numeral

/-- The digits `0` to `9`. -/
def isDigit (c : Char) : Bool := c.isDigit

/-- The number that a list of digits writes in base ten. -/
def digitsValue (digits : List Char) : Nat :=
  digits.foldl (fun value c => 10 * value + (c.toNat - '0'.toNat)) 0

/-- The text of the digits after a point, with the point if there are any. -/
def fractionText : List Char → List Char
  | [] => []
  | digits => '.' :: digits

/-- The text of a power of ten. -/
def powerText : Option (Char × Option Sign × List Char) → List Char
  | none => []
  | some (mark, sign, digits) => mark :: (Sign.text sign ++ digits)

/-- The text of the numeral. -/
def text (n : Numeral) : List Char :=
  Sign.text n.sign ++ (n.whole ++ (fractionText n.fraction ++ powerText n.power))

/-- Splits a point and the digits after it off the front of a text. -/
def scanFraction : List Char → List Char × List Char
  | '.' :: rest =>
    match rest.takeWhile isDigit with
    | [] => ([], '.' :: rest)
    | digits => (digits, rest.dropWhile isDigit)
  | rest => ([], rest)

/-- Splits a power of ten off the front of a text. -/
def scanPower : List Char → Option (Char × Option Sign × List Char) × List Char
  | [] => (none, [])
  | mark :: rest =>
    if mark = 'e' ∨ mark = 'E' then
      let (sign, after) := Sign.scan rest
      match after.takeWhile isDigit with
      | [] => (none, mark :: rest)
      | digits => (some (mark, sign, digits), after.dropWhile isDigit)
    else (none, mark :: rest)

/-- Splits the longest numeral off the front of a text that starts with one. -/
def scan (input : List Char) : Numeral × List Char :=
  let (sign, rest) := Sign.scan input
  let whole := rest.takeWhile isDigit
  let (fraction, rest) := scanFraction (rest.dropWhile isDigit)
  let (power, rest) := scanPower rest
  (⟨sign, whole, fraction, power⟩, rest)

/-- Whether the text starts with a digit. -/
def startsWithDigit : List Char → Bool
  | c :: _ => isDigit c
  | [] => false

/-- Whether the text starts with digits, perhaps after a point. -/
def startsUnsigned : List Char → Bool
  | '.' :: rest => startsWithDigit rest
  | rest => startsWithDigit rest

/-- Whether the text starts with a numeral. -/
def startsWith (input : List Char) : Bool := startsUnsigned (Sign.scan input).2

/-- The digits of the numeral without sign and point, as one number. -/
def coefficient (n : Numeral) : Nat := digitsValue (n.whole ++ n.fraction)

/-- The power of ten by which the coefficient is multiplied. -/
def exponent (n : Numeral) : Int :=
  let written : Int :=
    match n.power with
    | none => 0
    | some (_, sign, digits) =>
      if sign = some .minus then -(digitsValue digits : Int) else digitsValue digits
  written - n.fraction.length

/-- Whether a sign is written. -/
def isSigned (n : Numeral) : Bool := n.sign.isSome

/-- The double nearest to the number. -/
def toFloat (n : Numeral) : Float :=
  let magnitude := Float.ofScientific n.coefficient (n.exponent < 0) n.exponent.natAbs
  if n.sign = some .minus then -magnitude else magnitude

/-! ### Nothing is lost -/

theorem sign_text_append_scan (input : List Char) :
    Sign.text (Sign.scan input).1 ++ (Sign.scan input).2 = input := by
  unfold Sign.scan
  split
  · rfl
  · rename_i c rest
    split
    · rename_i sign h
      unfold Sign.ofChar? at h
      split at h
      · cases h; simp [Sign.text, Sign.char, *]
      · split at h
        · cases h; simp [Sign.text, Sign.char, *]
        · cases h
    · rfl

theorem fraction_append_scan (input : List Char) :
    fractionText (scanFraction input).1 ++ (scanFraction input).2 = input := by
  unfold scanFraction
  split
  · rename_i rest
    cases h : rest.takeWhile isDigit with
    | nil => rfl
    | cons d ds =>
      have := List.takeWhile_append_dropWhile (p := isDigit) (l := rest)
      rw [h] at this
      simpa [fractionText] using this
  · rfl

theorem power_append_scan (input : List Char) :
    powerText (scanPower input).1 ++ (scanPower input).2 = input := by
  cases input with
  | nil => rfl
  | cons mark rest =>
    simp only [scanPower]
    split
    · cases h : (Sign.scan rest).2.takeWhile isDigit with
      | nil => rfl
      | cons d ds =>
        have hdigits := List.takeWhile_append_dropWhile (p := isDigit) (l := (Sign.scan rest).2)
        have hsign := sign_text_append_scan rest
        rw [h] at hdigits
        rw [← hdigits] at hsign
        simpa [powerText] using hsign
    · rfl

/-- The text of the numeral and the rest make up the text that was scanned. -/
theorem text_append_scan (input : List Char) :
    (scan input).1.text ++ (scan input).2 = input := by
  have hsign := sign_text_append_scan input
  have hwhole := List.takeWhile_append_dropWhile (p := isDigit) (l := (Sign.scan input).2)
  have hfraction := fraction_append_scan ((Sign.scan input).2.dropWhile isDigit)
  have hpower := power_append_scan (scanFraction ((Sign.scan input).2.dropWhile isDigit)).2
  simp only [scan, text, List.append_assoc]
  rw [hpower, hfraction, hwhole, hsign]

/-- A text that starts with a numeral loses at least one character to it. -/
theorem text_scan_ne_nil {input : List Char} (h : startsWith input) : (scan input).1.text ≠ [] := by
  intro hnil
  simp only [scan, text, List.append_eq_nil_iff] at hnil
  obtain ⟨_, hwhole, hfraction, _⟩ := hnil
  have hdigit : startsUnsigned (Sign.scan input).2 := h
  generalize (Sign.scan input).2 = rest at hwhole hfraction hdigit
  unfold startsUnsigned at hdigit
  split at hdigit
  · rename_i after
    have hpoint : ('.' :: after).dropWhile isDigit = '.' :: after := by
      simp [show isDigit '.' = false by decide]
    rw [hpoint] at hfraction
    cases after with
    | nil => simp [startsWithDigit] at hdigit
    | cons d ds =>
      simp only [startsWithDigit] at hdigit
      simp [scanFraction, hdigit, fractionText] at hfraction
  · cases rest with
    | nil => simp [startsWithDigit] at hdigit
    | cons d ds =>
      simp only [startsWithDigit] at hdigit
      simp [hdigit] at hwhole

end Numeral

end ThemeColor
