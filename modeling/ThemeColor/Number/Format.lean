import ThemeColor.Number.Shortest

/-!
# Number text

Three written forms of a double. `scientific` and `positional` hold the fewest digits that read
back; `compact` is the form used in style sheets, with at most five decimals and no trailing zeros,
which falls back to `scientific` for very large and very small magnitudes.
-/

namespace ThemeColor.Number

/-- A minus sign in front of the text of a negative number. -/
def signed (negative : Bool) (text : List Char) : List Char :=
  if negative then '-' :: text else text

/-- The text of an integer. -/
def integerText (n : Int) : List Char :=
  signed (n < 0) (Nat.toDigits 10 n.natAbs)

namespace Decimal

/-- One digit before the point, then `e` and the exponent: `2.55e2`, `1e-29`. -/
def scientific (d : Decimal) : List Char :=
  let exponent := integerText (d.exponent + ((d.digits.length : Int) - 1))
  match d.digits with
  | [] => []
  | [only] => only :: 'e' :: exponent
  | first :: rest => first :: '.' :: (rest ++ 'e' :: exponent)

/-- All digits around the point, without an exponent: `1500`, `0.0025`. -/
def positional (d : Decimal) : List Char :=
  if 0 ≤ d.exponent then
    d.digits ++ List.replicate d.exponent.toNat '0'
  else
    let places := (-d.exponent).toNat
    let whole := d.digits.length - places
    if 0 < whole then
      d.digits.take whole ++ '.' :: d.digits.drop whole
    else
      '0' :: '.' :: (List.replicate (places - d.digits.length) '0' ++ d.digits)

end Decimal

/-- The text of a double, given the text of a zero and of any other finite magnitude. -/
def textWith (zero : String) (magnitude : Decimal → List Char) (x : Float) : String :=
  match Binary.ofFloat x with
  | .nan => "NaN"
  | .infinite negative => String.ofList (signed negative "inf".toList)
  | .finite negative 0 _ => String.ofList (signed negative zero.toList)
  | .finite negative mantissa exponent =>
    String.ofList (signed negative (magnitude (shortest mantissa exponent)))

/-- The fewest digits that read back, with an exponent: `2.55e2`. -/
def scientific (x : Float) : String := textWith "0e0" Decimal.scientific x

/-- The fewest digits that read back, without an exponent: `255`. -/
def positional (x : Float) : String := textWith "0" Decimal.positional x

/-- The number of decimals of the fixed form. -/
def fixedPlaces : Nat := 5

/-- The natural number `n` read as a count of `10 ^ -places`, with all its decimals: `2.50000`. -/
def fixedText (places n : Nat) : List Char :=
  let fraction := Nat.toDigits 10 (n % Nat.pow 10 places)
  Nat.toDigits 10 (n / Nat.pow 10 places) ++
    '.' :: (List.replicate (places - fraction.length) '0' ++ fraction)

/-- Removes trailing zeros, then a trailing point, then the sign of a zero. -/
def trimFixed (text : List Char) : List Char :=
  let trimmed := (text.reverse.dropWhile (· == '0')).reverse
  let trimmed := if trimmed.getLast? = some '.' then trimmed.dropLast else trimmed
  if trimmed = ['-', '0'] then ['0'] else trimmed

/-- The magnitude `mantissa · 2 ^ exponent` as a count of `10 ^ -fixedPlaces`, rounded to the
nearest one; a half goes to the even neighbour. -/
def fixedCount (mantissa : Nat) (exponent : Int) : Nat :=
  let (numerator, denominator) := scaled mantissa exponent
  roundHalfEven (numerator * Nat.pow 10 fixedPlaces) denominator

/-- The double with exactly five decimals. -/
def fixed (x : Float) : List Char :=
  match Binary.ofFloat x with
  | .nan => "NaN".toList
  | .infinite negative => signed negative "inf".toList
  | .finite negative mantissa exponent =>
    signed negative (fixedText fixedPlaces (fixedCount mantissa exponent))

/-- The form used in style sheets: at most five decimals and no trailing zeros, or the scientific
form for a magnitude below `10 ^ -4` or from `10 ^ 15` on. Both zeros are `0`. -/
def compact (x : Float) : String :=
  let magnitude := x.abs
  if magnitude == 0.0 then "0"
  else if 1e-4 ≤ magnitude ∧ magnitude < 1e15 then String.ofList (trimFixed (fixed x))
  else scientific x

end ThemeColor.Number
