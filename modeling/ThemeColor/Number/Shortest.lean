import ThemeColor.Number.Binary

/-!
# The fewest digits that read back

Among all decimals that round to a given double, the ones with the fewest digits are kept, and of
those the nearest to the double. The search is exact: for 1, 2, … digits it tests the two
neighbours of the double on the decimal grid with that many digits.
-/

namespace ThemeColor.Number

/-- The positive decimal `coefficient · 10 ^ exponent`. -/
structure Decimal where
  /-- The digits, read as one number. -/
  coefficient : Nat
  /-- The power of ten of the last digit. -/
  exponent : Int
  deriving DecidableEq, Repr

namespace Decimal

/-- Moves up to `fuel` trailing zeros of the coefficient into the exponent. -/
def dropZeros : (fuel : Nat) → Decimal → Decimal
  | 0, d => d
  | fuel + 1, d =>
    if d.coefficient % 10 = 0 ∧ d.coefficient ≠ 0 then
      dropZeros fuel ⟨d.coefficient / 10, d.exponent + 1⟩
    else d

/-- The same decimal without trailing zeros. -/
def normalize (d : Decimal) : Decimal :=
  dropZeros (Nat.toDigits 10 d.coefficient).length d

/-- The digits of the coefficient. -/
def digits (d : Decimal) : List Char := Nat.toDigits 10 d.coefficient

end Decimal

/-- The open or closed interval of reals that round to one double, and the double itself, all over
one denominator. -/
structure Window where
  /-- The numerator of the lower end. -/
  low : Nat
  /-- The numerator of the double. -/
  middle : Nat
  /-- The numerator of the upper end. -/
  high : Nat
  /-- The common denominator. -/
  denominator : Nat
  /-- Whether the ends themselves round to the double. -/
  closed : Bool

namespace Window

/-- The interval around `mantissa · 2 ^ exponent`. Its ends lie halfway to the neighbouring
doubles, and the lower neighbour of a power of two is only half as far away. The ends round to the
double exactly when its mantissa is even. -/
def around (mantissa : Nat) (exponent : Int) : Window :=
  let below :=
    if mantissa = Nat.pow 2 Binary.fractionBits ∧ Binary.leastExponent < exponent then 1 else 2
  let (factor, denominator) := scaled 1 (exponent - 2)
  { low := (4 * mantissa - below) * factor
    middle := 4 * mantissa * factor
    high := (4 * mantissa + 2) * factor
    denominator
    closed := mantissa % 2 = 0 }

/-- Whether `numerator / w.denominator` rounds to the double. -/
def contains (w : Window) (numerator : Nat) : Bool :=
  if w.closed then w.low ≤ numerator && numerator ≤ w.high
  else w.low < numerator && numerator < w.high

/-- The least `k` with `numerator < denominator · 10 ^ k`, looked for among the `fuel` next ones. -/
def placesFrom (numerator denominator : Nat) : (fuel k : Nat) → Nat
  | 0, k => k
  | fuel + 1, k =>
    if numerator < denominator * Nat.pow 10 k then k
    else placesFrom numerator denominator fuel (k + 1)

/-- The exponent `k` with `10 ^ (k - 1) ≤ middle / denominator < 10 ^ k`. -/
def magnitude (w : Window) : Int :=
  if w.denominator ≤ w.middle then
    placesFrom w.middle w.denominator 310 0
  else
    -- `10 ^ (j - 1) * middle < denominator ≤ 10 ^ j * middle` gives the exponent `1 - j`.
    1 - (placesFrom (w.denominator - 1) w.middle 325 0 : Int)

/-- The decimal nearest to the double on the grid of multiples of `10 ^ unit`, if one of the two
neighbours on that grid rounds to the double. Of two equally near ones the greater is taken. -/
def onGrid? (w : Window) (unit : Int) : Option Decimal :=
  let up := Nat.pow 10 unit.toNat
  let down := Nat.pow 10 (-unit).toNat
  -- A multiple `n` of the grid is `n * up / down`; both sides are scaled by `down`.
  let scaledWindow : Window :=
    { low := w.low * down, middle := w.middle * down, high := w.high * down,
      denominator := w.denominator, closed := w.closed }
  let step := up * w.denominator
  let floor := scaledWindow.middle / step
  let lower := floor * step
  let upper := lower + step
  let lowerFits := scaledWindow.contains lower && floor != 0
  let upperFits := scaledWindow.contains upper
  if upperFits && (!lowerFits || upper - scaledWindow.middle ≤ scaledWindow.middle - lower) then
    some ⟨floor + 1, unit⟩
  else if lowerFits then
    some ⟨floor, unit⟩
  else
    none

/-- The decimal with the fewest digits in the interval, at least `count` digits and at most
`fuel` more. -/
def shortestFrom (w : Window) (top : Int) : (fuel count : Nat) → Decimal
  | 0, count => (w.onGrid? (top - count)).getD ⟨0, 0⟩
  | fuel + 1, count =>
    match w.onGrid? (top - count) with
    | some d => d
    | none => shortestFrom w top fuel (count + 1)

end Window

/-- The decimal with the fewest digits that rounds to `mantissa · 2 ^ exponent`, and of those the
nearest one. Seventeen digits always suffice. -/
def shortest (mantissa : Nat) (exponent : Int) : Decimal :=
  let w := Window.around mantissa exponent
  (w.shortestFrom w.magnitude 17 1).normalize

end ThemeColor.Number
