/-!
# The exact value of a double

A `Float` is taken apart into a sign, a natural mantissa and a power of two, so that the rounding
rules of this library can be stated and computed in exact natural number arithmetic.
-/

namespace ThemeColor.Number

/-- The contents of a `Float`: no number, an infinity, or exactly `± mantissa · 2 ^ exponent`. -/
inductive Binary where
  /-- Not a number. -/
  | nan
  /-- An infinity with its sign. -/
  | infinite (negative : Bool)
  /-- The number `± mantissa · 2 ^ exponent`, zero included. -/
  | finite (negative : Bool) (mantissa : Nat) (exponent : Int)
  deriving DecidableEq, Repr

namespace Binary

/-- The number of explicit mantissa bits of a double. -/
def fractionBits : Nat := 52

/-- The exponent of the least subnormal double. -/
def leastExponent : Int := -1074

/-- Takes a double apart. Normal numbers have a mantissa of 53 bits; subnormal numbers and zero
have the least exponent. -/
def ofFloat (x : Float) : Binary :=
  let bits := x.toBits.toNat
  let negative := bits / Nat.pow 2 63 == 1
  let field : Nat := bits / Nat.pow 2 fractionBits % Nat.pow 2 11
  let fraction := bits % Nat.pow 2 fractionBits
  if field = Nat.pow 2 11 - 1 then
    if fraction = 0 then .infinite negative else .nan
  else if field = 0 then
    .finite negative fraction leastExponent
  else
    .finite negative (fraction + Nat.pow 2 fractionBits) ((field : Int) - 1 + leastExponent)

end Binary

/-- The positive rational number `numerator / denominator` that is `mantissa · 2 ^ exponent`. -/
def scaled (mantissa : Nat) (exponent : Int) : Nat × Nat :=
  (mantissa * Nat.pow 2 exponent.toNat, Nat.pow 2 (-exponent).toNat)

/-- The natural number nearest to `numerator / denominator`; a half goes to the even neighbour. -/
def roundHalfEven (numerator denominator : Nat) : Nat :=
  let quotient := numerator / denominator
  let remainder := numerator % denominator
  if 2 * remainder < denominator then quotient
  else if denominator < 2 * remainder then quotient + 1
  else quotient + quotient % 2

/-- The natural number nearest to `numerator / denominator`; a half goes up. -/
def roundHalfUp (numerator denominator : Nat) : Nat :=
  (2 * numerator + denominator) / (2 * denominator)

/-- The integer nearest to a double, as a double; a half goes away from zero. Infinities and `NaN`
stay what they are. -/
def roundAwayFromZero (x : Float) : Float :=
  match Binary.ofFloat x with
  | .finite negative mantissa exponent =>
    if 0 ≤ exponent then x
    else
      let (numerator, denominator) := scaled mantissa exponent
      let magnitude := Float.ofNat (roundHalfUp numerator denominator)
      if negative then -magnitude else magnitude
  | _ => x

end ThemeColor.Number
