/-!
# Scalars

The arithmetic of color fields is written over any type of scalars. It runs on `Float`, and the
same definitions over `Rat` give the exact values that the rounded ones stand for.
-/

namespace ThemeColor

/-- Field arithmetic with a decidable order, an equality test and decimal literals. -/
class Scalar (α : Type) extends
    Add α, Sub α, Mul α, Div α, Neg α, LT α, LE α, BEq α, OfScientific α where
  /-- The strict order can be tested. -/
  decLt : DecidableLT α
  /-- The order can be tested. -/
  decLe : DecidableLE α

attribute [reducible, instance] Scalar.decLt Scalar.decLe

namespace Scalar

/-- Doubles, with rounded arithmetic. -/
instance instFloat : Scalar Float where
  decLt := inferInstance
  decLe := inferInstance

/-- Rational numbers, with exact arithmetic. -/
instance instRat : Scalar Rat where
  decLt := inferInstance
  decLe := inferInstance

variable {α : Type} [Scalar α]

/-- The lesser of two scalars. One that differs from itself is no number and gives way to the
other. -/
def least (a b : α) : α :=
  if a ≤ b then a
  else if b ≤ a then b
  else if b == b then b
  else a

/-- The greater of two scalars. One that differs from itself is no number and gives way to the
other. -/
def greatest (a b : α) : α :=
  if b ≤ a then a
  else if a ≤ b then b
  else if b == b then b
  else a

/-- The scalar `value` moved into the interval from `low` to `high`; the lower end wins where the
ends are in the wrong order. -/
def clamp (low value high : α) : α :=
  greatest low (least value high)

end Scalar

end ThemeColor
