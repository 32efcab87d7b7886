import ThemeColor.Color.Basic

/-!
# From red, green and blue to hue, saturation and lightness

The textbook conversion takes a different path for each order of the channels, and a channel need
not be known. So each condition becomes a selector: a steep ramp cut off at 0 and 1 that is 1 where
the condition holds and 0 where it does not, and each path is multiplied by its selector. For known
channels everything folds to numbers.
-/

namespace ThemeColor.Hue

open ThemeColor.Expr

variable {α : Type} [Scalar α]

/-- The slope that tells a chromatic color from a gray one. -/
def chromaSlope : α := 1e100

/-- The slope that tells light from dark. -/
def lightnessSlope : α := 1e30

/-- The slope that tells which channel is the greatest, and whether a hue is negative. -/
def channelSlope : α := 1e31

/-- An amount that keeps divisors away from zero and decides the middle lightness. -/
def epsilon : α := 1e-29

/-- An amount that keeps the divisor of light colors away from zero. -/
def lightEpsilon : α := 1e-19

/-- By how much a channel may stay below the greatest one and still count as it. -/
def tolerance : α := 1e-9

/-- The value cut off at 0 and 1. -/
def cutOff (x : Expr α) : Expr α := clamp (number 0.0) x (number 1.0)

/-- A selector that is 1 where `x` is clearly positive and 0 where it is not. -/
def selector (x : Expr α) (slope : α) : Expr α := cutOff (mul x (number slope))

/-- The opposite selector. -/
def negation (s : Expr α) : Expr α := sub (number 1.0) s

/-- The channels from 0 to 1, and what they have in common. -/
structure Channels (α : Type) where
  /-- The red channel. -/
  red : Expr α
  /-- The green channel. -/
  green : Expr α
  /-- The blue channel. -/
  blue : Expr α
  /-- The greatest channel. -/
  greatest : Expr α
  /-- The least channel. -/
  least : Expr α

/-- The channels of a color, divided by 255. -/
def Channels.ofRgb (c : Rgb α) : Channels α :=
  let red := div c.red (number 255.0)
  let green := div c.green (number 255.0)
  let blue := div c.blue (number 255.0)
  { red, green, blue, greatest := max [red, green, blue], least := min [red, green, blue] }

namespace Channels

/-- The distance between the greatest and the least channel. -/
def spread (c : Channels α) : Expr α := sub c.greatest c.least

/-- The sum of the greatest and the least channel. -/
def total (c : Channels α) : Expr α := add c.greatest c.least

/-- The middle between the greatest and the least channel. -/
def lightness (c : Channels α) : Expr α := div c.total (number 2.0)

/-- The selector of colors that are not gray. -/
def chromatic (c : Channels α) : Expr α := selector c.spread chromaSlope

/-- The spread in proportion to the greatest possible one at this lightness. -/
def saturation (c : Channels α) : Expr α :=
  let light := selector (sub c.lightness (number 0.5)) lightnessSlope
  let dark := selector (add (sub (number 0.5) c.lightness) (number epsilon)) lightnessSlope
  let darkDivisor := mul dark (add c.total (number epsilon))
  let lightDivisor := mul light (add (sub (number 2.0) c.total) (number lightEpsilon))
  div (mul c.chromatic c.spread) (add darkDivisor lightDivisor)

/-- The selector of a channel that is the greatest one. -/
def isGreatest (c : Channels α) (channel : Expr α) : Expr α :=
  selector (add (sub channel c.greatest) (number tolerance)) channelSlope

/-- The selector of colors in which red is the greatest channel. -/
def redFirst (c : Channels α) : Expr α := c.isGreatest c.red

/-- The selector of colors in which green is the greatest channel and red is not. -/
def greenFirst (c : Channels α) : Expr α := mul (c.isGreatest c.green) (negation c.redFirst)

/-- The selector of colors in which blue is the greatest channel and neither red nor green is. -/
def blueFirst (c : Channels α) : Expr α :=
  mul (mul (c.isGreatest c.blue) (negation c.redFirst)) (negation c.greenFirst)

/-- The position on the color wheel in sectors of 60 degrees. Of several greatest channels the
first one in the order red, green, blue decides. -/
def sectors (c : Channels α) : Expr α :=
  let divisor := add c.spread (number epsilon)
  let redPart := mul c.redFirst (div (sub c.green c.blue) divisor)
  let redPart := add redPart (mul (selector redPart (-channelSlope)) (number 6.0))
  let greenPart := mul c.greenFirst (add (number 2.0) (div (sub c.blue c.red) divisor))
  let bluePart := mul c.blueFirst (add (number 4.0) (div (sub c.red c.green) divisor))
  add (add redPart greenPart) bluePart

/-- The hue in degrees; 0 for a gray color. -/
def hue (c : Channels α) : Expr α := mul (mul c.chromatic (number 60.0)) c.sectors

end Channels

end ThemeColor.Hue

namespace ThemeColor.Rgb

/-- The same color by hue, saturation and lightness. -/
def toHsl {α : Type} [Scalar α] (c : Rgb α) : Hsl α :=
  let channels := Hue.Channels.ofRgb c
  { hue := channels.hue.simplify
    saturation := (Expr.mul channels.saturation (.percent 100.0)).simplify
    lightness := (Expr.mul channels.lightness (.percent 100.0)).simplify
    alpha := c.alpha.simplify }

end ThemeColor.Rgb
