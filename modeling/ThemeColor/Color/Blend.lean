import ThemeColor.Color.Basic

/-!
# Mixing, shading and fading

The three ways to compute a color from other colors, field by field.
-/

namespace ThemeColor

open ThemeColor.Expr

variable {α : Type} [Scalar α]

/-- The value at `t` of the way from `x` to `y`. -/
def Expr.lerp (x y t : Expr α) : Expr α := add x (mul (sub y x) t)

namespace Rgb

/-- One channel of a mixed color: the channels are weighted by the opacities of their colors, and
the result is divided by the mixed opacity. -/
def mixChannel (x y aAlpha bAlpha alpha t : Expr α) : Expr α :=
  (div (lerp (mul x aAlpha) (mul y bAlpha) t) alpha).simplify

/-- The color at `t` of the way from `a` to `b`. A mixture that is known to be invisible is
black. -/
def mix (a b : Rgb α) (t : Expr α) : Rgb α :=
  let alpha := lerp a.alpha b.alpha t
  let channel (x y : Expr α) : Expr α :=
    if alpha.isNumber 0.0 then number 0.0 else mixChannel x y a.alpha b.alpha alpha t
  { red := channel a.red b.red
    green := channel a.green b.green
    blue := channel a.blue b.blue
    alpha := alpha.simplify }

end Rgb

namespace Hsl

/-- A percentage scaled by a factor and kept between 0 and 100. -/
def scalePercentage (value factor : Expr α) : Expr α :=
  (clamp (percent 0.0) (mul value factor) (percent 100.0)).simplify

/-- The color with saturation and lightness scaled by a factor. -/
def shade (c : Hsl α) (factor : Expr α) : Hsl α :=
  { c with
    saturation := scalePercentage c.saturation factor
    lightness := scalePercentage c.lightness factor }

end Hsl

/-- An opacity scaled by a factor and kept between 0 and 1. -/
def fadeAlpha (alpha factor : Expr α) : Expr α :=
  (clamp (number 0.0) (mul alpha factor) (number 1.0)).simplify

/-- The color with its opacity scaled by a factor. -/
def Rgb.fade (c : Rgb α) (factor : Expr α) : Rgb α := { c with alpha := fadeAlpha c.alpha factor }

/-- The color with its opacity scaled by a factor. -/
def Hsl.fade (c : Hsl α) (factor : Expr α) : Hsl α := { c with alpha := fadeAlpha c.alpha factor }

end ThemeColor
