import ThemeColor.Expr.Fold

/-!
# Colors

A color expression is a literal color, a name, or a function that builds a color from other colors.
Resolving one leaves a canonical color: red, green and blue, or hue, saturation and lightness, or a
keyword whose color is not known before the style sheet is used.
-/

namespace ThemeColor

/-- A color by its red, green and blue channels, from 0 to 255, and its opacity, from 0 to 1. -/
structure Rgb (α : Type) where
  /-- The red channel. -/
  red : Expr α
  /-- The green channel. -/
  green : Expr α
  /-- The blue channel. -/
  blue : Expr α
  /-- The opacity. -/
  alpha : Expr α
  deriving Repr

namespace Rgb

variable {α : Type}

/-- Whether all four fields are plain numbers. -/
def isLiteral (c : Rgb α) : Bool :=
  c.red.number?.isSome && c.green.number?.isSome && c.blue.number?.isSome && c.alpha.number?.isSome

/-- The number of nodes of the four fields. -/
def nodeCount (c : Rgb α) : Nat :=
  c.red.nodeCount + c.green.nodeCount + c.blue.nodeCount + c.alpha.nodeCount

/-- The fully opaque color with three known channels. -/
def opaqueOf [Scalar α] (red green blue : α) : Rgb α :=
  ⟨.number red, .number green, .number blue, .number 1.0⟩

/-- The color with simplified fields. -/
def simplify [Scalar α] (c : Rgb α) : Rgb α :=
  ⟨c.red.simplify, c.green.simplify, c.blue.simplify, c.alpha.simplify⟩

end Rgb

/-- A color by hue, an angle, by saturation and lightness, percentages, and by opacity. -/
structure Hsl (α : Type) where
  /-- The angle on the color wheel. -/
  hue : Expr α
  /-- The saturation. -/
  saturation : Expr α
  /-- The lightness. -/
  lightness : Expr α
  /-- The opacity. -/
  alpha : Expr α
  deriving Repr

namespace Hsl

variable {α : Type}

/-- The number of nodes of the four fields. -/
def nodeCount (c : Hsl α) : Nat :=
  c.hue.nodeCount + c.saturation.nodeCount + c.lightness.nodeCount + c.alpha.nodeCount

/-- The color with simplified fields. -/
def simplify [Scalar α] (c : Hsl α) : Hsl α :=
  ⟨c.hue.simplify, c.saturation.simplify, c.lightness.simplify, c.alpha.simplify⟩

end Hsl

/-- The keywords for a color that is not known before the style sheet is used. -/
inductive Dynamic where
  /-- The color of the text. -/
  | current
  /-- The color of the surrounding element. -/
  | inherit
  deriving DecidableEq, Repr

/-- The keyword in a style sheet. -/
def Dynamic.keyword : Dynamic → String
  | .current => "currentColor"
  | .inherit => "inherit"

/-- The functions that build a color from other colors. -/
inductive Composite where
  /-- A color between two colors. -/
  | mix
  /-- A color with scaled saturation and lightness. -/
  | shade
  /-- A color with scaled opacity. -/
  | alpha
  /-- A shade with a fixed factor. -/
  | lighter
  /-- A shade with a fixed factor. -/
  | darker
  deriving DecidableEq, Repr

namespace Composite

/-- The name of the function. -/
def name : Composite → String
  | .mix => "mix"
  | .shade => "shade"
  | .alpha => "alpha"
  | .lighter => "lighter"
  | .darker => "darker"

/-- The function with a name, in any case of the letters. -/
def ofName? (name : String) : Option Composite :=
  match Text.asciiLower name with
  | "mix" => some .mix
  | "shade" => some .shade
  | "alpha" => some .alpha
  | "lighter" => some .lighter
  | "darker" => some .darker
  | _ => none

end Composite

/-- A color expression. -/
inductive Color (α : Type) where
  /-- A color by red, green and blue. -/
  | rgb (color : Rgb α)
  /-- A color by hue, saturation and lightness. -/
  | hsl (color : Hsl α)
  /-- The color at `factor` of the way from `a` to `b`. -/
  | mix (a b : Color α) (factor : Expr α)
  /-- The color with saturation and lightness scaled by `factor`. -/
  | shade (color : Color α) (factor : Expr α)
  /-- The color with its opacity scaled by `factor`. -/
  | alpha (color : Color α) (factor : Expr α)
  /-- The color shaded by a fixed factor. -/
  | lighter (color : Color α)
  /-- The color shaded by a fixed factor. -/
  | darker (color : Color α)
  /-- A color that the style sheet defines under a name. -/
  | defined (name : String)
  /-- A color with a common name. -/
  | named (name : String)
  /-- A color that is not known before the style sheet is used. -/
  | dynamic (keyword : Dynamic)
  deriving Repr

/-- A color without composite functions and names. -/
inductive Canonical (α : Type) where
  /-- A color by red, green and blue. -/
  | rgb (color : Rgb α)
  /-- A color by hue, saturation and lightness. -/
  | hsl (color : Hsl α)
  /-- A color that is not known before the style sheet is used. -/
  | dynamic (keyword : Dynamic)
  deriving Repr

/-- The number of nodes of all fields. -/
def Canonical.nodeCount {α : Type} : Canonical α → Nat
  | .rgb color => color.nodeCount
  | .hsl color => color.nodeCount
  | .dynamic _ => 0

end ThemeColor
