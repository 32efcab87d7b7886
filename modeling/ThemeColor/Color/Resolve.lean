import ThemeColor.Color.Hue
import ThemeColor.Color.Blend
import ThemeColor.Color.Named
import ThemeColor.Color.Property

/-!
# Resolving colors

`Color.resolve` replaces names and composite functions by what they stand for until a canonical
color is left. A dynamic keyword inside a composite function is replaced by a fallback color, and
each time a warning is recorded.
-/

namespace ThemeColor

/-- A fallback color was used for an operand of a function. -/
structure Warning where
  /-- The function. -/
  operator : Composite
  /-- The operand that is not known. -/
  operand : Dynamic
  deriving DecidableEq, Repr

/-- The message of the warning. -/
def Warning.message (w : Warning) : String :=
  "`" ++ w.operand.keyword ++ "` cannot be computed at build time inside `" ++ w.operator.name ++
    "()`, using the fallback color"

/-- What names and keywords stand for. -/
structure Palette (α : Type) where
  /-- The named colors. -/
  named : String → Option (Swatch α)
  /-- The color for a keyword where red, green and blue are needed. -/
  rgbFallback : Rgb α
  /-- The color for a keyword where hue, saturation and lightness are needed. -/
  hslFallback : Hsl α

/-- The common names, with opaque black for keywords. -/
def Palette.default {α : Type} [Scalar α] : Palette α where
  named := Swatch.ofName?
  rgbFallback := Rgb.opaqueOf 0.0 0.0 0.0
  hslFallback := ⟨.number 0.0, .percent 0.0, .percent 0.0, .number 1.0⟩

/-- A computation that records warnings and may fail. What was recorded before a failure is
kept. -/
abbrev ResolveM := ExceptT ColorError (StateM (List Warning))

namespace Palette

variable {α : Type} [Scalar α]

/-- Records that a fallback color is used. -/
def warn (operator : Composite) (operand : Dynamic) : ResolveM Unit :=
  modify (· ++ [⟨operator, operand⟩])

/-- An operand by red, green and blue. -/
def rgbOperand (p : Palette α) (operator : Composite) : Canonical α → ResolveM (Rgb α)
  | .rgb color => pure color
  | .hsl _ => throw (.unsupportedModel (.hslOperand operator.name))
  | .dynamic keyword => do
    warn operator keyword
    pure p.rgbFallback

/-- An operand by hue, saturation and lightness. -/
def hslOperand (p : Palette α) (operator : Composite) : Canonical α → ResolveM (Hsl α)
  | .hsl color => pure color
  | .rgb color => pure color.toHsl
  | .dynamic keyword => do
    warn operator keyword
    pure p.hslFallback

/-- The operand with its opacity scaled by a factor. -/
def fadeOperand (p : Palette α) (factor : Expr α) : Canonical α → ResolveM (Canonical α)
  | .rgb color => pure (.rgb (color.fade factor))
  | .hsl color => pure (.hsl (color.fade factor))
  | .dynamic keyword => do
    warn .alpha keyword
    pure (.rgb (p.rgbFallback.fade factor))

/-- The color with a common name. -/
def lookUp (p : Palette α) (name : String) : ResolveM (Rgb α) :=
  match p.named name with
  | some swatch => pure swatch.toRgb
  | none => throw (.unsupportedModel (.unknownName name))

/-- References to the custom properties of a defined color. -/
def refer (name : String) : ResolveM (Rgb α) :=
  match ChannelNames.ofIdentifier name with
  | .ok names => pure ⟨.var names.red, .var names.green, .var names.blue, .var names.alpha⟩
  | .error e => throw e

/-- Runs a step `depth` levels inside the color, and refuses to go too deep or to return too large
a color. -/
def guarded (depth : Nat) (step : ResolveM (Canonical α)) : ResolveM (Canonical α) := do
  if nestingLimit < depth then throw .tooDeep
  let color ← step
  if sizeLimit < color.nodeCount then throw .tooLarge
  pure color

/-- The factor of `lighter()` and `darker()`. -/
def fixedFactor : Expr α := .number 0.8

/-- The canonical color of an expression that stands `depth` levels inside another one. -/
def resolveAt (p : Palette α) : Color α → (depth : Nat) → ResolveM (Canonical α)
  | .rgb color, depth => guarded depth (pure (.rgb color.simplify))
  | .hsl color, depth => guarded depth (pure (.hsl color.simplify))
  | .dynamic keyword, depth => guarded depth (pure (.dynamic keyword))
  | .named name, depth => guarded depth (.rgb <$> p.lookUp name)
  | .defined name, depth => guarded depth (.rgb <$> refer name)
  | .mix a b factor, depth => guarded depth do
    let a ← p.rgbOperand .mix (← resolveAt p a (depth + 1))
    let b ← p.rgbOperand .mix (← resolveAt p b (depth + 1))
    pure (.rgb (a.mix b factor.simplify))
  | .shade color factor, depth => guarded depth do
    let color ← p.hslOperand .shade (← resolveAt p color (depth + 1))
    pure (.hsl (color.shade factor.simplify))
  | .lighter color, depth => guarded depth do
    let color ← p.hslOperand .lighter (← resolveAt p color (depth + 1))
    pure (.hsl (color.shade fixedFactor))
  | .darker color, depth => guarded depth do
    let color ← p.hslOperand .darker (← resolveAt p color (depth + 1))
    pure (.hsl (color.shade fixedFactor))
  | .alpha color factor, depth => guarded depth do
    p.fadeOperand factor.simplify (← resolveAt p color (depth + 1))

/-- The canonical color of an expression. -/
def resolve (p : Palette α) (color : Color α) : ResolveM (Canonical α) := p.resolveAt color 0

end Palette

/-- The canonical color of an expression with the common names, and the warnings on the way. -/
def Color.resolve {α : Type} [Scalar α] (color : Color α) :
    Except ColorError (Canonical α) × List Warning :=
  (Palette.default.resolve color).run []

end ThemeColor
