import ThemeColor.Color.Basic
import ThemeColor.Expr.Text
import ThemeColor.Number.Binary

/-!
# Text of canonical colors

A color with known channels is written in the shortest hexadecimal form, any other one in
functional notation without blanks. A full opacity is left out.
-/

namespace ThemeColor

namespace Hex

/-- The byte of a channel: its value after rounding to five decimals, cut off at 0 and 255, without
its decimals. No number is 0. -/
def byte (value : Float) : UInt8 := (Number.roundAwayFromZero (value * 1e5) / 1e5).toUInt8

/-- The lower case digit of a number below 16. -/
def digit (n : Nat) : Char := n.digitChar

/-- The two digits of a byte. -/
def digits (b : UInt8) : List Char := [digit (b.toNat / 16), digit (b.toNat % 16)]

/-- Whether the two digits of a byte are the same. -/
def isDouble (b : UInt8) : Bool := b.toNat / 16 == b.toNat % 16

/-- The digits of the bytes: one for each if all of them have two equal digits, otherwise two. -/
def shortDigits (bytes : List UInt8) : List Char :=
  if bytes.all isDouble then bytes.flatMap fun b => (digits b).take 1 else bytes.flatMap digits

/-- The digits of the bytes after `#`. -/
def text (bytes : List UInt8) : String := String.ofList ('#' :: shortDigits bytes)

end Hex

/-- Whether the opacity is known to be full. -/
def isFullAlpha (alpha : Expr Float) : Bool := alpha.number?.any (1.0 ≤ ·)

namespace Rgb

/-- The bytes of a color with known channels, without the opacity if it is full. -/
def bytes (c : Rgb Float) : List UInt8 :=
  let value (field : Expr Float) : Float := field.number?.getD 0.0
  [Hex.byte (value c.red), Hex.byte (value c.green), Hex.byte (value c.blue)] ++
    if isFullAlpha c.alpha then [] else [Hex.byte (value c.alpha * 255.0)]

end Rgb

/-- A function with three fields, and with a fourth one under a longer name unless it is a full
opacity. -/
def functionText (name : String) (first second third alpha : Expr Float) : String :=
  let fields := first.text ++ "," ++ second.text ++ "," ++ third.text
  if isFullAlpha alpha then name ++ "(" ++ fields ++ ")"
  else name ++ "a(" ++ fields ++ "," ++ alpha.text ++ ")"

/-- The color in a style sheet. -/
def Canonical.css : Canonical Float → String
  | .dynamic keyword => keyword.keyword
  | .hsl c => functionText "hsl" c.hue c.saturation c.lightness c.alpha
  | .rgb c =>
    if c.isLiteral then Hex.text c.bytes else functionText "rgb" c.red c.green c.blue c.alpha

end ThemeColor
