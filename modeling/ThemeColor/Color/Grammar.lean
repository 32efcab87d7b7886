import ThemeColor.Color.Basic
import ThemeColor.Color.Number

/-!
# Color expressions in text

`Color.parse` reads a color expression: hexadecimal digits after `#`, a defined color after `@`, a
keyword or a name, `rgb()` and `hsl()` with channels separated by commas or by blanks, or a
composite function of other colors.
-/

namespace ThemeColor

open Component

namespace Hex

/-- The bytes that hexadecimal digits write: one digit for each of three or four bytes, which counts
twice, or two digits for each. -/
def readBytes : List Char → Option (List Nat)
  | [a, b, c] => some ([a, b, c].map fun d => Scan.hexValue [d, d])
  | [a, b, c, d] => some ([a, b, c, d].map fun e => Scan.hexValue [e, e])
  | [a, b, c, d, e, f] => some [Scan.hexValue [a, b], Scan.hexValue [c, d], Scan.hexValue [e, f]]
  | [a, b, c, d, e, f, g, h] =>
    some [Scan.hexValue [a, b], Scan.hexValue [c, d], Scan.hexValue [e, f], Scan.hexValue [g, h]]
  | _ => none

/-- The color with the given bytes: red, green, blue and perhaps an opacity. -/
def ofBytes? : List Nat → Option (Rgb Float)
  | [red, green, blue] => some (.opaqueOf (.ofNat red) (.ofNat green) (.ofNat blue))
  | [red, green, blue, alpha] =>
    some ⟨.number (.ofNat red), .number (.ofNat green), .number (.ofNat blue),
      .number (Float.ofNat alpha / 255.0)⟩
  | _ => none

/-- The color that the digits after `#` write. -/
def read? (value : String) : Option (Rgb Float) :=
  if value.toList.all Scan.isHexDigit then (readBytes value.toList).bind ofBytes? else none

end Hex

namespace ColorGrammar

/-- The color of a keyword or a common name. -/
def keyword (name : String) : Color Float :=
  if Text.sameIgnoringCase name "currentcolor" then .dynamic .current
  else if Text.sameIgnoringCase name "inherit" then .dynamic .inherit
  else .named name

/-- The error of a value whose unit its place does not allow. -/
def badUnit (segment : Segment) (unit : String) : ColorError :=
  .malformed segment.start (.badUnit unit segment.text)

/-- A channel from 0 to 255, or a percentage of 255. -/
def rgbChannel (levels : Nat) (segment : Segment) : Except ColorError (Expr Float) := do
  match ← segment.number levels with
  | .quantity q =>
    if q.unit = "%" then pure (.number (q.value * 2.55))
    else if q.isUnitless then pure (.quantity q)
    else throw (badUnit segment q.unit)
  | e => pure e

/-- An opacity from 0 to 1, or a percentage; full if there is none. -/
def alphaValue (levels : Nat) (segment : Option Segment) : Except ColorError (Expr Float) := do
  match segment with
  | none => pure (.number 1.0)
  | some segment =>
    match ← segment.number levels with
    | .quantity q =>
      if q.unit = "%" then pure (.number (q.value / 100.0))
      else if q.isUnitless then pure (.quantity q)
      else throw (badUnit segment q.unit)
    | e => pure e

/-- The units of an angle; a plain number counts degrees. -/
def isAngleUnit (unit : String) : Bool :=
  ["", "deg", "grad", "rad", "turn"].contains (Text.asciiLower unit)

/-- An angle. -/
def hue (levels : Nat) (segment : Segment) : Except ColorError (Expr Float) := do
  match ← segment.number levels with
  | .quantity q => if isAngleUnit q.unit then pure (.quantity q) else throw (badUnit segment q.unit)
  | e => pure e

/-- A percentage, for which a plain number may stand. -/
def percentage (levels : Nat) (segment : Segment) : Except ColorError (Expr Float) := do
  match ← segment.number levels with
  | .quantity q =>
    if q.isUnitless then pure (.percent q.value)
    else if q.unit = "%" then pure (.quantity q)
    else throw (badUnit segment q.unit)
  | e => pure e

/-- Whether the component is a slash. -/
def isSlash (c : Component) : Bool := isToken (.delim '/') c

/-- Channels separated by blanks, with the opacity after a slash. -/
def spacedChannels (segment : Segment) : Except ColorError (List Segment × Option Segment) :=
  match Segment.splitOn isSlash segment.stop segment.parts with
  | [channels, alpha] =>
    match alpha.words with
    | [alpha] => .ok (channels.words, some alpha)
    | _ => .error (.malformed segment.start .alphaCount)
  | _ :: _ :: _ :: _ =>
    match segment.parts.filter isSlash with
    | _ :: second :: _ => .error (second.unexpected .afterAlpha)
    | _ => .ok (segment.words, none)
  | _ => .ok (segment.words, none)

/-- Channels separated by commas, with the opacity as the fourth one. -/
def commaChannels (args : List Segment) : Except ColorError (List Segment × Option Segment) :=
  match (args.flatMap (·.parts)).find? isSlash with
  | some slash => .error (slash.unexpected .commaChannels)
  | none =>
    match args with
    | [first, second, third, alpha] => .ok ([first, second, third], some alpha)
    | _ => .ok (args, none)

/-- The three channels and the optional opacity of a function. -/
def channels (opener : Lexeme) (name : String) (inside : Segment) :
    Except ColorError ((Segment × Segment × Segment) × Option Segment) := do
  let args ← inside.arguments
  let (channels, alpha) ←
    match args with
    | [only] => spacedChannels only
    | _ => commaChannels args
  match channels with
  | [first, second, third] => pure ((first, second, third), alpha)
  | _ => throw (.malformed opener.start (.channelCount name channels.length))

/-- The color of `rgb()`. -/
def rgb (levels : Nat) (opener : Lexeme) (name : String) (inside : Segment) :
    Except ColorError (Color Float) := do
  let ((red, green, blue), alpha) ← channels opener name inside
  let red ← rgbChannel levels red
  let green ← rgbChannel levels green
  let blue ← rgbChannel levels blue
  let alpha ← alphaValue levels alpha
  pure (.rgb ⟨red, green, blue, alpha⟩)

/-- The color of `hsl()`. -/
def hsl (levels : Nat) (opener : Lexeme) (name : String) (inside : Segment) :
    Except ColorError (Color Float) := do
  let ((first, second, third), alpha) ← channels opener name inside
  let hue ← hue levels first
  let saturation ← percentage levels second
  let lightness ← percentage levels third
  let alpha ← alphaValue levels alpha
  pure (.hsl ⟨hue, saturation, lightness, alpha⟩)

/-- The color of a composite function, given how to read the colors and numbers inside it. -/
def composite (color : Segment → Except ColorError (Color Float)) (levels : Nat)
    (function : Composite) (opener : Lexeme) (name : String) (inside : Segment) :
    Except ColorError (Color Float) := do
  let args ← inside.arguments
  let wrongCount (expected : Nat) : Except ColorError (Color Float) :=
    throw (.malformed opener.start (.argumentCount name expected args.length))
  match function with
  | .mix =>
    match args with
    | [a, b, factor] =>
      let a ← color a
      let b ← color b
      let factor ← factor.number levels
      pure (.mix a b factor)
    | _ => wrongCount 3
  | .shade =>
    match args with
    | [operand, factor] =>
      let operand ← color operand
      let factor ← factor.number levels
      pure (.shade operand factor)
    | _ => wrongCount 2
  | .alpha =>
    match args with
    | [operand, factor] =>
      let operand ← color operand
      let factor ← factor.number levels
      pure (.alpha operand factor)
    | _ => wrongCount 2
  | .lighter =>
    match args with
    | [operand] => .lighter <$> color operand
    | _ => wrongCount 1
  | .darker =>
    match args with
    | [operand] => .darker <$> color operand
    | _ => wrongCount 1

/-- The color of a single token. -/
def token (lexeme : Lexeme) : Except ColorError (Color Float) :=
  match lexeme.token with
  | .hash value =>
    match Hex.read? value with
    | some color => .ok (.rgb color)
    | none => .error (.malformed lexeme.start (.invalidHex value))
  | .atKeyword name => .ok (.defined name)
  | .ident name => .ok (keyword name)
  | _ => .error (.malformed lexeme.start (.notAColor (String.ofList lexeme.text)))

/-- The error of more than one component where one color is expected. A function is read as a
whole; of anything else only the first token is. -/
def trailing (first : Component) (rest : List Component) : ColorError :=
  let after :=
    match first with
    | .block opener body closer =>
      match opener.token with
      | .function _ => lexemesAll rest
      | _ => lexemesAll body ++ closer :: lexemesAll rest
    | .token _ => lexemesAll rest
  match after with
  | next :: _ => unexpectedLexeme next .afterColor
  | [] => .malformed first.start .expectedColor

/-- Reads a color that may nest `levels` levels. -/
def read : (levels : Nat) → Segment → Except ColorError (Color Float)
  | 0, _ => .error .tooDeep
  | levels + 1, segment =>
    let segment := segment.trim
    match segment.parts with
    | [] => .error (.malformed segment.stop .expectedColor)
    | [.token lexeme] => token lexeme
    | [.block opener body closer] =>
      match opener.token with
      | .function name =>
        let inside : Segment := ⟨body, closer.start⟩
        match Text.asciiLower name with
        | "rgb" | "rgba" => rgb levels opener name inside
        | "hsl" | "hsla" => hsl levels opener name inside
        | _ =>
          match Composite.ofName? name with
          | some function => composite (read levels) levels function opener name inside
          | none => .error (.malformed opener.start (.unknownFunction name))
      | _ => .error (trailing (.block opener body closer) [])
    | first :: rest => .error (trailing first rest)

end ColorGrammar

/-- Reads a color expression. -/
def Segment.color (segment : Segment) : Except ColorError (Color Float) :=
  ColorGrammar.read (nestingLimit + 1) segment

/-- The color expression that a text writes. -/
def Color.parse (text : String) : Except ColorError (Color Float) := do
  let lexemes := Text.trimWhile (·.token.isWhitespace) (Lexeme.contents text.toList)
  if lexemes.isEmpty then throw (.malformed 0 .emptyExpression)
  let parts ← forest lexemes
  Segment.color ⟨parts, Text.byteSize text.toList⟩

end ThemeColor
