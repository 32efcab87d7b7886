import ThemeColor.Text.Quoted

/-!
# Errors of color expressions

Why a text is no color expression, or why a color expression has no canonical color, each with its
message.
-/

namespace ThemeColor

/-- The number of levels that a color expression may nest. -/
def nestingLimit : Nat := 64

/-- The number of arithmetic nodes that a resolved color may have. -/
def sizeLimit : Nat := 65536

/-- Where a piece of text is out of place. -/
inductive Place where
  /-- A closing bracket that does not match the innermost open one. -/
  | insideBlock
  /-- A closing bracket while none is open. -/
  | outsideBlocks
  /-- Something behind a complete color. -/
  | afterColor
  /-- A slash between channels that are separated by commas. -/
  | commaChannels
  /-- A second slash between channels. -/
  | afterAlpha
  /-- Something that is no part of a number. -/
  | insideNumber
  deriving DecidableEq, Repr

/-- The words for the place. -/
def Place.words : Place → String
  | .insideBlock => "does not close the open block"
  | .outsideBlocks => "without a matching opener"
  | .afterColor => "after color"
  | .commaChannels => "in comma separated color channels"
  | .afterAlpha => "after alpha separator"
  | .insideNumber => "in numeric value"

/-- A way in which a text fails to be a color expression. -/
inductive Fault where
  /-- There is nothing but blanks. -/
  | emptyExpression
  /-- A quoted text has no closing quote. -/
  | unterminatedString
  /-- A piece of text is out of place. -/
  | unexpected (text : String) (place : Place)
  /-- A block is never closed. -/
  | unclosed (text : String)
  /-- There is nothing between two commas. -/
  | emptyArgument
  /-- A function has the wrong number of arguments. -/
  | argumentCount (name : String) (expected found : Nat)
  /-- A color is missing. -/
  | expectedColor
  /-- A token is not a color. -/
  | notAColor (text : String)
  /-- The digits after `#` are not those of a color. -/
  | invalidHex (value : String)
  /-- A function does not make a color. -/
  | unknownFunction (name : String)
  /-- A function has the wrong number of channels. -/
  | channelCount (name : String) (found : Nat)
  /-- There is not exactly one value after the slash. -/
  | alphaCount
  /-- A value has a unit that its place does not allow. -/
  | badUnit (unit text : String)
  /-- A number is missing. -/
  | expectedNumber
  /-- A function has no argument. -/
  | needsArgument (name : String)
  deriving DecidableEq, Repr

/-- The message of the fault. -/
def Fault.message : Fault → String
  | .emptyExpression => "empty color expression"
  | .unterminatedString => "unterminated string"
  | .unexpected text place => "unexpected `" ++ text ++ "` " ++ place.words
  | .unclosed text => "unclosed `" ++ text ++ "`"
  | .emptyArgument => "empty argument"
  | .argumentCount name expected found =>
    "`" ++ name ++ "()` takes " ++ toString expected ++
      (if expected = 1 then " argument" else " arguments") ++ ", found " ++ toString found
  | .expectedColor => "expected a color"
  | .notAColor text => "`" ++ text ++ "` is not a color"
  | .invalidHex value => "invalid hex color `#" ++ value ++ "`"
  | .unknownFunction name => "unknown color function `" ++ name ++ "()`"
  | .channelCount name found =>
    "`" ++ name ++ "()` takes 3 channels and an optional alpha, found " ++ toString found ++
      " channels"
  | .alphaCount => "expected exactly one alpha value after `/`"
  | .badUnit unit text => "unit `" ++ unit ++ "` is not allowed in `" ++ text ++ "`"
  | .expectedNumber => "expected a number"
  | .needsArgument name => "`" ++ name ++ "()` needs at least one argument"

/-- A color of the wrong kind. -/
inductive ModelFault where
  /-- No color has the name. -/
  | unknownName (name : String)
  /-- The function takes colors by red, green and blue only. -/
  | hslOperand (function : String)
  /-- A definition needs a color by red, green and blue. -/
  | needsRgb (css : String)
  deriving DecidableEq, Repr

/-- The message of the fault. -/
def ModelFault.message : ModelFault → String
  | .unknownName name => "`" ++ name ++ "` is not a known RGB color"
  | .hslOperand function => "`" ++ function ++ "()` only combines rgb colors, found an hsl color"
  | .needsRgb css => "@define-color needs an rgb color, found `" ++ css ++ "`"

/-- Why there is no color. -/
inductive ColorError where
  /-- The text is no color expression; the fault is at a byte position. -/
  | malformed (offset : Nat) (fault : Fault)
  /-- A color is of the wrong kind. -/
  | unsupportedModel (fault : ModelFault)
  /-- A name does not make the name of a custom property. -/
  | invalidIdentifier (identifier : String)
  /-- The expression nests deeper than `nestingLimit`. -/
  | tooDeep
  /-- The resolved color has more than `sizeLimit` nodes. -/
  | tooLarge
  deriving DecidableEq, Repr

namespace ColorError

/-- Whether the text is no color expression. -/
def isMalformed : ColorError → Bool
  | .malformed _ _ => true
  | _ => false

/-- The message of the error. -/
def message : ColorError → String
  | .malformed offset fault =>
    "syntax error at byte " ++ toString offset ++ ": " ++ fault.message
  | .unsupportedModel fault => "unsupported color model: " ++ fault.message
  | .invalidIdentifier identifier =>
    "cannot convert " ++ Text.quoted identifier ++ " to a custom property name"
  | .tooDeep => "expression nests deeper than " ++ toString nestingLimit ++ " levels"
  | .tooLarge => "resolved color exceeds " ++ toString sizeLimit ++ " arithmetic nodes"

end ColorError

end ThemeColor
