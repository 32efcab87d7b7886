import ThemeColor.Color.Basic
import ThemeColor.Expr.Text

/-!
# Colors as data

The objects that describe a color expression to other programs, written with two blanks for each
level. The names in an object stand in ascending order.
-/

namespace ThemeColor.Command

/-- A text or an object of named values. -/
inductive Datum where
  /-- A text. -/
  | text (value : String)
  /-- Named values. -/
  | object (fields : List (String × Datum))
  deriving Repr

namespace Datum

/-- One character inside quotes. -/
def escapeChar (c : Char) : List Char :=
  if c = '"' then ['\\', '"']
  else if c = '\\' then ['\\', '\\']
  else if c = '\x08' then ['\\', 'b']
  else if c = '\x0c' then ['\\', 'f']
  else if c = '\n' then ['\\', 'n']
  else if c = '\r' then ['\\', 'r']
  else if c = '\t' then ['\\', 't']
  else if c.toNat < 0x20 then
    ['\\', 'u', '0', '0', (c.toNat / 16).digitChar, (c.toNat % 16).digitChar]
  else [c]

/-- The text in quotes. -/
def quote (value : String) : String :=
  String.ofList ('"' :: (value.toList.flatMap escapeChar ++ ['"']))

/-- The blanks of a level. -/
def indent (level : Nat) : String := String.ofList (List.replicate (2 * level) ' ')

mutual

/-- The value on the given level. -/
def pretty (level : Nat) : Datum → String
  | .text value => quote value
  | .object [] => "{}"
  | .object (field :: fields) =>
    (String.singleton '{' ++ "\n" ++ prettyFields level (field :: fields) ++ "\n" ++
      indent level).push '}'

/-- The fields of an object on the given level, each on lines of its own. -/
def prettyFields (level : Nat) : List (String × Datum) → String
  | [] => ""
  | [(name, value)] => indent (level + 1) ++ quote name ++ ": " ++ pretty (level + 1) value
  | (name, value) :: rest =>
    indent (level + 1) ++ quote name ++ ": " ++ pretty (level + 1) value ++ ",\n" ++
      prettyFields level rest

end

/-- An expression as the text it has in a style sheet. -/
def ofExpr (e : Expr Float) : Datum := .text e.text

/-- A color by red, green and blue. -/
def ofRgb (c : Rgb Float) : Datum :=
  .object [("alpha", ofExpr c.alpha), ("blue", ofExpr c.blue), ("green", ofExpr c.green),
    ("red", ofExpr c.red), ("type", .text "rgb")]

/-- A color by hue, saturation and lightness. -/
def ofHsl (c : Hsl Float) : Datum :=
  .object [("alpha", ofExpr c.alpha), ("hue", ofExpr c.hue), ("lightness", ofExpr c.lightness),
    ("saturation", ofExpr c.saturation), ("type", .text "hsl")]

/-- A keyword. -/
def ofDynamic : Dynamic → Datum
  | .current => .object [("type", .text "current")]
  | .inherit => .object [("type", .text "inherit")]

/-- A color expression. -/
def ofColor : Color Float → Datum
  | .rgb c => ofRgb c
  | .hsl c => ofHsl c
  | .mix a b factor =>
    .object [("a", ofColor a), ("b", ofColor b), ("factor", ofExpr factor), ("type", .text "mix")]
  | .shade color factor =>
    .object [("color", ofColor color), ("factor", ofExpr factor), ("type", .text "shade")]
  | .alpha color factor =>
    .object [("color", ofColor color), ("factor", ofExpr factor), ("type", .text "alpha")]
  | .lighter color => .object [("color", ofColor color), ("type", .text "lighter")]
  | .darker color => .object [("color", ofColor color), ("type", .text "darker")]
  | .defined name => .object [("name", .text name), ("type", .text "defined")]
  | .named name => .object [("name", .text name), ("type", .text "named")]
  | .dynamic keyword => ofDynamic keyword

/-- A canonical color. -/
def ofCanonical : Canonical Float → Datum
  | .rgb c => ofRgb c
  | .hsl c => ofHsl c
  | .dynamic keyword => ofDynamic keyword

end Datum

end ThemeColor.Command
