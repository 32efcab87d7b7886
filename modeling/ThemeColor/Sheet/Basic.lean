import ThemeColor.Text.Span

/-!
# Style sheets

The rules and declarations of a style sheet, each with the places of its parts in the text. The
places serve to edit the text and leave everything else as it is.
-/

namespace ThemeColor

/-- A property with a value. -/
structure Declaration where
  /-- The property. -/
  name : String
  /-- The place of the value, without blank ends and without `!important`. -/
  value : Span
  /-- Whether the value is marked as important. -/
  important : Bool
  deriving DecidableEq, Repr

/-- The heading of an at-rule. -/
structure AtHeading where
  /-- The name after `@`. -/
  name : String
  /-- The place of what follows the name, without blank ends. -/
  prelude : Span
  /-- The place of the whole rule, from `@` to its last semicolon or brace. -/
  span : Span
  deriving DecidableEq, Repr

/-- A rule. -/
inductive Rule where
  /-- A selector with declarations. -/
  | style (prelude : Span) (declarations : List Declaration)
  /-- An at-rule without a block. -/
  | statement (heading : AtHeading)
  /-- An at-rule with rules inside. -/
  | group (heading : AtHeading) (rules : List Rule)
  /-- An at-rule with declarations inside. -/
  | page (heading : AtHeading) (declarations : List Declaration)
  deriving Repr

end ThemeColor
