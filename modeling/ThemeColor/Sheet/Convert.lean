import ThemeColor.Document.Recolor
import ThemeColor.Sheet.Parse

/-!
# Converting style sheets

Every `@define-color` rule is taken out and its color kept in custom properties of one rule at the
end, and every color expression in a declaration is replaced by the text of its canonical color.
Everything else is copied.
-/

namespace ThemeColor

open Text

/-- Why a style sheet cannot be converted. -/
inductive ConvertError where
  /-- The color of a definition cannot be used. -/
  | definition (name : String) (source : ColorError)
  /-- A definition lacks its name or its color, or has a block. -/
  | malformedDefinition (offset : Nat)
  /-- A color expression in a declaration cannot be used. -/
  | declaration (property : String) (source : ColorError)
  deriving DecidableEq, Repr

namespace ConvertError

/-- The error behind the error. -/
def source? : ConvertError → Option ColorError
  | .definition _ source => some source
  | .malformedDefinition _ => none
  | .declaration _ source => some source

/-- The message of the error. -/
def message : ConvertError → String
  | .definition name source => "@define-color " ++ name ++ ": " ++ source.message
  | .malformedDefinition offset => "malformed @define-color rule at byte " ++ toString offset
  | .declaration property source => "declaration " ++ property ++ ": " ++ source.message

end ConvertError

/-- A color that the style sheet defines. -/
structure Definition where
  /-- The name as written. -/
  name : String
  /-- The custom properties that keep the color. -/
  properties : ChannelNames
  /-- The color. -/
  color : Rgb Float
  deriving Repr

namespace Definition

/-- The custom properties with their values. -/
def declarations (d : Definition) : List (String × Expr Float) :=
  d.properties.toList.zip [d.color.red, d.color.green, d.color.blue, d.color.alpha]

/-- The lines that declare the custom properties. -/
def lines (d : Definition) : String :=
  String.join (d.declarations.map fun (property, value) =>
    "  " ++ property ++ ": " ++ value.text ++ ";\n")

end Definition

/-- A converted style sheet. -/
structure Conversion where
  /-- The text. -/
  css : String
  /-- The colors that were defined, in the order of the text. -/
  definitions : List Definition
  /-- The fallback colors that were used. -/
  warnings : List Warning
  deriving Repr

namespace Sheet

/-- A conversion under way. -/
abbrev ConvertM := ExceptT ConvertError (StateT PlaceholderCounter (StateM (List Warning)))

/-- Runs a step whose failure is reported as `f` says. -/
def reporting {α : Type} (f : ColorError → ConvertError) (step : RecolorM PlaceholderCounter α) :
    ConvertM α :=
  ExceptT.mk (Except.mapError f <$> step.run)

/-- What a rule changes: parts of the text, and colors that it defines. -/
structure Changes where
  /-- The edits of the text. -/
  edits : List Edit
  /-- The colors that were defined. -/
  definitions : List Definition

/-- The changes of several rules, in order. -/
def Changes.join (changes : List Changes) : Changes :=
  ⟨changes.flatMap (·.edits), changes.flatMap (·.definitions)⟩

/-- The text under a span; empty if there is none. -/
def textAt (css : List Char) (span : Span) : List Char := (span.slice? css).getD []

/-- A rule together with the line end after it. -/
def removalSpan (css : List Char) (span : Span) : Span :=
  match (dropBytes? span.stop css).getD [] with
  | '\r' :: '\n' :: _ => ⟨span.start, span.stop + 2⟩
  | '\n' :: _ => ⟨span.start, span.stop + 1⟩
  | _ => span

/-- The name and the value of a definition: the text before and after the first blank. -/
def splitDefinition? (prelude : List Char) : Option (List Char × List Char) :=
  match prelude.dropWhile (!isBlank ·) with
  | [] => none
  | _ :: after =>
    match trim after with
    | [] => none
    | value => some (prelude.takeWhile (!isBlank ·), value)

/-- The color of a definition. -/
def definedColor (value : List Char) : RecolorM PlaceholderCounter (Rgb Float) := do
  let color ← ExceptT.mk (pure (Color.parse (String.ofList value)))
  match ← ExceptT.mk (liftM (Palette.default.resolve color).run) with
  | .rgb color => pure color
  | other => throw (.unsupportedModel (.needsRgb other.css))

/-- Takes a definition out of the text. -/
def define (css : List Char) (heading : AtHeading) (hasBlock : Bool) : ConvertM Changes := do
  match splitDefinition? (textAt css heading.prelude), hasBlock with
  | some (name, value), false =>
    let name := String.ofList name
    let (properties, color) ← reporting (.definition name) do
      let properties ← ExceptT.mk (pure (ChannelNames.ofIdentifier name))
      let color ← definedColor value
      pure (properties, color)
    pure ⟨[⟨removalSpan css heading.span, []⟩], [⟨name, properties, color⟩]⟩
  | _, _ => throw (.malformedDefinition heading.span.start)

/-- Recolors the value of a declaration, if a color expression is in it. -/
def recolorDeclaration (css : List Char) (d : Declaration) : ConvertM (List Edit) :=
  reporting (.declaration d.name) do
    let document ← ExceptT.mk (pure (Document.parse (textAt css d.value)))
    if document.isEmpty then pure []
    else
      let value ← document.recolorWith Palette.default PlaceholderCounter.take
      pure [⟨d.value, value⟩]

/-- Recolors the values of some declarations. -/
def recolorDeclarations (css : List Char) (ds : List Declaration) : ConvertM (List Edit) :=
  List.flatten <$> ds.mapM (recolorDeclaration css)

mutual

/-- Recolors the declarations of a rule and of the rules inside it. -/
def recolorRule (css : List Char) : Rule → ConvertM (List Edit)
  | .style _ ds => recolorDeclarations css ds
  | .statement _ => pure []
  | .group _ inner => recolorRules css inner
  | .page _ ds => recolorDeclarations css ds

/-- Recolors the declarations of several rules. -/
def recolorRules (css : List Char) : List Rule → ConvertM (List Edit)
  | [] => pure []
  | rule :: more => do
    let edits ← recolorRule css rule
    let others ← recolorRules css more
    pure (edits ++ others)

end

/-- Whether an at-rule defines a color. -/
def isDefinition (heading : AtHeading) : Bool := sameIgnoringCase heading.name "define-color"

/-- The heading of an at-rule that defines a color, and whether the rule has a block. -/
def definition? : Rule → Option (AtHeading × Bool)
  | .style _ _ => none
  | .statement heading => if isDefinition heading then some (heading, false) else none
  | .group heading _ => if isDefinition heading then some (heading, true) else none
  | .page heading _ => if isDefinition heading then some (heading, true) else none

/-- Converts a rule of the style sheet. -/
def convertRule (css : List Char) (rule : Rule) : ConvertM Changes :=
  match definition? rule with
  | some (heading, hasBlock) => define css heading hasBlock
  | none => (⟨·, []⟩) <$> recolorRule css rule

/-- The text with the edits made in place, from the last one in the text to the first. Edits that do
not fit leave the text as it is. -/
def applyEdits (css : List Char) (edits : List Edit) : List Char :=
  let sorted := edits.mergeSort fun a b => a.span.start ≤ b.span.start
  (Edit.replaceBackwards? sorted css).getD css

/-- The rule with the custom properties of the defined colors. -/
def rootRule (selector : String) (definitions : List Definition) : String :=
  (selector ++ " ").push '{' ++ "\n" ++
    (String.join (definitions.map Definition.lines)).push '}' ++ "\n"

/-- The text with the rule of the defined colors behind it, on a line of its own. -/
def appendRoot (selector : String) (definitions : List Definition) (css : List Char) : String :=
  let gap := if trim css ≠ [] ∧ css.getLast? ≠ some '\n' then "\n" else ""
  String.ofList css ++ gap ++ rootRule selector definitions

/-- Converts a style sheet; the defined colors go to a rule with the given selector. -/
def convert (selector : String) (css : List Char) : Except ConvertError Conversion :=
  let (outcome, warnings) :=
    (((ofText css).mapM (convertRule css)).run.run ⟨0⟩).run []
  outcome.1.map fun changes =>
    let all := Changes.join changes
    let text := applyEdits css all.edits
    { css :=
        if all.definitions.isEmpty then String.ofList text
        else appendRoot selector all.definitions text
      definitions := all.definitions
      warnings }

end Sheet

end ThemeColor
