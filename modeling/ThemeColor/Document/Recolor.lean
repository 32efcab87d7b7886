import ThemeColor.Color.Css
import ThemeColor.Color.Resolve
import ThemeColor.Document.Basic
import ThemeColor.Document.Placeholder

/-!
# Recoloring documents

Every color expression of a document is replaced by the text of its canonical color. The
expressions are first replaced by placeholders and then the placeholders by the colors, so that
text which only looks like an expression stays as it is.
-/

namespace ThemeColor

open Text

/-- A computation that takes placeholders from a source with states of type `σ`, records warnings
and may fail. What was taken and recorded before a failure is kept. -/
abbrev RecolorM (σ : Type) := ExceptT ColorError (StateT σ (StateM (List Warning)))

/-- Takes a placeholder for a text. -/
abbrev PlaceholderSource (σ : Type) := (text : List Char) → σ → List Char × σ

/-- What stands for a color expression while a document is recolored, and what stands for it
afterwards. -/
structure Replacement where
  /-- The text of the expression. -/
  key : String
  /-- The placeholder. -/
  placeholder : List Char
  /-- The text of the canonical color. -/
  css : List Char
  deriving DecidableEq, Repr

namespace Document

variable {σ : Type}

/-- The color expressions from the longest text to the shortest; texts of one length stay in
ascending order. -/
def longestFirst (found : Matches) : Matches :=
  found.mergeSort fun a b => b.1.utf8ByteSize ≤ a.1.utf8ByteSize

/-- Resolves one color expression and takes a placeholder for it. -/
def replacement (p : Palette Float) (source : PlaceholderSource σ) (text : List Char)
    (found : String × Color Float) : RecolorM σ Replacement := do
  let color ← ExceptT.mk (liftM (p.resolve found.2).run)
  let placeholder ← modifyGet (source text)
  pure ⟨found.1, placeholder, color.css.toList⟩

/-- The edits that put placeholders in the places of the color expressions. A place outside the
text counts as empty. -/
def markers (d : Document) (replacements : List Replacement) : List Edit :=
  d.spans.filterMap fun span =>
    let key := String.ofList ((span.slice? d.text).getD [])
    (replacements.find? (·.key == key)).map fun r => ⟨span, r.placeholder⟩

/-- Replaces each placeholder by its color, one after the other. -/
def fillIn (replacements : List Replacement) (text : List Char) : List Char :=
  replacements.foldl (fun text r => replaceAll r.placeholder r.css text) text

/-- The text of the document with its color expressions replaced. -/
def recolorWith (p : Palette Float) (source : PlaceholderSource σ) (d : Document) :
    RecolorM σ (List Char) := do
  let replacements ← (longestFirst d.found).mapM (replacement p source d.text)
  pure (fillIn replacements (Edit.splice d.text (d.markers replacements)))

/-- The text of the document with its color expressions replaced, using the common color names. -/
def recolor (d : Document) : Except ColorError (List Char) :=
  ((((d.recolorWith Palette.default PlaceholderCounter.take).run).run ⟨0⟩).run []).1.1

end Document

end ThemeColor
