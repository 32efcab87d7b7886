import ThemeColor.Color.Grammar

/-!
# Documents

A document is the text of a value together with the color expressions in it: every reference to a
defined color and every call of a composite function, and what each of them stands for.
-/

namespace ThemeColor

/-- Texts with the colors they stand for, in ascending order of the texts. -/
abbrev Matches := List (String × Color Float)

/-- The matches with one more text; the color of a text that is there already is replaced. -/
def Matches.insert (key : String) (color : Color Float) : Matches → Matches
  | [] => [(key, color)]
  | (k, c) :: rest =>
    if key < k then (key, color) :: (k, c) :: rest
    else if key = k then (key, color) :: rest
    else (k, c) :: Matches.insert key color rest

/-- A text with the color expressions in it. -/
structure Document where
  /-- The text. -/
  text : List Char
  /-- Each text of an expression and its color. -/
  found : Matches
  /-- The places of the expressions in the text, in ascending order. -/
  spans : List Span

namespace Document

/-- Whether no color expression is in the text. -/
def isEmpty (d : Document) : Bool := d.found.isEmpty

/-- A color expression at its place. -/
structure Occurrence where
  /-- The place. -/
  span : Span
  /-- The text at the place. -/
  key : List Char
  /-- The color. -/
  color : Color Float

/-- The color expressions in a list of lexemes. Everything that is neither a reference nor a
composite function is passed over, brackets that do not match included. -/
def occurrences (input : List Lexeme) : Except ColorError (List Occurrence) :=
  match input with
  | [] => .ok []
  | l :: rest =>
    match l.token with
    | .atKeyword name => (occurrences rest).map (⟨l.span, l.text, .defined name⟩ :: ·)
    | .function name =>
      if (Composite.ofName? name).isSome then
        match h : Component.readBlock l .paren rest with
        | .error e => .error e
        | .ok (block, after) => do
          have := Component.length_of_readBlock h
          let lexemes := block.lexemes
          let span := Lexeme.spanOf l lexemes
          let color ← Segment.color ⟨[block], span.stop⟩
          (occurrences after).map (⟨span, Lexeme.join lexemes, color⟩ :: ·)
      else occurrences rest
    | _ => occurrences rest
termination_by input.length
decreasing_by
  all_goals
    simp only [List.length_cons]
    omega

/-- The document with the given color expressions. -/
def ofOccurrences (text : List Char) (found : List Occurrence) : Document where
  text
  found := found.foldl (fun matched o => matched.insert (String.ofList o.key) o.color) []
  spans := found.map (·.span)

/-- Finds the color expressions in a text. -/
def parse (text : List Char) : Except ColorError Document :=
  (occurrences (Lexeme.contents text)).map (ofOccurrences text)

end Document

end ThemeColor
