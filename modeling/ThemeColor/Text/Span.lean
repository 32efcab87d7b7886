/-!
# Byte spans

Positions in a text are counted in bytes of its UTF-8 form. A span names the part of a text
between two positions; it slices the text only when both of them fall between characters. An edit
replaces the part under a span.
-/

namespace ThemeColor.Text

/-- The number of bytes a text takes in UTF-8. -/
def byteSize (text : List Char) : Nat :=
  text.foldl (fun size c => size + c.utf8Size) 0

/-- The text after its first `count` bytes, unless that splits a character or passes the end. -/
def dropBytes? : (count : Nat) → List Char → Option (List Char)
  | 0, text => some text
  | _ + 1, [] => none
  | count + 1, c :: rest =>
    if c.utf8Size ≤ count + 1 then dropBytes? (count + 1 - c.utf8Size) rest else none

/-- The first `count` bytes of the text, unless that splits a character or passes the end. -/
def takeBytes? : (count : Nat) → List Char → Option (List Char)
  | 0, _ => some []
  | _ + 1, [] => none
  | count + 1, c :: rest =>
    if c.utf8Size ≤ count + 1 then (takeBytes? (count + 1 - c.utf8Size) rest).map (c :: ·)
    else none

end ThemeColor.Text

namespace ThemeColor

open Text

/-- The bytes from `start` up to but not including `stop`. -/
structure Span where
  /-- The position of the first byte. -/
  start : Nat
  /-- The position after the last byte. -/
  stop : Nat
  deriving DecidableEq, Repr

namespace Span

/-- The part of the text under the span, unless an end splits a character or lies outside. -/
def slice? (span : Span) (text : List Char) : Option (List Char) :=
  if span.start ≤ span.stop then
    (dropBytes? span.start text).bind (takeBytes? (span.stop - span.start))
  else none

end Span

/-- The replacement of the text under a span. -/
structure Edit where
  /-- The part to replace. -/
  span : Span
  /-- What stands there afterwards. -/
  replacement : List Char
  deriving DecidableEq, Repr

namespace Edit

/-- The text from byte `position` on with the edits applied, from left to right. Edits come in
ascending order; one that starts before `position` or inside a character is left out. -/
def spliceFrom (text : List Char) (position : Nat) : List Edit → List Char
  | [] => (dropBytes? position text).getD []
  | edit :: edits =>
    match Span.slice? ⟨position, edit.span.start⟩ text with
    | some kept => kept ++ edit.replacement ++ spliceFrom text edit.span.stop edits
    | none => spliceFrom text position edits

/-- The text with each edited part replaced and everything else kept. -/
def splice (text : List Char) (edits : List Edit) : List Char := spliceFrom text 0 edits

/-- The text with the part under the span replaced, unless an end of the span splits a character or
lies outside. -/
def replace? (edit : Edit) (text : List Char) : Option (List Char) :=
  if edit.span.start ≤ edit.span.stop then do
    let before ← takeBytes? edit.span.start text
    let after ← dropBytes? edit.span.stop text
    some (before ++ edit.replacement ++ after)
  else none

/-- Makes the edits in the text one after the other, the last one first, so that the spans of the
others stay valid. -/
def replaceBackwards? (edits : List Edit) (text : List Char) : Option (List Char) :=
  edits.foldr (fun edit text => text.bind edit.replace?) (some text)

end Edit

end ThemeColor
