import ThemeColor.Text.CodeRange

/-!
# Blank characters

The characters with the property `White_Space`, and texts without blank ends.
-/

namespace ThemeColor.Text

/-- The ranges of the property `White_Space`. -/
def blankRanges : List (Nat × Nat) :=
  [(0x9, 0xd), (0x20, 0x20), (0x85, 0x85), (0xa0, 0xa0), (0x1680, 0x1680), (0x2000, 0x200a),
   (0x2028, 0x2029), (0x202f, 0x202f), (0x205f, 0x205f), (0x3000, 0x3000)]

/-- Spaces, tabs, line ends and the other characters with the property `White_Space`. -/
def isBlank (c : Char) : Bool := inRanges blankRanges c

/-- The text without the elements satisfying `p` at its end. -/
def dropEndWhile {α : Type} (p : α → Bool) (text : List α) : List α :=
  (text.reverse.dropWhile p).reverse

/-- The text without the elements satisfying `p` at both ends. -/
def trimWhile {α : Type} (p : α → Bool) (text : List α) : List α :=
  dropEndWhile p (text.dropWhile p)

/-- The text without blank characters at both ends. -/
def trim (text : List Char) : List Char := trimWhile isBlank text

end ThemeColor.Text
