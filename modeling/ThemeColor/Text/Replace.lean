/-!
# Occurrences of a pattern

Whether a pattern occurs in a text, and the text with all its occurrences replaced.
-/

namespace ThemeColor.Text

/-- Whether the pattern occurs in the text. -/
def occursIn (pattern : List Char) : List Char → Bool
  | [] => pattern.isEmpty
  | c :: rest => pattern.isPrefixOf (c :: rest) || occursIn pattern rest

/-- Replaces the occurrences of a pattern from left to right. The next `skip` characters belong to
an occurrence that is replaced already, and `done` holds what was written, the last character
first. -/
def replaceFrom (pattern replacement : List Char) (skip : Nat) (done : List Char) :
    List Char → List Char
  | [] => done.reverse
  | c :: rest =>
    match skip with
    | skip + 1 => replaceFrom pattern replacement skip done rest
    | 0 =>
      if pattern.isPrefixOf (c :: rest) then
        replaceFrom pattern replacement (pattern.length - 1) (replacement.reverse ++ done) rest
      else replaceFrom pattern replacement 0 (c :: done) rest

/-- The text with every occurrence of the pattern replaced, from left to right. The empty pattern
occurs at both ends of the text and between all characters. -/
def replaceAll (pattern replacement text : List Char) : List Char :=
  if pattern.isEmpty then replacement ++ text.flatMap (· :: replacement)
  else replaceFrom pattern replacement 0 [] text

end ThemeColor.Text
