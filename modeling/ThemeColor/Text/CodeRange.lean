/-!
# Sets of characters given by ranges

A property of characters is a list of ranges of code points.
-/

namespace ThemeColor.Text

/-- Whether the code point of a character lies in one of the ranges, whose ends belong to them. -/
def inRanges (ranges : List (Nat × Nat)) (c : Char) : Bool :=
  ranges.any fun (first, last) => decide (first ≤ c.toNat) && decide (c.toNat ≤ last)

end ThemeColor.Text
