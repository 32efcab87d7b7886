import ThemeColor.Text.Replace

/-!
# Placeholders

A placeholder stands for a color expression while a text is being recolored. It is a number between
two private characters, and it is chosen so that it does not occur in the text.
-/

namespace ThemeColor

/-- A source of numbered placeholders. -/
structure PlaceholderCounter where
  /-- The number of the next placeholder. -/
  next : UInt64
  deriving DecidableEq, Repr

namespace PlaceholderCounter

/-- The character in front of the number. -/
def opening : Char := '\ue000'

/-- The character behind the number. -/
def closing : Char := '\ue001'

/-- The placeholder with a number. -/
def placeholder (n : UInt64) : List Char :=
  opening :: (Nat.toDigits 10 n.toNat ++ [closing])

/-- Takes the first of the next `fuel + 1` placeholders that does not occur in the text, or the last
one of them. -/
def takeFrom (text : List Char) : (fuel : Nat) → PlaceholderCounter →
    List Char × PlaceholderCounter
  | 0, counter => (placeholder counter.next, ⟨counter.next + 1⟩)
  | fuel + 1, counter =>
    if Text.occursIn (placeholder counter.next) text then takeFrom text fuel ⟨counter.next + 1⟩
    else (placeholder counter.next, ⟨counter.next + 1⟩)

/-- Takes the next placeholder that does not occur in the text. Each one that does takes an opening
character of the text, so there are no more of them than opening characters. -/
def take (text : List Char) (counter : PlaceholderCounter) : List Char × PlaceholderCounter :=
  takeFrom text (text.count opening) counter

/-- Takes a placeholder for each of the texts, one after the other. -/
def takeAll : List (List Char) → PlaceholderCounter → List (List Char) × PlaceholderCounter
  | [], counter => ([], counter)
  | text :: texts, counter =>
    let first := take text counter
    let more := takeAll texts first.2
    (first.1 :: more.1, more.2)

end PlaceholderCounter

end ThemeColor
