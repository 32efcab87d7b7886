import ThemeColor.Text.Casing.Lowercase
import ThemeColor.Text.Casing.Cased

/-!
# Letter case

`asciiLower` changes the 26 letters `A` to `Z` only. `lower` is the full lower case form of a text:
a capital dotted I becomes two characters, and a capital sigma takes its final form at the end of
a word.
-/

namespace ThemeColor.Text

/-- The text with `A` to `Z` in lower case and every other character kept. -/
def asciiLower (text : String) : String := text.map Char.toLower

/-- Whether two texts agree up to the case of the letters `A` to `Z`. -/
def sameIgnoringCase (a b : String) : Bool := asciiLower a == asciiLower b

/-- Whether the code point is a member of the run. -/
def CaseRun.contains (run : CaseRun) (code : Nat) : Bool :=
  decide (run.first ≤ code) && decide (code ≤ run.last) && (code - run.first) % run.step == 0

/-- The lower case form of one character, apart from its neighbours. -/
def lowerChar (c : Char) : List Char :=
  if c = 'İ' then ['i', '\u0307']
  else
    match lowercaseRuns.find? (·.contains c.toNat) with
    | some run => [Char.ofNat ((c.toNat : Int) + run.shift).toNat]
    | none => [c]

/-- Whether a cased character follows, after any number of case-ignorable ones. -/
def reachesCased (text : List Char) : Bool :=
  (text.dropWhile isCaseIgnorable).head?.any isCased

/-- The lower case form of the text, where `before` holds the characters in front of it, the
nearest one first. A sigma is final when a cased character stands before it and none after it. -/
def lowerAfter (before : List Char) : List Char → List Char
  | [] => []
  | c :: rest =>
    let form :=
      if c = 'Σ' then
        if reachesCased before && !reachesCased rest then ['ς'] else ['σ']
      else lowerChar c
    form ++ lowerAfter (c :: before) rest

/-- The lower case form of a text. -/
def lower (text : List Char) : List Char := lowerAfter [] text

end ThemeColor.Text
