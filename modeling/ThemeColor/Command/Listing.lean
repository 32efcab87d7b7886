import ThemeColor.Text.Quoted
import ThemeColor.Token.Lexeme

/-!
# Token listing

One line for each token of a text: where it stands, what it is and how it is written, in columns.
-/

namespace ThemeColor.Command

/-- The text, filled up with blanks to a width in characters. -/
def padEnd (width : Nat) (text : String) : String :=
  text ++ String.ofList (List.replicate (width - text.length) ' ')

/-- The line of a lexeme. -/
def listingLine (l : Lexeme) : String :=
  padEnd 12 (toString l.start ++ ".." ++ toString l.stop) ++ " " ++
    padEnd 24 l.token.describe ++ " " ++ Text.quoted (String.ofList l.text) ++ "\n"

/-- The lines of all lexemes of a text. -/
def listing (text : List Char) : String :=
  String.join ((Lexeme.ofText text).map listingLine)

end ThemeColor.Command
