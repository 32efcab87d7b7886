import ThemeColor.Token.Numeral
import ThemeColor.Number.Format
import ThemeColor.Text.Span

/-!
# Tokens

The tokens of a style sheet, and lexemes: tokens together with the text they were read from and
the comments in front of it.
-/

namespace ThemeColor

/-- The three kinds of bracket. -/
inductive Bracket where
  /-- The pair `(` and `)`, which also closes functions. -/
  | paren
  /-- The pair `[` and `]`. -/
  | square
  /-- The pair of braces. -/
  | curly
  deriving DecidableEq, Repr

namespace Bracket

/-- The opening character. -/
def opening : Bracket → Char
  | .paren => '('
  | .square => '['
  | .curly => '{'

/-- The closing character. -/
def closing : Bracket → Char
  | .paren => ')'
  | .square => ']'
  | .curly => '}'

end Bracket

/-- A token of a style sheet. -/
inductive Token where
  /-- A name. -/
  | ident (name : String)
  /-- A name directly followed by `(`. -/
  | function (name : String)
  /-- A name after `@`. -/
  | atKeyword (name : String)
  /-- A name after `#`. -/
  | hash (value : String)
  /-- A quoted text. -/
  | string (value : String)
  /-- A quoted text that a line end cuts off. -/
  | badString
  /-- An unquoted address between `url(` and `)`. -/
  | url (value : String)
  /-- An unquoted address with characters it must not have. -/
  | badUrl
  /-- A single character without a meaning of its own. -/
  | delim (char : Char)
  /-- A number. -/
  | number (value : Numeral)
  /-- A number followed by `%`. -/
  | percentage (value : Numeral)
  /-- A number followed by a unit. -/
  | dimension (value : Numeral) (unit : String)
  /-- A run of blank characters. -/
  | whitespace
  /-- The mark `<!--`. -/
  | markupOpen
  /-- The mark `-->`. -/
  | markupClose
  /-- The character `:`. -/
  | colon
  /-- The character `;`. -/
  | semicolon
  /-- The character `,`. -/
  | comma
  /-- An opening bracket. -/
  | opener (bracket : Bracket)
  /-- A closing bracket. -/
  | closer (bracket : Bracket)
  /-- The end of the text. -/
  | eof
  deriving DecidableEq, Repr

namespace Token

/-- The bracket that a function or an opening bracket opens. -/
def opens? : Token → Option Bracket
  | .function _ => some .paren
  | .opener bracket => some bracket
  | _ => none

/-- The bracket that a closing bracket closes. -/
def closes? : Token → Option Bracket
  | .closer bracket => some bracket
  | _ => none

/-- Whether the token is the end of the text. -/
def isEof : Token → Bool
  | .eof => true
  | _ => false

/-- Whether the token is a run of blank characters. -/
def isWhitespace : Token → Bool
  | .whitespace => true
  | _ => false

/-- Whether the token is a number with a written sign. -/
def isSignedNumber : Token → Bool
  | .number value | .percentage value | .dimension value _ => value.isSigned
  | _ => false

/-- The kind and contents of the token between angle brackets. -/
def describe : Token → String
  | .ident name => "<ident:" ++ name ++ ">"
  | .function name => "<function:" ++ name ++ "(>"
  | .atKeyword name => "<at-keyword:@" ++ name ++ ">"
  | .hash value => "<hash:#" ++ value ++ ">"
  | .string value => "<string:\"" ++ value ++ "\">"
  | .badString => "<bad-string>"
  | .url value => "<url:" ++ value ++ ">"
  | .badUrl => "<bad-url>"
  | .delim char => "<delim:" ++ char.toString ++ ">"
  | .number value => "<number:" ++ Number.positional value.toFloat ++ ">"
  | .percentage value => "<percentage:" ++ Number.positional value.toFloat ++ "%>"
  | .dimension value unit => "<dimension:" ++ Number.positional value.toFloat ++ unit ++ ">"
  | .whitespace => "<whitespace>"
  | .markupOpen => "<CDO>"
  | .markupClose => "<CDC>"
  | .colon => "<colon>"
  | .semicolon => "<semicolon>"
  | .comma => "<comma>"
  | .opener bracket => "<" ++ bracket.opening.toString ++ ">"
  | .closer bracket => "<" ++ bracket.closing.toString ++ ">"
  | .eof => "<EOF>"

end Token

/-- A token at its place in a text. -/
structure Lexeme where
  /-- The token. -/
  token : Token
  /-- The comments between the token before and this one. -/
  gap : List Char
  /-- The characters the token was read from. -/
  text : List Char
  /-- The byte position of the first of them. -/
  start : Nat
  deriving DecidableEq, Repr

namespace Lexeme

/-- The byte position after the token. -/
def stop (l : Lexeme) : Nat := l.start + Text.byteSize l.text

/-- The bytes the token was read from. -/
def span (l : Lexeme) : Span := ⟨l.start, l.stop⟩

/-- The part of a text at the place of the token; empty if there is no such part. -/
def textIn (l : Lexeme) (source : List Char) : List Char := (l.span.slice? source).getD []

end Lexeme

end ThemeColor
