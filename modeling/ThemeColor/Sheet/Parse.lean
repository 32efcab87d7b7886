import ThemeColor.Sheet.Basic
import ThemeColor.Sheet.Component
import ThemeColor.Text.Blank
import ThemeColor.Text.Casing

/-!
# From tokens to rules

`Sheet.rules` reads the rules of a style sheet and `Sheet.declarations` a list of declarations. Both
take a list of lexemes and return what they read and the lexemes that are left. Nothing is an error:
what is no rule or declaration is passed over.
-/

namespace ThemeColor.Sheet

open Text

/-- The lexemes of `input` in front of `rest`. -/
def consumed (input rest : List Lexeme) : List Lexeme := input.take (input.length - rest.length)

/-- The byte position of the next lexeme; 0 if there is none. -/
def position (rest : List Lexeme) : Nat := (rest.head?.map Lexeme.start).getD 0

/-- The place of the lexemes of `input` in front of `rest`, without blank ends. -/
def trimmedSpan (input rest : List Lexeme) : Span :=
  match trimWhile (·.token.isWhitespace) (consumed input rest) with
  | [] => ⟨position rest, position rest⟩
  | first :: more => Lexeme.spanOf first more

/-- At-rules whose block holds rules. -/
def hasRules (name : String) : Bool :=
  let name := asciiLower name
  ["media", "supports", "layer", "container", "document", "scope", "starting-style"].contains name
    || name.endsWith "keyframes"

/-- What ends a declaration. -/
def endsDeclaration : Token → Bool
  | .semicolon | .closer .curly | .eof => true
  | _ => false

/-- What ends the prelude of an at-rule. -/
def endsAtPrelude : Token → Bool
  | .semicolon | .opener .curly | .closer .curly | .eof => true
  | _ => false

/-- What ends the prelude of a style rule. -/
def endsStylePrelude : Token → Bool
  | .opener .curly | .closer .curly | .eof => true
  | _ => false

/-- Passes over a closing brace, if it comes next. -/
def afterBrace (input : List Lexeme) : Rest input :=
  match input with
  | [] => .all []
  | l :: after => if l.token = .closer .curly then .tail l after else .all (l :: after)

namespace Piece

/-- Whether the component value is blank. -/
def isWhitespace (p : Piece) : Bool := p.first.token.isWhitespace

/-- Whether the component value is the word `important`. -/
def isImportantWord (p : Piece) : Bool :=
  match p.first.token with
  | .ident name => sameIgnoringCase name "important"
  | _ => false

/-- Whether the component value is an exclamation mark. -/
def isBang (p : Piece) : Bool := p.first.token = .delim '!'

end Piece

/-- Whether a value ends with `!important`. -/
def isImportant (value : List Piece) : Bool :=
  match value.reverse.filter fun p => !p.isWhitespace with
  | last :: before :: _ => last.isImportantWord && before.isBang
  | _ => false

/-- The value, the last component first, without the word `important` and the exclamation mark in
front of it. -/
def dropImportant : List Piece → List Piece
  | [] => []
  | last :: before =>
    if last.isImportantWord then
      match before.dropWhile Piece.isWhitespace with
      | [] => []
      | bang :: rest => if bang.isBang then rest else bang :: rest
    else last :: before

/-- The value without blank ends and without `!important`. -/
def bareValue (value : List Piece) : List Piece :=
  ((dropImportant (value.reverse.dropWhile Piece.isWhitespace)).dropWhile
    Piece.isWhitespace).reverse

/-- The place of a value in front of `rest`. -/
def valueSpan (value : List Piece) (rest : List Lexeme) : Span :=
  match value.head?, value.getLast? with
  | some first, some last => ⟨first.first.start, last.stop⟩
  | _, _ => ⟨position rest, position rest⟩

/-- Passes over blank tokens. -/
def afterBlanks (input : List Lexeme) : Rest input :=
  ⟨input.dropWhile (·.token.isWhitespace), (List.dropWhile_sublist _).length_le⟩

/-- Reads the declaration of a property; `input` are the lexemes after its name. Without a colon
there is no declaration. -/
def declaration (name : String) (input : List Lexeme) : Option Declaration × Rest input :=
  let start := afterBlanks input
  match h : start.1 with
  | [] => (none, ⟨[], Nat.zero_le _⟩)
  | l :: after =>
    have hle : after.length < input.length := by
      have := start.2
      rw [h] at this
      exact this
    if l.token = .colon then
      let inside := afterBlanks after
      let (value, rest) := pieces endsDeclaration inside.1
      (some ⟨name, valueSpan (bareValue value) rest.1, isImportant value⟩,
        ⟨rest.1, Nat.le_trans rest.2 (Nat.le_trans inside.2 (Nat.le_of_lt hle))⟩)
    else
      let rest := skip endsDeclaration (l :: after)
      (none, ⟨rest.1, Nat.le_trans rest.2 hle⟩)

/-- Passes over something that starts no declaration, up to the end of the declaration it stands
for. -/
def afterNonDeclaration (first : Lexeme) (after : List Lexeme) : Rest after :=
  let inside := afterComponent first after
  let rest := skip endsDeclaration inside.1
  ⟨rest.1, Nat.le_trans rest.2 inside.2⟩

mutual

/-- Reads an at-rule; `input` are the lexemes after its keyword. -/
def atRule (name : String) (keyword : Lexeme) (input : List Lexeme) : Rule × Rest input :=
  let prelude := skip endsAtPrelude input
  let heading (rest : List Lexeme) : AtHeading :=
    { name
      prelude := trimmedSpan input prelude.1
      span := Lexeme.spanOf keyword (consumed input rest) }
  match h : prelude.1 with
  | [] => (.statement (heading []), ⟨[], Nat.zero_le _⟩)
  | l :: after =>
    have hle : after.length < input.length := by
      have := prelude.2
      rw [h] at this
      exact this
    if l.token = .semicolon then (.statement (heading after), ⟨after, Nat.le_of_lt hle⟩)
    else if l.token = .opener .curly then
      if hasRules name then
        let (inner, rest) := rules false after
        let last := afterBrace rest.1
        (.group (heading last.1) inner,
          ⟨last.1, by have := last.2; have := rest.2; omega⟩)
      else
        let (inner, rest) := declarations after
        let last := afterBrace rest.1
        (.page (heading last.1) inner,
          ⟨last.1, by have := last.2; have := rest.2; omega⟩)
    else (.statement (heading (l :: after)), ⟨l :: after, hle⟩)
termination_by input.length

/-- Reads rules up to the end of the text, or inside a block up to its closing brace. Outside of
blocks the marks `<!--` and `-->` and stray closing braces are passed over. -/
def rules (outermost : Bool) (input : List Lexeme) : List Rule × Rest input :=
  match input with
  | [] => ([], .all [])
  | l :: after =>
    if l.token = .eof then ([], .all (l :: after))
    else if l.token = .closer .curly ∧ ¬ outermost then ([], .all (l :: after))
    else if l.token = .whitespace ∨ l.token = .closer .curly ∨
        (outermost ∧ (l.token = .markupOpen ∨ l.token = .markupClose)) then
      let (more, rest) := rules outermost after
      (more, ⟨rest.1, Nat.le_succ_of_le rest.2⟩)
    else
      match l.token with
      | .atKeyword name =>
        let (rule, rest) := atRule name l after
        let (more, last) := rules outermost rest.1
        (rule :: more, ⟨last.1, Nat.le_succ_of_le (Nat.le_trans last.2 rest.2)⟩)
      | _ =>
        let prelude := skip endsStylePrelude (l :: after)
        match h : prelude.1 with
        | [] => ([], ⟨[], Nat.zero_le _⟩)
        | brace :: inside =>
          have hle : inside.length < after.length + 1 := by
            have := prelude.2
            rw [h] at this
            exact this
          if brace.token = .opener .curly then
            let (inner, rest) := declarations inside
            let last := afterBrace rest.1
            have hlast : (afterBrace rest.1).1.length < after.length + 1 := by
              have := (afterBrace rest.1).2; have := rest.2; omega
            let rule := Rule.style (trimmedSpan (l :: after) prelude.1) inner
            let (more, final) := rules outermost last.1
            (rule :: more, ⟨final.1, by have := final.2; simp only [List.length_cons]; omega⟩)
          else if brace.token = .closer .curly ∧ outermost then
            let (more, rest) := rules outermost inside
            (more, ⟨rest.1, by have := rest.2; simp only [List.length_cons]; omega⟩)
          else ([], ⟨brace :: inside, hle⟩)
termination_by input.length

/-- Reads declarations up to a closing brace or the end of the text. At-rules inside are passed
over, and so is everything else up to the next semicolon. -/
def declarations (input : List Lexeme) : List Declaration × Rest input :=
  match input with
  | [] => ([], .all [])
  | l :: after =>
    match l.token with
    | .eof | .closer .curly => ([], .all (l :: after))
    | .whitespace | .semicolon =>
      let (more, rest) := declarations after
      (more, ⟨rest.1, Nat.le_succ_of_le rest.2⟩)
    | .atKeyword name =>
      let (_, rest) := atRule name l after
      let (more, last) := declarations rest.1
      (more, ⟨last.1, Nat.le_succ_of_le (Nat.le_trans last.2 rest.2)⟩)
    | .ident name =>
      let (found, rest) := declaration name after
      let (more, last) := declarations rest.1
      (found.toList ++ more, ⟨last.1, Nat.le_succ_of_le (Nat.le_trans last.2 rest.2)⟩)
    | _ =>
      have := (afterNonDeclaration l after).2
      let rest := afterNonDeclaration l after
      let (more, last) := declarations rest.1
      (more, ⟨last.1, Nat.le_succ_of_le (Nat.le_trans last.2 rest.2)⟩)
termination_by input.length

end

/-- The rules of a style sheet. -/
def ofText (text : List Char) : List Rule := (rules true (Lexeme.ofText text)).1

end ThemeColor.Sheet
