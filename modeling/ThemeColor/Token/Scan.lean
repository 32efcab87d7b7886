import ThemeColor.Token.Basic
import ThemeColor.Text.Casing

/-!
# From text to tokens

Every scanner takes a text and splits off a part at its front: it returns what that part means, the
part itself and the rest. `Lexeme.ofText` repeats this until the text is used up and ends the list
with the token `eof`.
-/

namespace ThemeColor

open Text

/-- What a scanner read, the characters it read it from, and the characters after them. -/
structure Scanned (α : Type) where
  /-- The meaning of the part that was split off. -/
  value : α
  /-- The part that was split off. -/
  text : List Char
  /-- The characters after it. -/
  rest : List Char
  deriving DecidableEq, Repr

namespace Scanned

variable {α β : Type}

/-- Reads some more characters in front. -/
def after (front : List Char) (f : α → β) (s : Scanned α) : Scanned β :=
  ⟨f s.value, front ++ s.text, s.rest⟩

@[simp]
theorem rest_after (front : List Char) (f : α → β) (s : Scanned α) :
    (s.after front f).rest = s.rest := rfl

end Scanned

namespace Scan

/-- The blank characters of a style sheet. -/
def isSpace (c : Char) : Bool :=
  c = '\n' || c = '\t' || c = ' ' || c = '\r' || c = '\x0c'

/-- A letter, an underscore or any character beyond ASCII. -/
def isNameStart (c : Char) : Bool := c.isAlpha || c = '_' || decide (0x80 ≤ c.toNat)

/-- A character that a name may hold after its start. -/
def isNameChar (c : Char) : Bool := isNameStart c || c.isDigit || c = '-'

/-- The digits `0` to `9`, `a` to `f` and `A` to `F`. -/
def isHexDigit (c : Char) : Bool :=
  c.isDigit || ('a' ≤ c && c ≤ 'f') || ('A' ≤ c && c ≤ 'F')

/-- The value of a hexadecimal digit. -/
def hexDigitValue (c : Char) : Nat :=
  if c.isDigit then c.toNat - '0'.toNat else c.toLower.toNat - 'a'.toNat + 10

/-- The number that a list of hexadecimal digits writes. -/
def hexValue (digits : List Char) : Nat :=
  digits.foldl (fun value c => 16 * value + hexDigitValue c) 0

/-- The character that stands for code points that are none. -/
def replacementChar : Char := '�'

/-- The character with a code point; zero and numbers that are no code point of a character give
the replacement character. -/
def charOfCode (code : Nat) : Char :=
  if code ≠ 0 ∧ code.isValidChar then Char.ofNat code else replacementChar

/-- Whether an escape follows the backslash in front of the text. -/
def startsEscape : List Char → Bool
  | c :: _ => c ≠ '\n'
  | [] => false

/-- Whether the text starts with a name. -/
def startsName : List Char → Bool
  | '-' :: c :: rest => isNameStart c || c = '-' || (c = '\\' && startsEscape rest)
  | '\\' :: rest => startsEscape rest
  | c :: _ => isNameStart c
  | [] => false

/-- Reads the escape after a backslash: one to six hexadecimal digits and at most one blank
character, or any other single character. -/
def escape (input : List Char) : Scanned Char :=
  match (input.take 6).takeWhile isHexDigit with
  | [] =>
    match input with
    | [] => ⟨replacementChar, [], []⟩
    | c :: rest => ⟨c, [c], rest⟩
  | d :: ds =>
    let char := charOfCode (hexValue (d :: ds))
    match input.drop (d :: ds).length with
    | [] => ⟨char, d :: ds, []⟩
    | c :: rest =>
      if isSpace c then ⟨char, (d :: ds) ++ [c], rest⟩ else ⟨char, d :: ds, c :: rest⟩

/-- Digits at the start of a text are followed by the rest of it. -/
theorem exists_behind_digits (n : Nat) (input : List Char) :
    ∃ rest, (input.take n).takeWhile isHexDigit ++ rest = input := by
  refine ⟨(input.take n).dropWhile isHexDigit ++ input.drop n, ?_⟩
  rw [← List.append_assoc, List.takeWhile_append_dropWhile, List.take_append_drop]

/-- An `escape` and the rest make up the text that was scanned. -/
theorem escape_append (input : List Char) : (escape input).text ++ (escape input).rest = input := by
  unfold escape
  split
  · cases input <;> rfl
  · rename_i d ds heq
    have htake : (d :: ds) ++ input.drop (d :: ds).length = input := by
      obtain ⟨rest, hrest⟩ := exists_behind_digits 6 input
      rw [heq] at hrest
      rw [← hrest, List.drop_left]
    split
    · rename_i h
      rw [h] at htake
      simpa using htake
    · rename_i c rest h
      rw [h] at htake
      split
      · simpa using htake
      · simpa using htake

/-- An `escape` leaves no more than there was. -/
theorem length_rest_escape_le (input : List Char) :
    (escape input).rest.length ≤ input.length := by
  have := congrArg List.length (escape_append input)
  simp only [List.length_append] at this
  omega

/-- Reads name characters and escapes as long as there are any. -/
def name (input : List Char) : Scanned (List Char) :=
  match input with
  | [] => ⟨[], [], []⟩
  | c :: rest =>
    if isNameChar c then (name rest).after [c] (c :: ·)
    else if c = '\\' ∧ startsEscape rest then
      let e := escape rest
      (name e.rest).after (c :: e.text) (e.value :: ·)
    else ⟨[], [], c :: rest⟩
termination_by input.length
decreasing_by
  · simp
  · have := length_rest_escape_le rest
    simp only [List.length_cons]; omega

/-- Reads the inside of a quoted text and its closing quote. The end of the text closes it too; a
line end cuts it off, which is no value. -/
def stringBody (quote : Char) (input : List Char) : Scanned (Option (List Char)) :=
  match input with
  | [] => ⟨some [], [], []⟩
  | c :: rest =>
    if c = quote then ⟨some [], [c], rest⟩
    else if c = '\n' then ⟨none, [], c :: rest⟩
    else if c = '\\' then
      match rest with
      | [] => ⟨some [], [c], []⟩
      | d :: after =>
        if d = '\n' then (stringBody quote after).after [c, d] id
        else
          let e := escape (d :: after)
          (stringBody quote e.rest).after (c :: e.text) (·.map (e.value :: ·))
    else (stringBody quote rest).after [c] (·.map (c :: ·))
termination_by input.length
decreasing_by
  · simp only [List.length_cons]; omega
  · have := length_rest_escape_le (d :: after)
    simp only [List.length_cons] at this ⊢; omega
  · simp

/-- Reads the rest of an address that went wrong, up to its closing parenthesis. -/
def badUrlRest (input : List Char) : Scanned Unit :=
  match input with
  | [] => ⟨(), [], []⟩
  | c :: rest =>
    if c = ')' then ⟨(), [c], rest⟩
    else if c = '\\' ∧ startsEscape rest then
      let e := escape rest
      (badUrlRest e.rest).after (c :: e.text) id
    else (badUrlRest rest).after [c] id
termination_by input.length
decreasing_by
  · have := length_rest_escape_le rest
    simp only [List.length_cons]; omega
  · simp

/-- Reads the inside of an unquoted address and its closing parenthesis. Quotes, opening
parentheses, inner blanks and stray backslashes make it bad, which is no value. -/
def urlBody (input : List Char) : Scanned (Option (List Char)) :=
  match input with
  | [] => ⟨some [], [], []⟩
  | c :: rest =>
    if c = ')' then ⟨some [], [c], rest⟩
    else if isSpace c then
      let blanks := c :: rest.takeWhile isSpace
      match rest.dropWhile isSpace with
      | [] => ⟨some [], blanks, []⟩
      | d :: after =>
        if d = ')' then ⟨some [], blanks ++ [d], after⟩
        else (badUrlRest (d :: after)).after blanks fun _ => none
    else if c = '"' ∨ c = '\'' ∨ c = '(' then (badUrlRest rest).after [c] fun _ => none
    else if c = '\\' then
      if startsEscape rest then
        let e := escape rest
        (urlBody e.rest).after (c :: e.text) (·.map (e.value :: ·))
      else (badUrlRest rest).after [c] fun _ => none
    else (urlBody rest).after [c] (·.map (c :: ·))
termination_by input.length
decreasing_by
  · have := length_rest_escape_le rest
    simp only [List.length_cons]; omega
  · simp

/-- Reads a quoted text after its opening quote. -/
def string (quote : Char) (input : List Char) : Scanned Token :=
  (stringBody quote input).after [quote] fun
    | some value => .string (String.ofList value)
    | none => .badString

/-- Reads a number, with a unit or a percent sign if one follows directly. -/
def numeric (input : List Char) : Scanned Token :=
  let (value, rest) := Numeral.scan input
  if startsName rest then
    (name rest).after value.text fun unit => .dimension value (String.ofList unit)
  else
    match rest with
    | '%' :: after => ⟨.percentage value, value.text ++ ['%'], after⟩
    | _ => ⟨.number value, value.text, rest⟩

/-- Reads an unquoted address after `url(`, or only the function name if a quote follows. -/
def urlOrFunction (name : String) (input : List Char) : Scanned Token :=
  let blanks := input.takeWhile isSpace
  let inside := input.dropWhile isSpace
  if inside.head? = some '"' ∨ inside.head? = some '\'' then ⟨.function name, [], input⟩
  else
    (urlBody inside).after blanks fun
      | some value => .url (String.ofList value)
      | none => .badUrl

/-- Reads a name, with the parenthesis that makes it a function or an address. -/
def nameLike (input : List Char) : Scanned Token :=
  let s := name input
  let word := String.ofList s.value
  match s.rest with
  | '(' :: inside =>
    if sameIgnoringCase word "url" then
      (urlOrFunction word inside).after (s.text ++ ['(']) id
    else ⟨.function word, s.text ++ ['('], inside⟩
  | rest => ⟨.ident word, s.text, rest⟩

/-- The token of a character that stands for itself. -/
def punctuation (c : Char) : Token :=
  if c = ':' then .colon
  else if c = ';' then .semicolon
  else if c = ',' then .comma
  else if c = '(' then .opener .paren
  else if c = ')' then .closer .paren
  else if c = '[' then .opener .square
  else if c = ']' then .closer .square
  else if c = '{' then .opener .curly
  else if c = '}' then .closer .curly
  else .delim c

/-- Whether a name that need not start like one follows `#`. -/
def startsHashName (input : List Char) : Bool :=
  input.head?.any isNameChar || (input.head? = some '\\' && startsEscape input.tail)

/-- Reads one token from a text that starts with the character `c`. -/
def token (c : Char) (rest : List Char) : Scanned Token :=
  if isSpace c then ⟨.whitespace, c :: rest.takeWhile isSpace, rest.dropWhile isSpace⟩
  else if c = '"' ∨ c = '\'' then string c rest
  else if c = '#' ∧ startsHashName rest then
    (name rest).after [c] fun value => .hash (String.ofList value)
  else if c = '@' ∧ startsName rest then
    (name rest).after [c] fun value => .atKeyword (String.ofList value)
  else if Numeral.startsWith (c :: rest) then numeric (c :: rest)
  else if c = '-' ∧ rest.take 2 = ['-', '>'] then ⟨.markupClose, c :: rest.take 2, rest.drop 2⟩
  else if c = '<' ∧ rest.take 3 = ['!', '-', '-'] then
    ⟨.markupOpen, c :: rest.take 3, rest.drop 3⟩
  else if startsName (c :: rest) then nameLike (c :: rest)
  else ⟨punctuation c, [c], rest⟩

/-! ### Nothing is lost

The part a scanner splits off and the rest make up the text it was given. -/

/-- A `name` and the rest make up the text that was scanned. -/
theorem name_append (input : List Char) : (name input).text ++ (name input).rest = input := by
  fun_induction name input with
  | case1 => rfl
  | case2 c rest _ ih => simpa [Scanned.after] using ih
  | case3 c rest _ _ e ih =>
    have := escape_append rest
    simp only [Scanned.after, List.cons_append, List.append_assoc, ih]
    simpa [e] using this
  | case4 => rfl

/-- What `stringBody` reads and the rest make up the text that was scanned. -/
theorem stringBody_append (quote : Char) (input : List Char) :
    (stringBody quote input).text ++ (stringBody quote input).rest = input := by
  fun_induction stringBody quote input with
  | case1 => rfl
  | case2 => rfl
  | case3 => rfl
  | case4 => rfl
  | case5 after _ _ ih => simpa [Scanned.after] using ih
  | case6 d after _ _ _ e ih =>
    have := escape_append (d :: after)
    simp only [Scanned.after, List.cons_append, List.append_assoc, ih]
    simpa [e] using this
  | case7 c rest _ _ _ ih => simpa [Scanned.after] using ih

/-- What `badUrlRest` reads and the rest make up the text that was scanned. -/
theorem badUrlRest_append (input : List Char) :
    (badUrlRest input).text ++ (badUrlRest input).rest = input := by
  fun_induction badUrlRest input with
  | case1 => rfl
  | case2 => rfl
  | case3 c rest _ _ e ih =>
    have := escape_append rest
    simp only [Scanned.after, List.cons_append, List.append_assoc, ih]
    simpa [e] using this
  | case4 c rest _ _ ih => simpa [Scanned.after] using ih

/-- What `urlBody` reads and the rest make up the text that was scanned. -/
theorem urlBody_append (input : List Char) :
    (urlBody input).text ++ (urlBody input).rest = input := by
  fun_induction urlBody input with
  | case1 => rfl
  | case2 => rfl
  | case3 c rest _ _ blanks h =>
    have := List.takeWhile_append_dropWhile (p := isSpace) (l := rest)
    rw [h] at this
    simpa [blanks] using this
  | case4 c rest _ _ blanks after h =>
    have := List.takeWhile_append_dropWhile (p := isSpace) (l := rest)
    rw [h] at this
    simpa [blanks] using this
  | case5 c rest _ _ blanks d after h _ =>
    have := List.takeWhile_append_dropWhile (p := isSpace) (l := rest)
    rw [h] at this
    simpa [Scanned.after, badUrlRest_append, blanks] using this
  | case6 => simp [Scanned.after, badUrlRest_append]
  | case7 rest _ e _ _ _ ih =>
    have := escape_append rest
    simp only [Scanned.after, List.cons_append, List.append_assoc, ih]
    simpa [e] using this
  | case8 => simp [Scanned.after, badUrlRest_append]
  | case9 c rest _ _ _ _ ih => simpa [Scanned.after] using ih

theorem string_append (quote : Char) (input : List Char) :
    (string quote input).text ++ (string quote input).rest = quote :: input := by
  simp [string, Scanned.after, stringBody_append]

/-- A `numeric` token and the rest make up the text that was scanned. -/
theorem numeric_append (input : List Char) :
    (numeric input).text ++ (numeric input).rest = input := by
  have h := Numeral.text_append_scan input
  unfold numeric
  split
  rename_i value rest hscan
  rw [hscan] at h
  split
  · simp [Scanned.after, name_append, h]
  · split
    · simpa using h
    · exact h

theorem urlOrFunction_append (word : String) (input : List Char) :
    (urlOrFunction word input).text ++ (urlOrFunction word input).rest = input := by
  unfold urlOrFunction
  dsimp only
  split
  · rfl
  · simp [Scanned.after, urlBody_append, List.takeWhile_append_dropWhile]

/-- What `nameLike` reads and the rest make up the text that was scanned. -/
theorem nameLike_append (input : List Char) :
    (nameLike input).text ++ (nameLike input).rest = input := by
  have h := name_append input
  unfold nameLike
  dsimp only
  split
  · rename_i inside hrest
    rw [hrest] at h
    split
    · simpa [Scanned.after, urlOrFunction_append] using h
    · simpa using h
  · exact h

/-- A `token` and the rest make up the text that was scanned. -/
theorem token_append (c : Char) (rest : List Char) :
    (token c rest).text ++ (token c rest).rest = c :: rest := by
  fun_cases token c rest with
  | case1 => simp [List.takeWhile_append_dropWhile]
  | case2 => exact string_append c rest
  | case3 => simp [Scanned.after, name_append]
  | case4 => simp [Scanned.after, name_append]
  | case5 => exact numeric_append _
  | case6 => simp
  | case7 => simp
  | case8 => exact nameLike_append _
  | case9 => rfl

/-! ### Every token takes a character -/

theorem text_name_ne_nil {input : List Char} (h : startsName input) : (name input).text ≠ [] := by
  cases input with
  | nil => simp [startsName] at h
  | cons c rest =>
    rw [name]
    split
    · simp [Scanned.after]
    · split
      · simp [Scanned.after]
      · rename_i hchar hescape
        exfalso
        unfold startsName at h
        split at h
        · rename_i heq
          obtain ⟨rfl, rfl⟩ := List.cons.inj heq
          exact hchar (by decide)
        · rename_i heq
          obtain ⟨rfl, rfl⟩ := List.cons.inj heq
          exact hescape ⟨rfl, h⟩
        · rename_i heq
          obtain ⟨rfl, rfl⟩ := List.cons.inj heq
          exact hchar (by simp [isNameChar, h])
        · rename_i heq
          cases heq

theorem text_numeric_ne_nil {input : List Char} (h : Numeral.startsWith input) :
    (numeric input).text ≠ [] := by
  have htext := Numeral.text_scan_ne_nil h
  unfold numeric
  split
  rename_i value rest hscan
  rw [hscan] at htext
  split
  · simp [Scanned.after, htext]
  · split
    · simp
    · exact htext

theorem text_nameLike_ne_nil {input : List Char} (h : startsName input) :
    (nameLike input).text ≠ [] := by
  have htext := text_name_ne_nil h
  unfold nameLike
  dsimp only
  split
  · split
    · simp [Scanned.after]
    · simp
  · exact htext

/-- Every `token` is read from at least one character. -/
theorem text_token_ne_nil (c : Char) (rest : List Char) : (token c rest).text ≠ [] := by
  fun_cases token c rest with
  | case1 => simp
  | case2 => simp [string, Scanned.after]
  | case3 => simp [Scanned.after]
  | case4 => simp [Scanned.after]
  | case5 _ _ _ _ h => exact text_numeric_ne_nil h
  | case6 => simp
  | case7 => simp
  | case8 _ _ _ _ _ _ _ h => exact text_nameLike_ne_nil h
  | case9 => simp

theorem length_rest_token_le (c : Char) (rest : List Char) :
    (token c rest).rest.length ≤ rest.length := by
  have happend := congrArg List.length (token_append c rest)
  have hne := List.length_pos_iff.2 (text_token_ne_nil c rest)
  simp only [List.length_append, List.length_cons] at happend
  omega

end Scan

end ThemeColor
