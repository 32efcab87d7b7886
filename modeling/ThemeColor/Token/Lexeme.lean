import ThemeColor.Token.Scan

/-!
# Lexemes of a text

`Lexeme.ofText` lists the tokens of a text with their places. The comments in front of a token are
kept with it, so that the lexemes of a text spell the text out again.
-/

namespace ThemeColor

open Text

namespace Scan

/-- Splits off the inside of a comment and its end mark. A comment that is never closed takes the
whole text. -/
def commentBody : List Char → List Char × List Char
  | [] => ([], [])
  | '*' :: '/' :: rest => (['*', '/'], rest)
  | c :: rest =>
    let (body, after) := commentBody rest
    (c :: body, after)

/-- What `commentBody` reads and the rest make up the text that was scanned. -/
theorem commentBody_append (input : List Char) :
    (commentBody input).1 ++ (commentBody input).2 = input := by
  fun_induction commentBody input with
  | case1 => rfl
  | case2 => rfl
  | case3 c rest _ body after h ih => simpa [h] using ih

theorem length_commentBody_le (input : List Char) :
    (commentBody input).2.length ≤ input.length := by
  have := congrArg List.length (commentBody_append input)
  simp only [List.length_append] at this
  omega

/-- Splits the comments off the front of a text. -/
def comments (input : List Char) : List Char × List Char :=
  match input with
  | '/' :: '*' :: rest =>
    let inside := commentBody rest
    let more := comments inside.2
    ('/' :: '*' :: (inside.1 ++ more.1), more.2)
  | _ => ([], input)
termination_by input.length
decreasing_by
  have := length_commentBody_le rest
  simp only [List.length_cons]; omega

/-- The `comments` and the rest make up the text that was scanned. -/
theorem comments_append (input : List Char) : (comments input).1 ++ (comments input).2 = input := by
  fun_induction comments input with
  | case1 rest inside more ih =>
    have := commentBody_append rest
    simp only [more, List.cons_append, List.append_assoc, ih]
    simpa [inside] using this
  | case2 => rfl

theorem length_comments_le (input : List Char) : (comments input).2.length ≤ input.length := by
  have := congrArg List.length (comments_append input)
  simp only [List.length_append] at this
  omega

end Scan

namespace Lexeme

/-- The lexemes of a text whose first character has the byte position `offset`. -/
def scanFrom (offset : Nat) (input : List Char) : List Lexeme :=
  let gap := (Scan.comments input).1
  let start := offset + byteSize gap
  match _h : (Scan.comments input).2 with
  | [] => [⟨.eof, gap, [], start⟩]
  | c :: rest =>
    let s := Scan.token c rest
    ⟨s.value, gap, s.text, start⟩ :: scanFrom (start + byteSize s.text) s.rest
termination_by input.length
decreasing_by
  have hcomments := Scan.length_comments_le input
  have htoken := Scan.length_rest_token_le c rest
  rw [_h] at hcomments
  simp only [List.length_cons] at hcomments
  omega

/-- Behind the last comments `scanFrom` finds the end of the text. -/
theorem scanFrom_of_nil {input : List Char} (h : (Scan.comments input).2 = []) (offset : Nat) :
    scanFrom offset input =
      [⟨.eof, (Scan.comments input).1, [], offset + byteSize (Scan.comments input).1⟩] := by
  rw [scanFrom]
  split
  · rfl
  · rename_i h'
    rw [h] at h'
    cases h'

/-- Behind comments `scanFrom` finds a token, and goes on behind it. -/
theorem scanFrom_of_cons {input : List Char} {c : Char} {rest : List Char}
    (h : (Scan.comments input).2 = c :: rest) (offset : Nat) :
    ∃ start next, scanFrom offset input =
      ⟨(Scan.token c rest).value, (Scan.comments input).1, (Scan.token c rest).text, start⟩ ::
        scanFrom next (Scan.token c rest).rest := by
  rw [scanFrom]
  split
  · rename_i h'
    rw [h] at h'
    cases h'
  · rename_i h'
    obtain ⟨rfl, rfl⟩ := List.cons.inj (h.symm.trans h')
    exact ⟨_, _, rfl⟩

/-- There is always a lexeme of `scanFrom`, that of the end of the text if no other. -/
theorem scanFrom_ne_nil (offset : Nat) (input : List Char) : scanFrom offset input ≠ [] := by
  unfold scanFrom
  split <;> simp

@[simp]
theorem scanFrom_nil (offset : Nat) : scanFrom offset [] = [⟨.eof, [], [], offset⟩] := by
  have hcomments : Scan.comments [] = ([], []) := by simp [Scan.comments]
  rw [scanFrom_of_nil (by rw [hcomments]), hcomments]
  rfl

/-- The lexemes of a text, the end of the text included. -/
def ofText (text : List Char) : List Lexeme := scanFrom 0 text

/-- The lexemes of a text without the end of the text. -/
def contents (text : List Char) : List Lexeme := (ofText text).dropLast

@[simp]
theorem contents_nil : contents [] = [] := by
  rw [contents, ofText, scanFrom_nil]
  rfl

/-- The text from the first of some neighbouring lexemes to the last one, with the comments between
them. -/
def join : List Lexeme → List Char
  | [] => []
  | first :: rest => first.text ++ rest.flatMap fun l => l.gap ++ l.text

/-- The bytes from the first of some neighbouring lexemes to the last one. -/
def spanOf (first : Lexeme) (rest : List Lexeme) : Span :=
  ⟨first.start, (rest.getLast?.getD first).stop⟩

end Lexeme

/-- A text being read into lexemes. -/
structure Scanner where
  /-- The characters that are not read yet. -/
  pending : List Char
  /-- The byte position of the first of them. -/
  offset : Nat
  /-- The lexemes read so far. -/
  lexemes : List Lexeme
  deriving Repr

namespace Scanner

/-- A text of which nothing is read yet. -/
def ofText (text : List Char) : Scanner := ⟨text, 0, []⟩

/-- Reads all pending characters and marks the end of the text once more. -/
def run (s : Scanner) : Scanner :=
  { pending := []
    offset := s.offset + byteSize s.pending
    lexemes := s.lexemes ++ Lexeme.scanFrom s.offset s.pending }

end Scanner

end ThemeColor
