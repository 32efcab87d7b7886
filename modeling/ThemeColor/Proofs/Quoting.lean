import ThemeColor.Proofs.Slices

/-!
# Where a quoted text ends

Reading a quoted text stops at the closing quote, at the end of the text or at a line end, and the
token does not tell which of the first two it was. `Scan.quoted` reads in the same way and keeps
that (`Scan.stringBody_eq_quoted`).

`Component.endsWithQuote` finds it out from the characters alone: the last one is the quote, and the
number of backslashes in front of it is even. That is right because what was read up to any point
is `Whole`: an even number of backslashes stands at its end, and it does not end with the closing
quote. Every step of the reading keeps this, whether it reads one character or an escape.
-/

namespace ThemeColor

open Text

namespace Scan

/-! ## Reading that tells how it ended -/

/-- How the reading of a quoted text comes to its end. -/
inductive Ending where
  /-- The closing quote was read. -/
  | quote
  /-- The text was used up. -/
  | endOfText
  /-- A line end stands there. -/
  | lineEnd
  deriving DecidableEq, Repr

/-- Reads the inside of a quoted text, and tells how the reading ended and which characters the
inside stands for. -/
def quoted (quote : Char) (input : List Char) : Scanned (Ending × List Char) :=
  match input with
  | [] => ⟨(.endOfText, []), [], []⟩
  | c :: rest =>
    if c = quote then ⟨(.quote, []), [c], rest⟩
    else if c = '\n' then ⟨(.lineEnd, []), [], c :: rest⟩
    else if c = '\\' then
      match rest with
      | [] => ⟨(.endOfText, []), [c], []⟩
      | d :: after =>
        if d = '\n' then (quoted quote after).after [c, d] id
        else
          let e := escape (d :: after)
          (quoted quote e.rest).after (c :: e.text) (·.map id (e.value :: ·))
    else (quoted quote rest).after [c] (·.map id (c :: ·))
termination_by input.length
decreasing_by
  · simp only [List.length_cons]; omega
  · have := length_rest_escape_le (d :: after)
    simp only [List.length_cons] at this ⊢; omega
  · simp

/-- The value of a quoted text: none, if a line end cut it off. -/
def Ending.value? (read : Ending × List Char) : Option (List Char) :=
  if read.1 = .lineEnd then none else some read.2

theorem Ending.value?_map (read : Ending × List Char) (c : Char) :
    value? (read.map id (c :: ·)) = (value? read).map (c :: ·) := by
  unfold value?
  simp only [Prod.map_fst, Prod.map_snd, id_eq]
  split <;> rfl

/-- Quoted texts are read in this way, and only the kind of the ending is dropped. -/
theorem stringBody_eq_quoted (quote : Char) (input : List Char) :
    stringBody quote input = (quoted quote input).after [] Ending.value? := by
  fun_induction quoted quote input with
  | case1 => rw [stringBody.eq_def]; rfl
  | case2 rest =>
    rw [stringBody.eq_def]
    simp only [if_true]
    rfl
  | case3 rest hquote =>
    rw [stringBody.eq_def]
    simp only [if_neg hquote, if_true]
    rfl
  | case4 hquote hline =>
    rw [stringBody.eq_def]
    simp only [if_neg hquote, if_neg hline, if_true]
    rfl
  | case5 after hquote hline ih =>
    rw [stringBody.eq_def]
    simp only [if_neg hquote, if_neg hline, if_true, ih, Scanned.after, id_eq, List.nil_append]
  | case6 d after hd e hquote hline ih =>
    rw [stringBody.eq_def]
    simp only [if_neg hquote, if_neg hline, if_neg hd, if_true, Scanned.after, List.nil_append,
      Ending.value?_map]
    simp only [e, ih, Scanned.after, List.nil_append]
  | case7 c rest hquote hline hslash ih =>
    rw [stringBody.eq_def]
    simp only [if_neg hquote, if_neg hline, if_neg hslash, ih, Scanned.after, List.nil_append,
      Ending.value?_map]

/-- An escape is one character, or it ends with a hexadecimal digit or a blank. -/
theorem text_escape_cons (d : Char) (after : List Char) :
    (escape (d :: after)).text = [d] ∨
      ∃ init c, (escape (d :: after)).text = init ++ [c] ∧ (isHexDigit c ∨ isSpace c) := by
  unfold escape
  split
  · exact .inl rfl
  · rename_i digit digits hdigits
    have hlast : ∃ init c, digit :: digits = init ++ [c] ∧ (isHexDigit c ∨ isSpace c) := by
      refine ⟨_, _, (List.dropLast_concat_getLast (List.cons_ne_nil _ _)).symm, .inl ?_⟩
      refine List.mem_takeWhile_imp (l := (d :: after).take 6) ?_
      rw [hdigits]
      exact List.getLast_mem _
    dsimp only
    split
    · exact .inr hlast
    · split
      · rename_i c rest _ hspace
        exact .inr ⟨digit :: digits, c, rfl, .inr hspace⟩
      · exact .inr hlast

end Scan

/-! ## Backslashes in front of a quote -/

namespace Component

open Scan

/-- The number of backslashes at the end of a text. -/
def backslashes (text : List Char) : Nat := (text.reverse.takeWhile (· = '\\')).length

theorem backslashes_concat (text : List Char) (c : Char) :
    backslashes (text ++ [c]) = if c = '\\' then backslashes text + 1 else 0 := by
  unfold backslashes
  rw [List.reverse_concat, List.takeWhile_cons]
  split <;> simp_all

theorem endsWithQuote_concat (quote : Char) (text : List Char) (c : Char) :
    endsWithQuote (quote :: (text ++ [c])) ↔ c = quote ∧ backslashes text % 2 = 0 := by
  simp [endsWithQuote, backslashes]

/-- What was read of the inside of a quoted text is a number of whole steps: no backslash at its end
waits for a character, and the closing quote has not been read. -/
structure Whole (quote : Char) (text : List Char) : Prop where
  /-- The backslashes at the end come in pairs. -/
  even : backslashes text % 2 = 0
  /-- The text does not end with the closing quote. -/
  opened : ¬ endsWithQuote (quote :: text)

namespace Whole

variable {quote : Char} {text : List Char}

theorem nil (quote : Char) : Whole quote [] := ⟨rfl, Bool.false_ne_true⟩

/-- A character that is neither a quote nor a backslash can be read behind anything. -/
theorem of_concat {c : Char} (hquote : c ≠ quote) (hslash : c ≠ '\\') (text : List Char) :
    Whole quote (text ++ [c]) := by
  constructor
  · rw [backslashes_concat, if_neg hslash]
  · rw [endsWithQuote_concat]
    exact fun h => hquote h.1

/-- A backslash makes the next character a part of the inside, whatever that character is. -/
theorem pair (h : Whole quote text) (d : Char) : Whole quote (text ++ ['\\', d]) := by
  have hodd : backslashes (text ++ ['\\']) % 2 = 1 := by
    rw [backslashes_concat, if_pos rfl]
    have := h.even
    omega
  rw [List.append_cons]
  constructor
  · rw [backslashes_concat]
    split
    · omega
    · rfl
  · rw [endsWithQuote_concat]
    omega

theorem escape (h : Whole quote text) (hquote : ¬ (isHexDigit quote ∨ isSpace quote)) (d : Char)
    (after : List Char) : Whole quote (text ++ '\\' :: (Scan.escape (d :: after)).text) := by
  rcases text_escape_cons d after with htext | ⟨init, c, htext, hc⟩
  · rw [htext]
    exact h.pair d
  · have hne : c ≠ quote := by
      rintro rfl
      exact hquote hc
    have hslash : c ≠ '\\' := by
      rintro rfl
      revert hc
      decide
    have hsplit : text ++ '\\' :: (init ++ [c]) = (text ++ '\\' :: init) ++ [c] := by simp
    rw [htext, hsplit]
    exact of_concat hne hslash _

/-- Reading on from a number of whole steps, the characters show whether the closing quote is
reached. -/
theorem endsWithQuote_iff (h : Whole quote text) (hquote : ¬ (isHexDigit quote ∨ isSpace quote))
    (input : List Char) :
    endsWithQuote (quote :: (text ++ (quoted quote input).text)) ↔
      (quoted quote input).value.1 = .quote := by
  fun_induction quoted quote input generalizing text with
  | case1 => simp [h.opened]
  | case2 rest => simp [endsWithQuote_concat, h.even]
  | case3 rest hne => simp [h.opened]
  | case4 hne hline => simp [endsWithQuote_concat, hne]
  | case5 after hne hline ih =>
    have hread := ih (h.pair '\n')
    rwa [List.append_assoc] at hread
  | case6 d after hd e hne hline =>
    rename_i ih
    have hread := ih (h.escape hquote d after)
    rwa [List.append_assoc] at hread
  | case7 c rest hne hline hc ih =>
    have hread := ih (of_concat hne hc text)
    rwa [List.append_assoc] at hread

end Whole

end Component

/-! ## Quoted texts among lexemes -/

/-- Whether the token is a quoted text, cut off or not. -/
def Token.isQuoted : Token → Bool
  | .string _ | .badString => true
  | _ => false

namespace Scan

theorem isQuoted_punctuation (c : Char) : (punctuation c).isQuoted = false := by
  unfold punctuation
  repeat' split
  all_goals rfl

/-- Only a quote starts a quoted text. -/
theorem token_eq_string {c : Char} {rest : List Char} (h : (token c rest).value.isQuoted) :
    (c = '"' ∨ c = '\'') ∧ token c rest = string c rest := by
  -- Everything else is read as a token of another kind.
  revert h
  fun_cases token c rest with
  | case1 => exact fun h => absurd h Bool.false_ne_true
  | case2 hspace hquote => exact fun _ => ⟨hquote, rfl⟩
  | case3 => exact fun h => absurd h Bool.false_ne_true
  | case4 => exact fun h => absurd h Bool.false_ne_true
  | case5 =>
    obtain ⟨n, hn | hn | ⟨unit, hn⟩⟩ := value_numeric (c :: rest) <;> rw [hn] <;>
      exact fun h => absurd h Bool.false_ne_true
  | case6 => exact fun h => absurd h Bool.false_ne_true
  | case7 => exact fun h => absurd h Bool.false_ne_true
  | case8 =>
    obtain ⟨word, hword | hword | hword | ⟨hword, -⟩⟩ := value_nameLike (c :: rest) <;>
      rw [hword] <;> exact fun h => absurd h Bool.false_ne_true
  | case9 =>
    rw [isQuoted_punctuation]
    exact fun h => absurd h Bool.false_ne_true

end Scan

/-- A lexeme is read from the characters that stand at its start. -/
theorem Lexeme.exists_of_mem_scanFrom {offset : Nat} {input : List Char} {l : Lexeme}
    (h : l ∈ scanFrom offset input) (hend : l.token ≠ .eof) :
    ∃ before c rest, input = before ++ c :: rest ∧ offset + byteSize before = l.start ∧
      l.token = (Scan.token c rest).value ∧ l.text = (Scan.token c rest).text := by
  fun_induction scanFrom offset input with
  | case1 offset input gap start hcomments =>
    rw [List.mem_singleton] at h
    rw [h] at hend
    exact absurd rfl hend
  | case2 offset input gap start c rest hcomments s ih =>
    have happend := Scan.comments_append input
    rw [hcomments] at happend
    rcases List.mem_cons.mp h with rfl | h
    · exact ⟨gap, c, rest, happend.symm, rfl, rfl, rfl⟩
    · obtain ⟨before, d, rest', hrest, hstart, htoken, htext⟩ := ih h
      refine ⟨gap ++ s.text ++ before, d, rest', ?_, ?_, htoken, htext⟩
      · rw [List.append_assoc, List.append_assoc, ← hrest, Scan.token_append, happend]
      · rw [← hstart, byteSize_append, byteSize_append]
        omega

open Scan in
/-- **Whether a quoted text is closed can be seen from its characters.** For every quoted text among
the lexemes of any text, the test for a closing quote tells how the reading of that quoted text
ended: it succeeds if the closing quote was read, and it fails if the text was used up before. A
quoted text that a line end cuts off never passes. -/
theorem Component.isTerminated_iff_quote {text : List Char} {l : Lexeme}
    (hl : l ∈ Lexeme.ofText text) :
    (l.token = .badString → ¬ isTerminated l) ∧
    (∀ value, l.token = .string value →
      ∃ before quote input, text = before ++ quote :: input ∧ byteSize before = l.start ∧
        (quote = '"' ∨ quote = '\'') ∧ l.text = quote :: (quoted quote input).text ∧
        value = String.ofList (quoted quote input).value.2 ∧
        (isTerminated l ↔ (quoted quote input).value.1 = .quote) ∧
        (¬ isTerminated l ↔ (quoted quote input).value.1 = .endOfText)) := by
  refine ⟨fun hbad => by simp [isTerminated, hbad], fun value hvalue => ?_⟩
  obtain ⟨before, quote, input, htext, hstart, htoken, hltext⟩ :=
    Lexeme.exists_of_mem_scanFrom hl (by simp [hvalue])
  rw [hvalue] at htoken
  obtain ⟨hquote, hscan⟩ := token_eq_string (by rw [← htoken]; rfl)
  rw [hscan, string, stringBody_eq_quoted] at htoken hltext
  have hterminated : isTerminated l ↔ (quoted quote input).value.1 = .quote := by
    rw [isTerminated, hvalue, hltext]
    refine (Whole.nil quote).endsWithQuote_iff ?_ input
    rcases hquote with rfl | rfl <;> decide
  have hending : (quoted quote input).value.1 ≠ .lineEnd := by
    intro hline
    simp [Scanned.after, Ending.value?, hline] at htoken
  simp only [Scanned.after, Ending.value?, if_neg hending, Token.string.injEq] at htoken
  refine ⟨before, quote, input, htext, by omega, hquote, hltext, htoken, hterminated, ?_⟩
  rw [hterminated]
  generalize (quoted quote input).value.1 = ending at hending
  cases ending with
  | quote => simp
  | endOfText => simp
  | lineEnd => exact absurd rfl hending

/-- An escaped backslash in front of the closing quote, and an escaped quote at the end of the
text. -/
theorem Component.isTerminated_iff_quote_backslash :
    let text := "\"\\41 \\\\\" 'b\\'".toList
    ∃ closed ∈ Lexeme.ofText text, ∃ opened ∈ Lexeme.ofText text,
      closed.token = .string "A\\" ∧ isTerminated closed ∧
      opened.token = .string "b'" ∧ ¬ isTerminated opened ∧
      (∃ before quote input, text = before ++ quote :: input ∧ byteSize before = closed.start ∧
        (Scan.quoted quote input).value.1 = .quote) ∧
      (∃ before quote input, text = before ++ quote :: input ∧ byteSize before = opened.start ∧
        (Scan.quoted quote input).value.1 = .endOfText) := by
  intro text
  let closed : Lexeme := ⟨.string "A\\", [], "\"\\41 \\\\\"".toList, 0⟩
  let opened : Lexeme := ⟨.string "b'", [], "'b\\'".toList, 9⟩
  have hclosed : closed ∈ Lexeme.ofText text := by decide +kernel
  have hopened : opened ∈ Lexeme.ofText text := by decide +kernel
  have hterminated : isTerminated closed := by decide +kernel
  have hcut : ¬ isTerminated opened := by decide +kernel
  refine ⟨closed, hclosed, opened, hopened, rfl, hterminated, rfl, hcut, ?_, ?_⟩
  · obtain ⟨before, quote, input, htext, hstart, -, -, -, hquote, -⟩ :=
      (isTerminated_iff_quote hclosed).2 _ rfl
    exact ⟨before, quote, input, htext, hstart, hquote.mp hterminated⟩
  · obtain ⟨before, quote, input, htext, hstart, -, -, -, -, hend⟩ :=
      (isTerminated_iff_quote hopened).2 _ rfl
    exact ⟨before, quote, input, htext, hstart, hend.mp hcut⟩

end ThemeColor
