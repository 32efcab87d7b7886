import ThemeColor.Proofs.Quoting

/-!
# What escapes stand for

The token of a name or of a quoted text holds the characters that its text stands for, not the text
itself. `Scan.unescape?` finds them out from the text alone, from left to right: a backslash in
front of one to six hexadecimal digits and at most one blank stands for the character with that
code, and in front of any other character it is dropped. The scanners decode while they look for the
end of the token, and what they find is the same, since an escape never reaches beyond that end.

## Main results

* `Scan.unescape?_name`: a name is decoded;
* `Scan.exists_unescape?_quoted`: so is a quoted text, whether it is closed or not;
* `Lexeme.payload_decoded`: all tokens with a name or a quoted text hold what their texts stand for.
-/

namespace ThemeColor

open Text

namespace Scan

/-! ## Unescaping -/

/-- The character with the given code; zero, surrogates and numbers beyond the last code give the
replacement character. -/
def codeChar (code : Nat) : Char :=
  if code = 0 ∨ (0xD800 ≤ code ∧ code ≤ 0xDFFF) ∨ 0x10FFFF < code then '�'
  else Char.ofNat code

/-- Drops a blank character at the front. -/
def dropSpace : List Char → List Char
  | [] => []
  | c :: rest => if isSpace c then rest else c :: rest

theorem length_dropSpace_le (text : List Char) : (dropSpace text).length ≤ text.length := by
  cases text with
  | nil => exact Nat.le_refl _
  | cons c rest =>
    simp only [dropSpace]
    split <;> simp

/-- The characters that a text with escapes stands for. If `joins` holds, an escaped line end stands
for nothing, as it does in quoted texts. A backslash at the end, which escapes nothing, is
refused. -/
def unescape? (joins : Bool) (text : List Char) : Option (List Char) :=
  match text with
  | [] => some []
  | c :: rest =>
    if c ≠ '\\' then (unescape? joins rest).map (c :: ·)
    else
      match rest with
      | [] => none
      | d :: after =>
        if isHexDigit d then
          let more := (after.take 5).takeWhile isHexDigit
          (unescape? joins (dropSpace (after.drop more.length))).map
            (codeChar (hexValue (d :: more)) :: ·)
        else if joins ∧ d = '\n' then unescape? joins after
        else (unescape? joins after).map (d :: ·)
termination_by text.length
decreasing_by
  · simp
  · have := length_dropSpace_le (after.drop more.length)
    simp only [List.length_drop, List.length_cons, more] at this ⊢; omega
  · simp only [List.length_cons]; omega
  · simp only [List.length_cons]; omega

section

variable (joins : Bool)

@[simp]
theorem unescape?_nil : unescape? joins [] = some [] := by rw [unescape?]

theorem unescape?_cons {c : Char} (hc : c ≠ '\\') (rest : List Char) :
    unescape? joins (c :: rest) = (unescape? joins rest).map (c :: ·) := by
  rw [unescape?.eq_def]
  exact if_pos hc

/-- A text without backslashes stands for itself: `unescape?` leaves it alone. -/
theorem unescape?_of_not_mem {text : List Char} (h : '\\' ∉ text) :
    unescape? joins text = some text := by
  induction text with
  | nil => exact unescape?_nil joins
  | cons c rest ih =>
    rw [List.mem_cons, not_or] at h
    rw [unescape?_cons joins (Ne.symm h.1), ih h.2]
    rfl

end

theorem unescape?_lineEnd (after : List Char) :
    unescape? true ('\\' :: '\n' :: after) = unescape? true after := by
  rw [unescape?.eq_def]
  rfl

/-! ## Escapes -/

/-- The scanner finds the character of a number that `codeChar` says. -/
theorem charOfCode_eq_codeChar (code : Nat) : charOfCode code = codeChar code := by
  unfold charOfCode codeChar
  have hvalid : code ≠ 0 ∧ code.isValidChar ↔
      ¬ (code = 0 ∨ (0xD800 ≤ code ∧ code ≤ 0xDFFF) ∨ 0x10FFFF < code) := by
    unfold Nat.isValidChar
    omega
  by_cases h : code ≠ 0 ∧ code.isValidChar
  · rw [if_pos h, if_neg (hvalid.mp h)]
  · rw [if_neg h, if_pos (by_contra fun hnot => h (hvalid.mpr hnot))]
    rfl

/-- Behind a backslash an `escape` is decoded, unless it is an escaped line end. -/
theorem unescape?_escape {joins : Bool} {d : Char} (hd : ¬ (joins ∧ d = '\n'))
    (after : List Char) :
    unescape? joins ('\\' :: d :: after) =
      (unescape? joins (escape (d :: after)).rest).map ((escape (d :: after)).value :: ·) := by
  rw [unescape?.eq_def]
  simp only [ne_eq, not_true_eq_false, if_false, if_neg hd, escape, List.take_succ_cons,
    List.takeWhile_cons]
  by_cases hhex : isHexDigit d
  · simp only [hhex, if_true, List.length_cons, List.drop_succ_cons, charOfCode_eq_codeChar]
    generalize after.drop _ = left
    cases left with
    | nil => rfl
    | cons c rest =>
      simp only [dropSpace]
      split <;> rfl
  · simp [hhex]

/-- An `escape` is decoded in front of anything that follows it in the text it was read from. -/
theorem unescape?_escape_append {joins : Bool} {d : Char} (hd : ¬ (joins ∧ d = '\n'))
    {after front left : List Char} (hrest : (escape (d :: after)).rest = front ++ left) :
    unescape? joins ('\\' :: ((escape (d :: after)).text ++ front)) =
      (unescape? joins front).map ((escape (d :: after)).value :: ·) := by
  have happend := escape_append (d :: after)
  rw [hrest, ← List.append_assoc] at happend
  have hcut : escape ((escape (d :: after)).text ++ front) =
      ⟨(escape (d :: after)).value, (escape (d :: after)).text, front⟩ :=
    escape_cut (by rw [happend, ← hrest])
  -- The escape starts with the same character when the text is cut off behind it.
  obtain ⟨c, more, htext⟩ :=
    List.exists_cons_of_ne_nil (text_escape_ne_nil (List.cons_ne_nil d after))
  rw [htext, List.cons_append, List.cons_append] at happend
  obtain rfl := (List.cons.inj happend).1
  have hfront := unescape?_escape hd (more ++ front)
  rw [← List.cons_append, ← htext, hcut] at hfront
  exact hfront

/-! ## Names -/

/-- A `name` is what its text stands for. -/
theorem unescape?_name (input : List Char) :
    unescape? false (name input).text = some (name input).value := by
  fun_induction name input with
  | case1 => exact unescape?_nil false
  | case2 c rest hc ih =>
    have hslash : c ≠ '\\' := by
      rintro rfl
      revert hc
      decide
    simp only [Scanned.after, List.singleton_append, unescape?_cons false hslash, ih,
      Option.map_some]
  | case3 c rest hc hescape e ih =>
    obtain ⟨rfl, hstarts⟩ := hescape
    obtain ⟨d, after, rfl⟩ := List.exists_cons_of_ne_nil (ne_nil_of_startsEscape hstarts)
    simp only [Scanned.after, List.cons_append]
    rw [unescape?_escape_append (by simp) (name_append e.rest).symm, ih]
    rfl
  | case4 => exact unescape?_nil false

/-! ## Quoted texts -/

/-- How the reading of a quoted text ends behind the part that is decoded: `tail` is read too, and
`rest` is left. At the end of the text, a backslash that escapes nothing may be left. -/
def Ending.Holds (quote : Char) (tail rest : List Char) : Ending → Prop
  | .quote => tail = [quote]
  | .endOfText => (tail = [] ∨ tail = ['\\']) ∧ rest = []
  | .lineEnd => tail = []

/-- What is `quoted` and the rest make up the text that was scanned. -/
theorem quoted_append (quote : Char) (input : List Char) :
    (quoted quote input).text ++ (quoted quote input).rest = input := by
  have happend := stringBody_append quote input
  rwa [stringBody_eq_quoted] at happend

/-- The inside of a `quoted` text is what its text stands for. -/
theorem exists_unescape?_quoted (quote : Char) (input : List Char) :
    ∃ part tail, (quoted quote input).text = part ++ tail ∧
      unescape? true part = some (quoted quote input).value.2 ∧
      (quoted quote input).value.1.Holds quote tail (quoted quote input).rest := by
  fun_induction quoted quote input with
  | case1 => exact ⟨[], [], rfl, unescape?_nil true, .inl rfl, rfl⟩
  | case2 rest => exact ⟨[], [quote], rfl, unescape?_nil true, rfl⟩
  | case3 rest hquote => exact ⟨[], [], rfl, unescape?_nil true, rfl⟩
  | case4 hquote hline => exact ⟨[], ['\\'], rfl, unescape?_nil true, .inr rfl, rfl⟩
  | case5 after hquote hline ih =>
    obtain ⟨part, tail, htext, hpart, htail⟩ := ih
    refine ⟨'\\' :: '\n' :: part, tail, ?_, ?_, htail⟩
    · simp only [Scanned.after, htext, List.cons_append, List.nil_append]
    · rw [unescape?_lineEnd]
      exact hpart
  | case6 d after hd e hquote hline ih =>
    obtain ⟨part, tail, htext, hpart, htail⟩ := ih
    have hrest : e.rest = part ++ (tail ++ (quoted quote e.rest).rest) := by
      rw [← List.append_assoc, ← htext]
      exact (quoted_append quote e.rest).symm
    refine ⟨'\\' :: (e.text ++ part), tail, ?_, ?_, htail⟩
    · simp only [Scanned.after, htext, List.cons_append, List.append_assoc]
    · rw [unescape?_escape_append (by simp [hd]) hrest, hpart]
      rfl
  | case7 c rest hquote hline hslash ih =>
    obtain ⟨part, tail, htext, hpart, htail⟩ := ih
    refine ⟨c :: part, tail, ?_, ?_, htail⟩
    · simp only [Scanned.after, htext, List.cons_append, List.nil_append]
    · rw [unescape?_cons true hslash, hpart]
      rfl

/-! ## Tokens -/

/-- A text stands for a word: decoding gives the word, and without backslashes it is the text
itself. -/
structure Decodes (joins : Bool) (text : List Char) (word : String) : Prop where
  /-- The text is decoded to the word. -/
  decoded : unescape? joins text = some word.toList
  /-- Without backslashes nothing is decoded. -/
  verbatim : '\\' ∉ text → word.toList = text

/-- What `Decodes` relates is what `unescape?` computes. -/
theorem decodes_iff {joins : Bool} {text : List Char} {word : String} :
    Decodes joins text word ↔ unescape? joins text = some word.toList := by
  refine ⟨Decodes.decoded, fun h => ⟨h, fun hslash => ?_⟩⟩
  rw [unescape?_of_not_mem joins hslash] at h
  exact (Option.some.inj h).symm

theorem decodes_name (input : List Char) :
    Decodes false (name input).text (String.ofList (name input).value) := by
  rw [decodes_iff, String.toList_ofList]
  exact unescape?_name input

/-- The name that a token holds is decoded from its text, without the marks around it. -/
def NameDecoded (text : List Char) : Token → Prop
  | .ident word => Decodes false text word
  | .function word => ∃ part, text = part ++ ['('] ∧ Decodes false part word
  | .atKeyword word => ∃ part, text = '@' :: part ∧ Decodes false part word
  | .hash word => ∃ part, text = '#' :: part ∧ Decodes false part word
  | _ => True

/-- What `nameLike` reads has a decoded name, `NameDecoded`. -/
theorem nameDecoded_nameLike (input : List Char) :
    NameDecoded (nameLike input).text (nameLike input).value := by
  unfold nameLike
  dsimp only
  split
  · split
    · -- An address is read from more than the name, the function `url` is not.
      simp only [Scanned.after, urlOrFunction, id_eq]
      split
      · exact ⟨_, by rw [List.append_nil], decodes_name input⟩
      · dsimp only
        split <;> trivial
    · exact ⟨_, rfl, decodes_name input⟩
  · exact decodes_name input

/-- What `token` reads has a decoded name, `NameDecoded`. -/
theorem nameDecoded_token (c : Char) (rest : List Char) :
    NameDecoded (token c rest).text (token c rest).value := by
  fun_cases token c rest with
  | case1 => trivial
  | case2 =>
    simp only [string, Scanned.after]
    split <;> trivial
  | case3 _ _ hhash =>
    obtain ⟨rfl, -⟩ := hhash
    exact ⟨_, rfl, decodes_name rest⟩
  | case4 _ _ _ hat =>
    obtain ⟨rfl, -⟩ := hat
    exact ⟨_, rfl, decodes_name rest⟩
  | case5 =>
    obtain ⟨n, h | h | ⟨unit, h⟩⟩ := value_numeric (c :: rest) <;> rw [h] <;> trivial
  | case6 => trivial
  | case7 => trivial
  | case8 => exact nameDecoded_nameLike (c :: rest)
  | case9 =>
    unfold punctuation
    repeat' split
    all_goals trivial

end Scan

namespace Lexeme

open Scan Component

theorem nameDecoded {text : List Char} {l : Lexeme} (hl : l ∈ ofText text) :
    NameDecoded l.text l.token := by
  by_cases hend : l.token = .eof
  · rw [hend]
    trivial
  · obtain ⟨before, c, rest, -, -, htoken, htext⟩ := exists_of_mem_scanFrom hl hend
    rw [htoken, htext]
    exact nameDecoded_token c rest

/-- A quoted text `Decodes` what stands between its quotes. -/
theorem exists_decodes_of_string {text : List Char} {l : Lexeme} (hl : l ∈ ofText text)
    {value : String} (hvalue : l.token = .string value) :
    ∃ quote part tail, (quote = '"' ∨ quote = '\'') ∧ l.text = quote :: (part ++ tail) ∧
      Decodes true part value ∧
      if isTerminated l then tail = [quote]
      else (tail = [] ∨ tail = ['\\']) ∧ l.stop = byteSize text := by
  obtain ⟨before, quote, input, htext, hstart, htoken, hltext⟩ :=
    exists_of_mem_scanFrom hl (by simp [hvalue])
  rw [hvalue] at htoken
  obtain ⟨hquote, hscan⟩ := token_eq_string (by rw [← htoken]; rfl)
  rw [hscan, string, stringBody_eq_quoted] at htoken hltext
  obtain ⟨part, tail, hpart, hdecoded, htail⟩ := exists_unescape?_quoted quote input
  have hending : (quoted quote input).value.1 ≠ .lineEnd := by
    intro hline
    simp [Scanned.after, Ending.value?, hline] at htoken
  simp only [Scanned.after, Ending.value?, if_neg hending, Token.string.injEq] at htoken
  -- The quotes are found to be closed exactly if the scanner has stopped at one.
  have hterminated : isTerminated l ↔ (quoted quote input).value.1 = .quote := by
    rw [isTerminated, hvalue, hltext]
    refine (Whole.nil quote).endsWithQuote_iff ?_ input
    rcases hquote with rfl | rfl <;> decide
  have hlexeme : l.text = quote :: (part ++ tail) := by
    rw [hltext, ← hpart]
    rfl
  refine ⟨quote, part, tail, hquote, hlexeme, ?_, ?_⟩
  · rw [decodes_iff, htoken, String.toList_ofList]
    exact hdecoded
  · cases hkind : (quoted quote input).value.1 with
    | quote =>
      rw [hkind] at htail
      rw [if_pos (hterminated.mpr hkind)]
      exact htail
    | endOfText =>
      rw [hkind] at htail
      obtain ⟨htail, hrest⟩ := htail
      rw [if_neg (by rw [hterminated, hkind]; simp)]
      have happend := quoted_append quote input
      rw [hrest, List.append_nil, hpart] at happend
      refine ⟨htail, ?_⟩
      rw [stop, hlexeme, htext, byteSize_append, happend]
      omega
    | lineEnd => exact absurd hkind hending

/-- The place of a lexeme of `ofText` holds its text. -/
theorem slice?_span_of_mem {text : List Char} {l : Lexeme} (hl : l ∈ ofText text) :
    l.span.slice? text = some l.text := by
  obtain ⟨before, after, hsplit⟩ := List.append_of_mem hl
  have hone : ofText text = before ++ ([l] ++ after) := hsplit
  have hslice : l.span.slice? text = some (join [l]) := slice?_of_ofText hone
  rw [hslice, join, List.flatMap_nil, List.append_nil]

/-- **Tokens hold what their texts stand for.** The payload of every token of any text is decoded
from the characters at its place. A name is decoded from all of them, the name of a function from
those in front of its parenthesis, the name of an at-rule or a hash from those behind the mark, and
a quoted text from those between its quotes, where escaped line ends are removed. Only a quoted text
that the end of the text cuts off may end with a backslash that escapes nothing, and it is dropped
there. Where no backslash stands, the characters are the payload. -/
theorem payload_decoded {text : List Char} {l : Lexeme} (hl : l ∈ ofText text) :
    l.span.slice? text = some l.text ∧
    (∀ name, l.token = .ident name → Decodes false l.text name) ∧
    (∀ name, l.token = .function name →
      ∃ part, l.text = part ++ ['('] ∧ Decodes false part name) ∧
    (∀ name, l.token = .atKeyword name → ∃ part, l.text = '@' :: part ∧ Decodes false part name) ∧
    (∀ value, l.token = .hash value → ∃ part, l.text = '#' :: part ∧ Decodes false part value) ∧
    (∀ value, l.token = .string value →
      ∃ quote part tail, (quote = '"' ∨ quote = '\'') ∧ l.text = quote :: (part ++ tail) ∧
        Decodes true part value ∧
        if isTerminated l then tail = [quote]
        else (tail = [] ∨ tail = ['\\']) ∧ l.stop = byteSize text) := by
  have hname := nameDecoded hl
  refine ⟨slice?_span_of_mem hl, ?_, ?_, ?_, ?_, fun value => exists_decodes_of_string hl⟩ <;>
  · intro name htoken
    rwa [htoken] at hname

/-- A code with the blank that ends it, and a quoted text at the end of the text with an escaped
line end and a backslash that escapes nothing. -/
theorem payload_decoded_blue :
    let text := "b\\6c ue('\\41\\\n\\".toList
    (∃ l ∈ ofText text, l.token = .function "blue" ∧
      ∃ part, l.text = part ++ ['('] ∧ Decodes false part "blue") ∧
    ∃ l ∈ ofText text, l.token = .string "A" ∧ ¬ isTerminated l ∧
      ∃ quote part tail, l.text = quote :: (part ++ tail) ∧ Decodes true part "A" ∧
        (tail = [] ∨ tail = ['\\']) ∧ l.stop = byteSize text := by
  intro text
  let function : Lexeme := ⟨.function "blue", [], "b\\6c ue(".toList, 0⟩
  let string : Lexeme := ⟨.string "A", [], "'\\41\\\n\\".toList, 8⟩
  have hfunction : function ∈ ofText text := by decide +kernel
  have hstring : string ∈ ofText text := by decide +kernel
  have hopen : ¬ isTerminated string := by decide +kernel
  refine ⟨⟨function, hfunction, rfl, (payload_decoded hfunction).2.2.1 _ rfl⟩,
    string, hstring, rfl, hopen, ?_⟩
  obtain ⟨quote, part, tail, -, htext, hpart, htail⟩ :=
    (payload_decoded hstring).2.2.2.2.2 _ rfl
  rw [if_neg hopen] at htail
  exact ⟨quote, part, tail, htext, hpart, htail⟩

end Lexeme

end ThemeColor
