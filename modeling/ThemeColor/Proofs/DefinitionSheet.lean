import ThemeColor.Proofs.Continuation
import ThemeColor.Proofs.Places
import ThemeColor.Proofs.Recovery

/-!
# A definition and a reference to it

The style sheet that defines a color under a name and refers to it by that name in the only
declaration of a rule. If the name is read as it is written, without escapes and comments, and the
value is a color that leaves no comment open, then the rules of the sheet are the definition and the
rule with the declaration (`Sheet.sites_definitionSheet`).
-/

namespace ThemeColor

open Text

namespace Scan

/-- The text is a name without escapes. -/
structure IsPlainName (word : List Char) : Prop where
  /-- It starts like a name. -/
  starts : startsName word
  /-- It has only characters of names. -/
  chars : ∀ c ∈ word, isNameChar c

variable {word rest : List Char}

theorem length_value_name_le (input : List Char) : (name input).value.length ≤ input.length := by
  fun_induction name input with
  | case1 => exact Nat.le_refl _
  | case2 c rest _ ih => simpa [Scanned.after] using ih
  | case3 c rest _ _ e ih =>
    have hle : e.rest.length ≤ rest.length := length_rest_escape_le rest
    simp only [Scanned.after, List.length_cons] at ih ⊢
    omega
  | case4 => exact Nat.zero_le _

/-- A `name` that means its own text has no escapes. -/
theorem isNameChar_of_value_name {input : List Char} (h : (name input).value = input) :
    ∀ c ∈ input, isNameChar c := by
  fun_induction name input with
  | case1 => simp
  | case2 c rest hc ih =>
    exact List.forall_mem_cons.mpr ⟨hc, ih (List.cons.inj h).2⟩
  | case3 c rest _ hescape e ih =>
    -- An escape means one character and takes two at least.
    have hlength := congrArg List.length h
    have hvalue := length_value_name_le e.rest
    have hrest : e.rest.length < rest.length := by
      cases rest with
      | nil => cases hescape.2
      | cons d rest => exact length_rest_escape_lt d rest
    simp only [Scanned.after, List.length_cons] at hlength
    omega
  | case4 c rest => cases h

/-- Behind an at sign `token` reads the name of an at-rule, if one starts there. -/
theorem value_token_at (rest : List Char) :
    (token '@' rest).value =
      if startsName rest then .atKeyword (String.ofList (name rest).value) else .delim '@' := by
  by_cases h : startsName rest
  · simp [token, isSpace, h, Scanned.after]
  · have hnumeral : Numeral.startsWith ('@' :: rest) = false := rfl
    have hname : startsName ('@' :: rest) = false := rfl
    simp [token, isSpace, h, hnumeral, hname, punctuation]

/-- A name that is read as an at-keyword of its own text is plain, as `IsPlainName` says. -/
theorem isPlainName_of_ofText
    (h : (Lexeme.ofText ('@' :: word)).map (·.token) = [.atKeyword (String.ofList word), .eof]) :
    IsPlainName word := by
  rw [Lexeme.ofText, Lexeme.scanFrom_cons (comments_cons (by simp)), List.map_cons] at h
  have htoken := (List.cons.inj h).1
  rw [value_token_at] at htoken
  split at htoken
  · rename_i hstarts
    refine ⟨hstarts, isNameChar_of_value_name (String.ofList_injective ?_)⟩
    simpa using htoken
  · cases htoken

/-- A blank or a colon ends a `name`. -/
theorem name_cons_of_mem {t : Char} (ht : t ∈ [' ', ':']) (rest : List Char) :
    name (t :: rest) = ⟨[], [], t :: rest⟩ := by
  simp only [List.mem_cons, List.not_mem_nil, or_false] at ht
  rcases ht with rfl | rfl <;> rw [name, if_neg (by decide), if_neg (by simp)]

namespace IsPlainName

variable (h : IsPlainName word)
include h

theorem exists_cons : ∃ c tail, word = c :: tail ∧ isSpace c = false ∧ c ≠ '/' := by
  cases word with
  | nil => cases h.starts
  | cons c tail =>
    have hc := h.chars c List.mem_cons_self
    refine ⟨c, tail, rfl, ?_, ?_⟩
    · cases hspace : isSpace c with
      | false => rfl
      | true =>
        simp only [isSpace, Bool.or_eq_true, decide_eq_true_eq] at hspace
        rcases hspace with (((rfl | rfl) | rfl) | rfl) | rfl <;> cases hc
    · rintro rfl
      cases hc

/-- A plain name behind an at sign is one lexeme of `scanFrom`. -/
theorem scanFrom_atKeyword {tail : List Char} (htail : name tail = ⟨[], [], tail⟩)
    (offset : Nat) :
    Lexeme.scanFrom offset ('@' :: word ++ tail) =
      ⟨.atKeyword (String.ofList word), [], '@' :: word, offset⟩ ::
        Lexeme.scanFrom (offset + byteSize ('@' :: word)) tail := by
  have htoken : token '@' (word ++ tail) =
      ⟨.atKeyword (String.ofList word), '@' :: word, tail⟩ := by
    have hstarts : startsName (word ++ tail) := startsName_append h.starts _
    simp [token, isSpace, hstarts, name_run h.chars htail, Scanned.after]
  rw [List.cons_append, Lexeme.scanFrom_cons (comments_cons (by simp)), htoken]
  simp

/-- A plain name in front of a blank or a colon is one lexeme of `scanFrom`. -/
theorem scanFrom_ident {t : Char} (ht : t ∈ [' ', ':']) (offset : Nat) :
    Lexeme.scanFrom offset (word ++ t :: rest) =
      ⟨.ident (String.ofList word), [], word, offset⟩ ::
        Lexeme.scanFrom (offset + byteSize word) (t :: rest) := by
  obtain ⟨c, tail, rfl, -, hslash⟩ := h.exists_cons
  have hmark : c = '-' → (tail ++ t :: rest).take 2 ≠ ['-', '>'] := by
    -- The character `>` belongs to no name, and it does not end one here.
    intro _ htake
    have hend : t ≠ '-' ∧ t ≠ '>' := by
      constructor <;> rintro rfl <;> simp at ht
    rcases tail with _ | ⟨d, _ | ⟨e, tail⟩⟩
    · exact hend.1 (List.cons.inj htake).1
    · simp [hend.2] at htake
    · obtain ⟨-, rfl⟩ : d = '-' ∧ e = '>' := by simpa using htake
      exact absurd (h.chars '>' (by simp)) (by decide)
  have htoken : token c (tail ++ t :: rest) =
      ⟨.ident (String.ofList (c :: tail)), c :: tail, t :: rest⟩ := by
    have hstarts : startsName (c :: (tail ++ t :: rest)) := startsName_append h.starts _
    have hname : name (c :: (tail ++ t :: rest)) = ⟨c :: tail, c :: tail, t :: rest⟩ :=
      name_run h.chars (name_cons_of_mem ht rest)
    rw [token_of_startsName hstarts hmark, nameLike_of_head?, hname]
    rw [hname]
    simp only [List.mem_cons, List.not_mem_nil, or_false] at ht
    rcases ht with rfl | rfl <;> simp
  rw [List.cons_append, Lexeme.scanFrom_cons (comments_cons fun hc => absurd hc hslash), htoken]
  simp

end IsPlainName

end Scan

namespace Lexeme

/-- One blank in front of something else is one lexeme of `scanFrom`. -/
theorem scanFrom_space {rest : List Char} (h : rest.head?.any Scan.isSpace = false) (offset : Nat) :
    scanFrom offset (' ' :: rest) =
      ⟨.whitespace, [], [' '], offset⟩ :: scanFrom (offset + 1) rest := by
  have hsize : byteSize [' '] = 1 := rfl
  rw [scanFrom_cons (Scan.comments_cons (by simp)), Scan.token, if_pos (by decide)]
  cases rest with
  | nil => simp [hsize]
  | cons c rest => simp_all

/-- A colon, or a brace, is one lexeme of `scanFrom`. -/
theorem scanFrom_mark {c : Char} (hc : c ∈ [':', '{', '}']) (rest : List Char)
    (offset : Nat) :
    scanFrom offset (c :: rest) =
      ⟨Scan.punctuation c, [], [c], offset⟩ :: scanFrom (offset + 1) rest := by
  have htoken : Scan.token c rest = ⟨Scan.punctuation c, [c], rest⟩ ∧ c ≠ '/' ∧
      byteSize [c] = 1 := by
    simp only [List.mem_cons, List.not_mem_nil, or_false] at hc
    rcases hc with rfl | rfl | rfl <;> exact ⟨rfl, by decide, rfl⟩
  obtain ⟨htoken, hslash, hsize⟩ := htoken
  rw [scanFrom_cons (Scan.comments_cons fun h => absurd h hslash), htoken]
  simp [hsize]

end Lexeme

namespace Component

theorem completeAll_iff {around : Option Bracket} {cs : List Component} :
    CompleteAll around cs ↔ ∀ c ∈ cs, c.Complete around := by
  induction cs with
  | nil => simp [CompleteAll]
  | cons c cs ih => rw [CompleteAll, ih, List.forall_mem_cons]

theorem lexemesAll_map_token (ls : List Lexeme) : lexemesAll (ls.map .token) = ls := by
  induction ls with
  | nil => rfl
  | cons l ls ih => rw [List.map_cons, lexemesAll, ih, lexemes, List.singleton_append]

end Component

namespace Sheet

open Lexeme Component

/-! ## Blanks between rules and declarations -/

section Steps

variable {l : Lexeme} {after out : List Lexeme}

/-- A blank between the rules that one `Reads` is passed over. -/
theorem Reads.rules_of_blank {outermost : Bool} {rs : List Rule} (hl : l.token = .whitespace)
    (h : Reads (.rules outermost rs) (l :: after) out) : Reads (.rules outermost rs) after out := by
  have hbetween : BetweenRules outermost l.token := .inl hl
  cases h with
  | endRules hl' => simp [EndsRules, hl] at hl'
  | betweenRules _ hmore => exact hmore
  | ruleAt hl' => cases hl.symm.trans hl'
  | ruleCutOff hl' | ruleStyle hl' | ruleStray hl' | ruleLost hl' =>
    exact absurd hbetween hl'.belongs

/-- A blank between the declarations that one `Reads` is passed over. -/
theorem Reads.declarations_of_blank {ds : List Declaration} (hl : l.token = .whitespace)
    (h : Reads (.declarations ds) (l :: after) out) : Reads (.declarations ds) after out := by
  cases h with
  | endDeclarations hl' => simp [hl] at hl'
  | betweenDeclarations _ hmore => exact hmore
  | declarationAt hl' => cases hl.symm.trans hl'
  | declarationNamed hl' => cases hl.symm.trans hl'
  | declarationLost hl' => exact absurd hl hl'.belongs.1

end Steps

/-- A keyword between blanks is read as the value of a declaration. -/
theorem declaration_atKeyword (property : String) {name : String} (colon : Mark .colon)
    (blank : Mark .whitespace) (keyword : Mark (.atKeyword name)) (blank' : Mark .whitespace)
    (closing : Mark (.closer .curly)) (rest : List Lexeme) :
    (declaration property
        (colon.1 :: blank.1 :: keyword.1 :: blank'.1 :: closing.1 :: rest)).1 =
      some ⟨property, ⟨keyword.1.start, keyword.1.stop⟩, false⟩ ∧
    (declaration property
        (colon.1 :: blank.1 :: keyword.1 :: blank'.1 :: closing.1 :: rest)).2.1 =
      closing.1 :: rest := by
  have hcomplete : CompleteAll none [.token keyword.1, .token blank'.1] := by
    simp [CompleteAll, Complete, keyword.2, blank'.2, Token.opens?]
  obtain ⟨hpieces, hrest⟩ :
      (pieces endsDeclaration (keyword.1 :: blank'.1 :: closing.1 :: rest)).1 =
          piecesOf [.token keyword.1, .token blank'.1] (closing.1 :: rest) ∧
        (pieces endsDeclaration (keyword.1 :: blank'.1 :: closing.1 :: rest)).2.1 =
          closing.1 :: rest :=
    pieces_lexemesAll hcomplete (by simp [first, keyword.2, blank'.2, endsDeclaration])
      (by rw [closing.2]; rfl) rest
  have hblanks : (afterBlanks (blank.1 :: keyword.1 :: blank'.1 :: closing.1 :: rest)).1 =
      keyword.1 :: blank'.1 :: closing.1 :: rest := by
    simp [afterBlanks, blank.2, keyword.2, Token.isWhitespace]
  -- The blank behind the keyword is no part of the value.
  have hbare : bareValue (piecesOf [.token keyword.1, .token blank'.1] (closing.1 :: rest)) =
      [⟨keyword.1, blank'.1 :: closing.1 :: rest⟩] := by
    simp [piecesOf, bareValue, dropImportant, Piece.isWhitespace, Piece.isImportantWord,
      Token.isWhitespace, first, lexemes, lexemesAll, keyword.2, blank'.2]
  have hplain : isImportant (piecesOf [.token keyword.1, .token blank'.1] (closing.1 :: rest)) =
      false := by
    simp [piecesOf, isImportant, Piece.isWhitespace, Token.isWhitespace, first, keyword.2, blank'.2]
  unfold declaration
  dsimp only
  split
  · rename_i hnil
    simp [afterBlanks, colon.2, Token.isWhitespace] at hnil
  · rename_i l after hcons
    obtain ⟨rfl, rfl⟩ : colon.1 = l ∧
        blank.1 :: keyword.1 :: blank'.1 :: closing.1 :: rest = after := by
      simpa [afterBlanks, colon.2, Token.isWhitespace] using hcons
    rw [if_pos colon.2]
    dsimp only
    rw [hblanks, hpieces, hrest, hbare, hplain]
    simp [valueSpan, Piece.stop, keyword.2, Token.opens?]

variable {name : List Char}

/-- The rule that defines the color. -/
def definitionRule (name value : List Char) : List Char :=
  '@' :: "define-color".toList ++ ' ' :: (name ++ (' ' :: value ++ [';']))

/-- A rule with one declaration of the given value. -/
def colorRule (value : List Char) : List Char :=
  " a ".toList ++ '{' :: (" color: ".toList ++ (value ++ [' ', '}']))

/-- The style sheet that defines a color and refers to it,
`@define-color name value; a { color: @name }`. -/
def definitionSheet (name value : List Char) : List Char :=
  definitionRule name value ++ colorRule ('@' :: name)

/-- The lexemes of the `colorRule`. -/
theorem scanFrom_colorRule (h : Scan.IsPlainName name) (offset : Nat) :
    scanFrom offset (colorRule ('@' :: name)) =
      [⟨.whitespace, [], [' '], offset⟩, ⟨.ident "a", [], ['a'], offset + 1⟩,
        ⟨.whitespace, [], [' '], offset + 2⟩, ⟨.opener .curly, [], ['{'], offset + 3⟩,
        ⟨.whitespace, [], [' '], offset + 4⟩,
        ⟨.ident "color", [], "color".toList, offset + 5⟩, ⟨.colon, [], [':'], offset + 10⟩,
        ⟨.whitespace, [], [' '], offset + 11⟩,
        ⟨.atKeyword (String.ofList name), [], '@' :: name, offset + 12⟩,
        ⟨.whitespace, [], [' '], offset + 12 + byteSize ('@' :: name)⟩,
        ⟨.closer .curly, [], ['}'], offset + 12 + byteSize ('@' :: name) + 1⟩,
        ⟨.eof, [], [], offset + 12 + byteSize ('@' :: name) + 2⟩] := by
  have hrule : colorRule ('@' :: name) = ' ' :: (['a'] ++ ' ' :: '{' :: ' ' ::
      ("color".toList ++ ':' :: ' ' :: ('@' :: name ++ ' ' :: '}' :: []))) := rfl
  have ha : Scan.IsPlainName ['a'] := ⟨by decide, by decide⟩
  have hcolor : Scan.IsPlainName "color".toList := ⟨by decide, by decide⟩
  have hsizes : byteSize ['a'] = 1 ∧ byteSize "color".toList = 5 := ⟨rfl, rfl⟩
  rw [hrule, scanFrom_space rfl, ha.scanFrom_ident (by decide), scanFrom_space rfl,
    scanFrom_mark (by decide), scanFrom_space rfl, hcolor.scanFrom_ident (by decide),
    scanFrom_mark (by decide), scanFrom_space rfl,
    h.scanFrom_atKeyword (Scan.name_cons_of_mem (by decide) _), scanFrom_space rfl,
    scanFrom_mark (by decide), hsizes.1, hsizes.2, scanFrom_nil]
  rfl

/-- The `colorRule` is read with the reference as the value of its declaration. -/
theorem Reads.exists_of_colorRule (h : Scan.IsPlainName name) {offset : Nat} {rs : List Rule}
    {out : List Lexeme}
    (hreads : Reads (.rules true rs) (scanFrom offset (colorRule ('@' :: name))) out) :
    ∃ prelude, rs = [.style prelude
      [⟨"color", ⟨offset + 12, offset + 12 + byteSize ('@' :: name)⟩, false⟩]] := by
  rw [scanFrom_colorRule h] at hreads
  have hstarts : StartsStyleRule true (.ident "a") :=
    ⟨by simp [EndsRules], by simp [BetweenRules], by simp⟩
  have hcomplete : CompleteAll none [.token ⟨.ident "a", [], ['a'], offset + 1⟩,
      .token ⟨.whitespace, [], [' '], offset + 2⟩] := by
    simp [CompleteAll, Complete, Token.opens?]
  obtain ⟨ds, mid, more, hinner, hmore, rfl⟩ := (hreads.rules_of_blank rfl).exists_of_style hstarts
    (skip_lexemesAll hcomplete (by simp [first, endsStylePrelude]) rfl _) rfl
  obtain ⟨others, hothers, rfl⟩ := (hinner.declarations_of_blank rfl).exists_of_ident rfl
  -- The declaration goes up to the closing brace, behind which the text ends.
  obtain ⟨hfound, hrest⟩ := declaration_atKeyword "color" ⟨⟨.colon, [], [':'], offset + 10⟩, rfl⟩
    ⟨⟨.whitespace, [], [' '], offset + 11⟩, rfl⟩
    ⟨⟨.atKeyword (String.ofList name), [], '@' :: name, offset + 12⟩, rfl⟩
    ⟨⟨.whitespace, [], [' '], offset + 12 + byteSize ('@' :: name)⟩, rfl⟩
    ⟨⟨.closer .curly, [], ['}'], offset + 12 + byteSize ('@' :: name) + 1⟩, rfl⟩
    [⟨.eof, [], [], offset + 12 + byteSize ('@' :: name) + 2⟩]
  rw [hrest] at hothers
  obtain ⟨rfl, rfl⟩ := hothers.eq_of_closingBrace rfl
  rw [afterBrace_closing ⟨_, rfl⟩] at hmore
  obtain ⟨rfl, -⟩ := hmore.eq_of_endsRules (.inl rfl)
  rw [hfound]
  exact ⟨_, rfl⟩

/-- The lexemes of the `definitionSheet`: those of the definition up to its semicolon, and then
those of the rule. -/
theorem exists_ofText_definitionSheet {value : List Char} {color : Color Float}
    (hname : Scan.IsPlainName name) (hparse : Color.parse (String.ofList value) = .ok color)
    (hclosed : ClosesComments value) :
    ∃ (w semicolon : Lexeme) (before after : List Lexeme) (c : Component),
      Lexeme.ofText (definitionSheet name value) =
        ⟨.atKeyword "define-color", [], '@' :: "define-color".toList, 0⟩ ::
          ⟨.whitespace, [], [' '], 13⟩ :: ⟨.ident (String.ofList name), [], name, 14⟩ ::
          w :: (before ++ (c.lexemes ++ (after ++
            semicolon :: scanFrom semicolon.stop (colorRule ('@' :: name))))) ∧
      (w.token = .whitespace ∧ w.gap = [] ∧ w.text.head? = some ' ') ∧
      (∀ l ∈ before, l.token = .whitespace) ∧ (∀ l ∈ after, l.token = .whitespace) ∧
      Grammar.Single c color ∧ c.Matched ∧ c.Complete none ∧ semicolon.token = .semicolon ∧
      semicolon.stop = byteSize (definitionRule name value) := by
  have hkeyword : Scan.IsPlainName "define-color".toList := ⟨by decide, by decide⟩
  have hsheet : definitionSheet name value = '@' :: "define-color".toList ++ ' ' ::
      (name ++ ' ' :: (value ++ ';' :: colorRule ('@' :: name))) := by
    simp only [definitionSheet, definitionRule, List.append_assoc, List.cons_append,
      List.nil_append]
  have hsize : byteSize ('@' :: "define-color".toList) = 13 := by decide
  have hspace : (name ++ ' ' :: (value ++ ';' :: colorRule ('@' :: name))).head?.any Scan.isSpace =
      false := by
    obtain ⟨c, tail, rfl, hc, -⟩ := hname.exists_cons
    simpa using hc
  obtain ⟨w, semicolon, before, after, c, hscan, hw, hbefore, hafter, hsingle, hmatched, hcomplete,
    hsemicolon, hstop⟩ := Color.exists_scanFrom hparse hclosed (14 + byteSize name)
      (colorRule ('@' :: name))
  refine ⟨w, semicolon, before, after, c, ?_, hw, hbefore, hafter, hsingle, hmatched, hcomplete,
    hsemicolon, ?_⟩
  · rw [Lexeme.ofText, hsheet,
      hkeyword.scanFrom_atKeyword (Scan.name_cons_of_mem (by decide) _), hsize,
      scanFrom_space hspace, hname.scanFrom_ident (by decide), ← List.cons_append, hscan]
    rfl
  · have hone : ' '.utf8Size = 1 := rfl
    rw [definitionRule, byteSize_append ('@' :: _), hsize, byteSize_cons ' ' (name ++ _),
      byteSize_append name]
    omega

/-! ## The parts of the style sheet -/

section Prelude

variable {word : String} (sp : Mark .whitespace) (nm : Mark (.ident word)) (w : Mark .whitespace)
  {before after : List Lexeme} {c : Component} {color : Color Float}

/-- The components between the keyword of a definition and its semicolon. -/
def definitionPrelude (before : List Lexeme) (c : Component) (after : List Lexeme) :
    List Component :=
  .token sp.1 :: .token nm.1 :: .token w.1 :: (before.map .token ++ c :: after.map .token)

/-- The `definitionPrelude` satisfies `IsAtPrelude`. -/
theorem isAtPrelude_definitionPrelude (hbefore : ∀ l ∈ before, l.token = .whitespace)
    (hafter : ∀ l ∈ after, l.token = .whitespace) (hcolor : Grammar.Single c color)
    (hcomplete : c.Complete none) : IsAtPrelude (definitionPrelude sp nm w before c after) := by
  have hblank {l : Lexeme} (hl : l.token = .whitespace) : (Component.token l).Complete none ∧
      l.token ≠ .semicolon ∧ l.token ≠ .opener .curly := by
    simp [Complete, hl, Token.opens?]
  have hword : (Component.token nm.1).Complete none ∧
      nm.1.token ≠ .semicolon ∧ nm.1.token ≠ .opener .curly := by
    simp [Complete, nm.2, Token.opens?]
  have hfirst : c.first.token ≠ .semicolon ∧ c.first.token ≠ .opener .curly := by
    cases hcolor with
    | hash hl | defined hl | name hl => simp [first, hl]
    | call hl => simp [first, hl]
  have hall : ∀ c' ∈ definitionPrelude sp nm w before c after, c'.Complete none ∧
      c'.first.token ≠ .semicolon ∧ c'.first.token ≠ .opener .curly := by
    simp only [definitionPrelude, List.forall_mem_cons, List.forall_mem_append, List.forall_mem_map]
    exact ⟨hblank sp.2, hword, hblank w.2, fun l hl => hblank (hbefore l hl), ⟨hcomplete, hfirst⟩,
      fun l hl => hblank (hafter l hl)⟩
  exact ⟨completeAll_iff.mpr fun c' hc' => (hall c' hc').1, fun c' hc' => (hall c' hc').2⟩

theorem lexemesAll_definitionPrelude :
    lexemesAll (definitionPrelude sp nm w before c after) =
      sp.1 :: nm.1 :: w.1 :: (before ++ (c.lexemes ++ after)) := by
  simp only [definitionPrelude, lexemesAll, lexemes, lexemesAll_append, lexemesAll_map_token,
    List.cons_append, List.nil_append]

/-- Without its blank ends the `definitionPrelude` goes from the name to the color. -/
theorem solidSpan_definitionPrelude (hafter : ∀ l ∈ after, l.token = .whitespace)
    (hcolor : Grammar.Single c color) (hmatched : c.Matched) (next : Lexeme) :
    solidSpan (lexemesAll (definitionPrelude sp nm w before c after)) next =
      spanOf nm.1 (w.1 :: (before ++ c.lexemes)) := by
  have hlexemes : lexemesAll (definitionPrelude sp nm w before c after) =
      [sp.1] ++ ((nm.1 :: w.1 :: (before ++ c.lexemes)) ++ after) := by
    simp [lexemesAll_definitionPrelude]
  obtain ⟨front, last, hlast, -, -, hsolid⟩ := hcolor.exists_last hmatched
  have htrim : trimWhile (·.token.isWhitespace) (nm.1 :: w.1 :: (before ++ c.lexemes)) =
      nm.1 :: w.1 :: (before ++ c.lexemes) := by
    refine trimWhile_eq_self (by simp [nm.2, Token.isWhitespace]) ?_
    rw [hlast, ← List.append_assoc, ← List.cons_append, ← List.cons_append, List.getLast?_concat]
    simpa using hsolid
  rw [solidSpan, hlexemes, trimWhile_append_left (by simp [sp.2, Token.isWhitespace]),
    trimWhile_append_right fun l hl => by simp [hafter l hl, Token.isWhitespace], htrim]

end Prelude

/-- The parts of the `definitionSheet` are the definition, with the name up to a blank at the start
of its prelude, and the reference. -/
theorem sites_definitionSheet {value : List Char} {color : Color Float}
    (hname : Scan.IsPlainName name) (hparse : Color.parse (String.ofList value) = .ok color)
    (hclosed : ClosesComments value) :
    ∃ heading text,
      (Sheet.ofText (definitionSheet name value)).flatMap sites =
        [.definition heading false,
          .value ⟨"color", ⟨byteSize (definitionRule name value) + 12,
            byteSize (definitionRule name value) + 12 + byteSize ('@' :: name)⟩, false⟩] ∧
      heading.span = ⟨0, byteSize (definitionRule name value)⟩ ∧
      textAt (definitionSheet name value) heading.prelude = name ++ ' ' :: text := by
  obtain ⟨w, semicolon, before, after, c, hlexemes, ⟨hw, hgap, htext⟩, hbefore, hafter, hsingle,
    hmatched, hcomplete, hsemicolon, hstop⟩ := exists_ofText_definitionSheet hname hparse hclosed
  let keyword : Mark (.atKeyword "define-color") :=
    ⟨⟨.atKeyword "define-color", [], '@' :: "define-color".toList, 0⟩, rfl⟩
  let sp : Mark .whitespace := ⟨⟨.whitespace, [], [' '], 13⟩, rfl⟩
  let nm : Mark (.ident (String.ofList name)) := ⟨⟨.ident (String.ofList name), [], name, 14⟩, rfl⟩
  let prelude : { cs : List Component // IsAtPrelude cs } :=
    ⟨_, isAtPrelude_definitionPrelude sp nm ⟨w, hw⟩ hbefore hafter hsingle hcomplete⟩
  let rule : WrittenRule := .statement "define-color" keyword prelude ⟨semicolon, hsemicolon⟩
  -- The definition is read as it is written, and then the rule is.
  have hreads := reads_rules true (Lexeme.ofText (definitionSheet name value))
  have hrule : Lexeme.ofText (definitionSheet name value) =
      rule.lexemes ++ scanFrom semicolon.stop (colorRule ('@' :: name)) := by
    rw [hlexemes, WrittenRule.lexemes, lexemesAll_definitionPrelude]
    simp only [keyword, sp, nm, List.cons_append, List.append_assoc, List.nil_append]
  rw [hrule] at hreads
  obtain ⟨more, hfound, hmore⟩ := rule.of_reads true _ hreads
  obtain ⟨span, rfl⟩ := hmore.exists_of_colorRule hname
  refine ⟨writtenHeading "define-color" keyword.1 prelude.1 semicolon semicolon,
    w.text.tail ++ (before ++ c.lexemes).flatMap fun l => l.gap ++ l.text, ?_, ?_, ?_⟩
  · have hdefines : isDefinition (writtenHeading "define-color" keyword.1 prelude.1 semicolon
        semicolon) := by
      show sameIgnoringCase "define-color" "define-color"
      decide +kernel
    rw [Sheet.ofText, hrule, hfound, WrittenRule.rule, hstop]
    simp only [List.flatMap_cons, List.flatMap_nil, sites, definition?, hdefines, if_true]
    rfl
  · rw [writtenHeading, hstop]
  · have hnear : Lexeme.ofText (definitionSheet name value) = [keyword.1, sp.1] ++
        (nm.1 :: (w :: (before ++ c.lexemes)) ++
          (after ++ semicolon :: scanFrom semicolon.stop (colorRule ('@' :: name)))) := by
      rw [hlexemes]
      simp [keyword, sp, nm]
    have htail : w.text = ' ' :: w.text.tail := List.eq_cons_of_mem_head? htext
    rw [textAt, writtenHeading]
    dsimp only
    rw [solidSpan_definitionPrelude sp nm ⟨w, hw⟩ hafter hsingle hmatched, slice?_of_ofText hnear,
      Option.getD_some, Lexeme.join, List.flatMap_cons, hgap, List.nil_append, htail]
    rfl

end Sheet

end ThemeColor
