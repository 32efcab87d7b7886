import ThemeColor.Proofs.Agreement
import ThemeColor.Proofs.ComponentRun
import ThemeColor.Proofs.Typesetting

/-!
# Colors in front of a semicolon

A color that is a text of its own is written in front of a semicolon in a style sheet. It is read
into the same lexemes there: its last token is a name or a closing parenthesis, and the semicolon
ends both. Only a comment that the text leaves open goes on behind it.

## Main results

* `Scan.token_continue`: names are read the same in front of a semicolon;
* `Grammar.Single.continues`: so is the one component that writes a color;
* `Color.exists_scanFrom`: the lexemes of a color between a blank and a semicolon.
-/

namespace ThemeColor

open Text

/-- The scan with more text behind what is left. -/
def Scanned.before {α : Type} (tail : List Char) (s : Scanned α) : Scanned α :=
  { s with rest := s.rest ++ tail }

/-- Whether the token is a name, perhaps behind `#` or `@`. -/
def Token.isWord : Token → Bool
  | .hash _ | .atKeyword _ | .ident _ => true
  | _ => false

namespace Scan

variable {c : Char} {x rest : List Char}

/-! ## Comments -/

/-- A comment that `commentBody` has read to its end is read the same whatever follows. -/
theorem commentBody_continue {x : List Char} (h : (commentBody x).2 ≠ []) (tail : List Char) :
    commentBody (x ++ tail) = ((commentBody x).1, (commentBody x).2 ++ tail) := by
  induction x with
  | nil => exact absurd rfl h
  | cons c x ih =>
    by_cases hend : c = '*' ∧ x.head? = some '/'
    · obtain ⟨rfl, hx⟩ := hend
      obtain ⟨x, rfl⟩ := List.head?_eq_some_iff.mp hx
      rfl
    · have hgoes : c = '*' → x.head? ≠ some '/' := fun hc hx => hend ⟨hc, hx⟩
      rw [commentBody_cons hgoes] at h ⊢
      rw [List.cons_append, commentBody_cons, ih h]
      -- Something is left behind the comment, so it does not end with the text.
      intro hc hhead
      cases x with
      | nil => exact h rfl
      | cons d x => exact hgoes hc hhead

/-- The `comments` with a token behind them are read the same whatever follows that token, unless it
makes another comment of it. -/
theorem comments_continue {gap tail : List Char} (h : comments x = (gap, c :: rest))
    (htail : c = '/' → tail.head? ≠ some '*') :
    comments (x ++ tail) = (gap, c :: rest ++ tail) := by
  induction hlength : x.length using Nat.strongRecOn generalizing x gap with
  | ind n ih =>
    subst hlength
    by_cases hstart : ∃ y, x = '/' :: '*' :: y
    · obtain ⟨y, rfl⟩ := hstart
      rw [comments] at h
      obtain ⟨rfl, hrest⟩ := Prod.mk.inj h
      have hbody : (commentBody y).2 ≠ [] := by
        intro hnil
        simp [hnil, comments] at hrest
      have hle := length_commentBody_le y
      have hmore := ih _ (by simp only [List.length_cons]; omega) (Prod.ext rfl hrest) rfl
      rw [List.cons_append, List.cons_append, comments, commentBody_continue hbody]
      dsimp only
      rw [hmore]
    · cases x with
      | nil => simp [comments] at h
      | cons d x =>
        have hplain : d = '/' → x.head? ≠ some '*' := by
          rintro rfl hhead
          obtain ⟨y, rfl⟩ := List.head?_eq_some_iff.mp hhead
          exact hstart ⟨y, rfl⟩
        rw [comments_cons hplain] at h
        obtain ⟨rfl, heq⟩ := Prod.mk.inj h
        obtain ⟨rfl, rfl⟩ := List.cons.inj heq
        refine comments_cons fun hd => ?_
        cases x with
        | nil => exact htail hd
        | cons e x => exact hplain hd

/-- A comment starts with a slash. -/
theorem head?_of_comments {gap left : List Char} (h : comments x = (gap, left)) (hgap : gap ≠ []) :
    x.head? = some '/' := by
  unfold comments at h
  split at h
  · rfl
  · exact absurd (Prod.mk.inj h).1.symm hgap

/-! ## Names -/

/-- An `escape` is read the same in front of a semicolon. -/
theorem escape_continue (hx : x ≠ []) (r : List Char) :
    escape (x ++ ';' :: r) = (escape x).before (';' :: r) := by
  have hdigits (y : List Char) : (y.take 6).takeWhile isHexDigit =
      (y.takeWhile isHexDigit).take 6 := by
    rw [← List.take_takeWhile]
  have hsame : ((x ++ ';' :: r).take 6).takeWhile isHexDigit = (x.take 6).takeWhile isHexDigit := by
    rw [hdigits, hdigits, takeWhile_append_cons (by decide)]
  cases hrun : (x.take 6).takeWhile isHexDigit with
  | nil =>
    rw [hrun] at hsame
    cases x with
    | nil => exact absurd rfl hx
    | cons d x =>
      have hsingle {y : List Char} (h : ((d :: y).take 6).takeWhile isHexDigit = []) :
          escape (d :: y) = ⟨d, [d], y⟩ := by
        rw [escape, h]
      rw [List.cons_append] at hsame ⊢
      rw [hsingle hrun, hsingle hsame]
      rfl
  | cons d ds =>
    rw [hrun] at hsame
    obtain ⟨after, hafter⟩ := exists_behind_digits 6 x
    rw [hrun] at hafter
    subst hafter
    rw [escape_hex hrun]
    rw [List.append_assoc] at hsame ⊢
    rw [escape_hex hsame]
    -- A semicolon is neither another digit nor the blank that ends the digits.
    cases after with
    | nil => rfl
    | cons e after =>
      rw [List.cons_append, hexEscape, hexEscape]
      split <;> rfl

/-- A `name` is read the same in front of a semicolon, unless a backslash makes the semicolon part
of it. -/
theorem name_continue (hleft : (name x).rest.head? ≠ some '\\') (r : List Char) :
    name (x ++ ';' :: r) = (name x).before (';' :: r) := by
  fun_induction name x with
  | case1 => simp [name, isNameChar, isNameStart, Scanned.before]
  | case2 c rest hc ih =>
    rw [List.cons_append, name, if_pos hc, ih hleft]
    rfl
  | case3 c rest hc hescape e ih =>
    have hne : rest ≠ [] := by
      rintro rfl
      cases hescape.2
    rw [List.cons_append, name, if_neg hc, if_pos ⟨hescape.1, startsEscape_append hescape.2 _⟩,
      escape_continue hne]
    dsimp only [Scanned.before]
    rw [ih hleft]
    rfl
  | case4 c rest hc hescape =>
    rw [List.cons_append, name, if_neg hc, if_neg fun h => hleft (by simp [h.1])]
    rfl

/-- A `name` in front of no parenthesis is a name for `nameLike`. -/
theorem nameLike_of_head? (h : (name x).rest.head? ≠ some '(') :
    nameLike x = ⟨.ident (String.ofList (name x).value), (name x).text, (name x).rest⟩ := by
  unfold nameLike
  dsimp only
  split
  · rename_i heq
    exact absurd (by rw [heq]; rfl) h
  · rfl

theorem not_isDigit_of_isNameStart (h : isNameStart c) : Numeral.isDigit c = false := by
  rw [Bool.eq_false_iff]
  intro hdigit
  -- The ten digits are tried one by one.
  have hnone : ∀ n ∈ List.range' 48 10, isNameStart (Char.ofNat n) = false := by decide
  have hmem : c.toNat ∈ List.range' 48 10 := by
    simp only [Numeral.isDigit, Char.isDigit, Bool.and_eq_true, decide_eq_true_eq, ge_iff_le,
      UInt32.le_iff_toNat_le] at hdigit
    exact List.mem_range'_1.mpr ⟨hdigit.1, Nat.lt_succ_of_le hdigit.2⟩
  rw [← Char.ofNat_toNat c, hnone _ hmem] at h
  cases h

/-- What starts like a name is one, unless it is the mark `-->`. -/
theorem token_of_startsName (h : startsName (c :: rest))
    (hmark : c = '-' → rest.take 2 ≠ ['-', '>']) : token c rest = nameLike (c :: rest) := by
  -- Neither a blank nor any of these characters starts a name, and no number looks like one.
  have hstart {d : Char} (hd : isNameStart d) :
      d ∉ ['\n', '\t', ' ', '\r', '\x0c', '"', '\'', '#', '@', '<', '+', '-', '.', '\\'] := by
    intro hmem
    rw [(by decide : ∀ d ∈ ['\n', '\t', ' ', '\r', '\x0c', '"', '\'', '#', '@', '<', '+', '-', '.',
      '\\'], isNameStart d = false) d hmem] at hd
    cases hd
  by_cases hminus : c = '-'
  · subst hminus
    have hnumeral : Numeral.startsWith ('-' :: rest) = false := by
      change Numeral.startsUnsigned rest = false
      cases rest with
      | nil => cases h
      | cons d rest =>
        simp only [startsName, Bool.or_eq_true, Bool.and_eq_true, decide_eq_true_eq] at h
        rcases h with (h | rfl) | ⟨rfl, -⟩
        · have hpoint : d ≠ '.' := fun heq => hstart h (by simp [heq])
          rw [startsUnsigned_cons hpoint, not_isDigit_of_isNameStart h]
        · rfl
        · rfl
    simp [token, isSpace, hnumeral, hmark rfl, h]
  by_cases hbackslash : c = '\\'
  · subst hbackslash
    have hnumeral : Numeral.startsWith ('\\' :: rest) = false := rfl
    simp [token, isSpace, hnumeral, h]
  · have hc := h
    rw [startsName_cons hminus hbackslash] at hc
    have hnumeral : Numeral.startsWith (c :: rest) = false := by
      have hsign : Sign.ofChar? c = none := by
        have := hstart hc
        simp_all [Sign.ofChar?]
      have hpoint : c ≠ '.' := fun heq => hstart hc (by simp [heq])
      simp only [Numeral.startsWith, Sign.scan, hsign]
      rw [startsUnsigned_cons hpoint, not_isDigit_of_isNameStart hc]
    have hother := hstart hc
    simp only [List.mem_cons, List.not_mem_nil, or_false, not_or] at hother
    simp [token, isSpace, hnumeral, hother, h]

/-- What `nameLike` reads as a word is read the same in front of a semicolon, unless a backslash
makes the semicolon part of it. -/
theorem nameLike_continue (hword : (nameLike x).value.isWord)
    (hleft : (nameLike x).rest.head? ≠ some '\\') (r : List Char) :
    nameLike (x ++ ';' :: r) = (nameLike x).before (';' :: r) := by
  by_cases hparen : (name x).rest.head? = some '('
  · -- With a parenthesis the name belongs to a function or an address.
    obtain ⟨inside, hrest⟩ := List.head?_eq_some_iff.mp hparen
    unfold nameLike at hword
    dsimp only at hword
    rw [hrest] at hword
    split at hword
    · split at hword
      · simp only [Scanned.after, urlOrFunction, id] at hword
        split at hword
        · cases hword
        · dsimp only at hword
          split at hword <;> cases hword
      · cases hword
    · rename_i hother
      exact absurd rfl (hother inside)
  · rw [nameLike_of_head? hparen] at hleft ⊢
    have hname := name_continue hleft r
    rw [nameLike_of_head?, hname]
    · rfl
    · rw [hname]
      dsimp only [Scanned.before]
      cases hrest : (name x).rest with
      | nil => simp
      | cons d left => rwa [hrest] at hparen

/-- No `punctuation` is a word. -/
theorem not_isWord_punctuation (c : Char) : (punctuation c).isWord = false := by
  unfold punctuation
  repeat' split
  all_goals rfl

/-- A word that `token` reads is read the same in front of a semicolon, unless a backslash makes the
semicolon part of it. -/
theorem token_continue (hword : (token c rest).value.isWord)
    (hleft : (token c rest).rest.head? ≠ some '\\') (r : List Char) :
    token c (rest ++ ';' :: r) = (token c rest).before (';' :: r) := by
  revert hword hleft
  fun_cases token c rest with
  | case1 =>
    intro hword
    cases hword
  | case2 =>
    intro hword
    simp only [string, Scanned.after] at hword
    split at hword <;> cases hword
  | case3 hspace hquote hhash =>
    intro _ hleft
    rw [token, if_neg hspace, if_neg hquote, if_pos ⟨hhash.1, startsHashName_append hhash.2 _⟩,
      name_continue hleft]
    rfl
  | case4 hspace hquote hhash hat =>
    intro _ hleft
    have hhash' : ¬ (c = '#' ∧ startsHashName (rest ++ ';' :: r)) := by simp [hat.1]
    rw [token, if_neg hspace, if_neg hquote, if_neg hhash',
      if_pos ⟨hat.1, startsName_append hat.2 _⟩, name_continue hleft]
    rfl
  | case5 =>
    intro hword
    obtain ⟨n, h | h | ⟨unit, h⟩⟩ := value_numeric (c :: rest) <;> rw [h] at hword <;> cases hword
  | case6 =>
    intro hword
    cases hword
  | case7 =>
    intro hword
    cases hword
  | case8 _ _ _ _ _ hclose _ hname =>
    intro hword hleft
    -- The semicolon does not complete the mark `-->`.
    have hmark : c = '-' → (rest ++ ';' :: r).take 2 ≠ ['-', '>'] := by
      intro hc htake
      apply hclose ⟨hc, ?_⟩
      rcases rest with _ | ⟨d, _ | ⟨e, rest⟩⟩
      · simp at htake
      · simp at htake
      · simpa using htake
    have hstart : startsName (c :: (rest ++ ';' :: r)) := startsName_append hname _
    rw [token_of_startsName hstart hmark, ← List.cons_append, nameLike_continue hword hleft]
  | case9 =>
    intro hword
    rw [not_isWord_punctuation] at hword
    cases hword

end Scan

namespace Lexeme

variable {x y z : List Char} {ls a b : List Lexeme}

/-! ## Lexemes -/

/-- The lexemes are read from the front of `x` with `y` left, also if a semicolon and any other text
follow. -/
def Continues (x : List Char) (ls : List Lexeme) (y : List Char) : Prop :=
  ∀ r, Scans (x ++ ';' :: r) ls (y ++ ';' :: r)

/-- Lexemes of which `Continues` holds one after the other satisfy it together. -/
theorem Continues.append (ha : Continues x a y) (hb : Continues y b z) : Continues x (a ++ b) z :=
  fun r => (ha r).append (hb r)

/-- A token that is read the same in front of a semicolon, and the comments in front of it. -/
theorem Scans.continues_cons {l : Lexeme} {c : Char} {rest : List Char}
    (hcomments : Scan.comments x = (l.gap, c :: rest))
    (htoken : l.token = (Scan.token c rest).value) (htext : l.text = (Scan.token c rest).text)
    (hsame : ∀ r, Scan.token c (rest ++ ';' :: r) = (Scan.token c rest).before (';' :: r)) :
    Continues x [l] (Scan.token c rest).rest := by
  intro r
  have hcontinue : Scan.comments (x ++ ';' :: r) = (l.gap, c :: rest ++ ';' :: r) :=
    Scan.comments_continue hcomments (by simp)
  refine ⟨c, rest ++ ';' :: r, hcontinue, ?_, ?_, ?_⟩
  · rw [hsame, htoken]
    rfl
  · rw [hsame, htext]
    rfl
  · rw [hsame]
    rfl

/-- Blanks are read the same in front of a semicolon: `Continues` holds of them. -/
theorem continues_blank (h : Scans x ls y) (hblank : ∀ l ∈ ls, l.token = .whitespace) :
    Continues x ls y := by
  induction ls generalizing x with
  | nil =>
    obtain rfl : x = y := h
    exact fun r => rfl
  | cons l ls ih =>
    obtain ⟨c, rest, hcomments, htoken, htext, hrest⟩ := h
    obtain ⟨hl, hblank⟩ := List.forall_mem_cons.mp hblank
    have hspace := (Scan.value_token c rest).1.mp (htoken.symm.trans hl)
    refine (Scans.continues_cons hcomments htoken htext fun r => ?_).append (ih hrest hblank)
    rw [Scan.token, Scan.token, if_pos hspace, if_pos hspace,
      Scan.takeWhile_append_cons (by decide), Scan.dropWhile_append_cons (by decide)]
    rfl

/-- A word `Continues` in front of a semicolon, unless a backslash makes the semicolon part of it.
-/
theorem continues_word {l : Lexeme} (h : Scans x [l] y) (hl : l.token.isWord)
    (hy : y.head? ≠ some '\\') : Continues x [l] y := by
  obtain ⟨c, rest, hcomments, htoken, htext, hrest⟩ := h
  obtain rfl : (Scan.token c rest).rest = y := hrest
  exact Scans.continues_cons hcomments htoken htext fun r =>
    Scan.token_continue (htoken ▸ hl) hy r

/-- Lexemes up to a closing parenthesis are read the same whatever follows: `Continues` holds of
them. -/
theorem continues_closer {closer : Lexeme} (h : Scans x (ls ++ [closer]) y)
    (hcloser : closer.token = .closer .paren) : Continues x (ls ++ [closer]) y := by
  obtain ⟨mid, hinit, hlast⟩ := h.of_append
  obtain ⟨htext, hcomments⟩ := hlast.closer hcloser
  have hmid := Scan.comments_append mid
  rw [hcomments] at hmid
  subst hmid
  have hx := hinit.eq_append
  rw [← List.append_assoc] at hx
  rw [hx] at hinit ⊢
  intro r
  rw [List.append_assoc, List.cons_append]
  refine (hinit.exchange (y ++ ';' :: r)).append ?_
  refine ⟨')', y ++ ';' :: r, comments_exchange hcomments _, ?_, ?_, ?_⟩
  · rw [hcloser, Scan.token_of_separator (by decide)]
    rfl
  · rw [htext, Scan.token_of_separator (by decide)]
  · rw [Scan.token_of_separator (by decide)]
    rfl

/-- Behind the last token of a color stands no backslash, if only blanks and comments follow. -/
theorem head?_of_blank (h : Scans x ls y) (hblank : ∀ l ∈ ls, l.token = .whitespace)
    (hy : Scan.comments y = (y, [])) : x.head? ≠ some '\\' := by
  cases ls with
  | nil =>
    obtain rfl : x = y := h
    cases x with
    | nil => simp
    | cons c x =>
      rw [Scan.head?_of_comments hy (List.cons_ne_nil c x)]
      decide
  | cons l ls =>
    obtain ⟨c, rest, hcomments, htoken, -, -⟩ := h
    by_cases hgap : l.gap = []
    · have happend := Scan.comments_append x
      rw [hcomments, hgap] at happend
      have hspace := (Scan.value_token c rest).1.mp
        (htoken.symm.trans (hblank l List.mem_cons_self))
      rw [← happend]
      intro hc
      obtain rfl : c = '\\' := Option.some.inj hc
      cases hspace
    · rw [Scan.head?_of_comments hcomments hgap]
      decide

end Lexeme

/-! ## Colors -/

theorem Token.eq_of_closes? {t : Token} {bracket : Bracket} (h : t.closes? = some bracket) :
    t = .closer bracket := by
  cases t <;> simp_all [Token.closes?]

namespace Component

mutual

/-- A `Matched` component is complete wherever it stands. -/
theorem Matched.complete (around : Option Bracket) : {c : Component} → c.Matched →
    (∀ l ∈ c.lexemes, l.token ≠ .eof) → c.Complete around
  | .token l, ⟨hopens, hcloses, _⟩, hne => by
    refine ⟨hne l List.mem_cons_self, hopens, fun bracket _ heq => ?_⟩
    rw [heq] at hcloses
    cases hcloses
  | .block _ _ _, ⟨⟨bracket, hopens, hcloses⟩, hbody⟩, hne =>
    ⟨bracket, hopens, Token.eq_of_closes? hcloses, hbody.completeAll (some bracket) fun l hl =>
      hne l (List.mem_cons_of_mem _ (List.mem_append_left _ hl))⟩

/-- Components that are `MatchedAll` are complete wherever they stand. -/
theorem MatchedAll.completeAll (around : Option Bracket) : {cs : List Component} →
    MatchedAll cs → (∀ l ∈ lexemesAll cs, l.token ≠ .eof) → CompleteAll around cs
  | [], _, _ => trivial
  | _ :: _, ⟨hc, hcs⟩, hne =>
    ⟨hc.complete around fun l hl => hne l (List.mem_append_left _ hl),
      hcs.completeAll around fun l hl => hne l (List.mem_append_right _ hl)⟩

end

end Component

open Component

/-- A `Single` component that writes a color is read the same in front of a semicolon. -/
theorem Grammar.Single.continues {c : Component} {color : Color Float} {x y : List Char}
    (hcolor : Single c color) (hmatched : c.Matched) (h : Lexeme.Scans x c.lexemes y)
    (hy : y.head? ≠ some '\\') : Lexeme.Continues x c.lexemes y := by
  cases hcolor with
  | hash hl | defined hl | name hl => exact Lexeme.continues_word h (by rw [hl]; rfl) hy
  | @call opener closer _ body _ hopener =>
    obtain ⟨⟨bracket, hopens, hcloses⟩, -⟩ := hmatched
    rw [hopener] at hopens
    obtain rfl : Bracket.paren = bracket := Option.some.inj hopens
    have hcloser := Token.eq_of_closes? hcloses
    have h : Lexeme.Scans x (opener :: lexemesAll body ++ [closer]) y := h
    exact Lexeme.continues_closer h hcloser

theorem Token.eq_of_isWhitespace {t : Token} (h : t.isWhitespace) : t = .whitespace := by
  unfold Token.isWhitespace at h
  split at h
  · rfl
  · cases h

theorem Grammar.Blank.token_lexemes {cs : List Component} (h : Blank cs) :
    ∀ l ∈ lexemesAll cs, l.token = .whitespace := by
  induction cs with
  | nil => simp [lexemesAll]
  | cons c cs ih =>
    obtain ⟨hc, hcs⟩ := List.forall_mem_cons.mp h
    refine List.forall_mem_append.mpr ⟨?_, ih hcs⟩
    cases c with
    | token l => exact List.forall_mem_singleton.mpr (Token.eq_of_isWhitespace hc)
    | block => cases hc

namespace Lexeme

/-- The comments behind the last token of the text are closed: a semicolon behind them is none of
theirs. -/
def ClosesComments (text : List Char) : Prop :=
  ∀ l ∈ (ofText text).getLast?, Scan.comments (l.gap ++ [';']) = (l.gap, [';'])

/-- Comments are left behind the last token of `scanFrom`, and they stand in front of the end of the
text. -/
theorem exists_scans_dropLast (offset : Nat) (input : List Char) :
    ∃ gap last, Scans input (scanFrom offset input).dropLast gap ∧ Scan.comments gap = (gap, []) ∧
      (scanFrom offset input).getLast? = some last ∧ last.gap = gap := by
  fun_induction scanFrom offset input with
  | case1 offset input gap start h =>
    have happend := Scan.comments_append input
    rw [h, List.append_nil] at happend
    refine ⟨input, _, rfl, Prod.ext happend h, rfl, happend⟩
  | case2 offset input gap start c rest h s ih =>
    obtain ⟨left, last, hleft, hcomments, hlast, hgap⟩ := ih
    have hne := scanFrom_ne_nil (start + byteSize s.text) s.rest
    refine ⟨left, last, ?_, hcomments, ?_, hgap⟩
    · rw [List.dropLast_cons_of_ne_nil hne]
      exact ⟨c, rest, Prod.ext rfl h, rfl, rfl, hleft⟩
    · rw [List.getLast?_cons_of_ne_nil hne, hlast]

/-- Blanks in front of a text make one lexeme of `ofText`, or none. -/
theorem ofText_dropWhile (text : List Char) :
    (∃ w : Lexeme, w.token = .whitespace ∧ ofText text =
        w :: scanFrom (byteSize (text.takeWhile Scan.isSpace)) (text.dropWhile Scan.isSpace)) ∨
      ofText text =
        scanFrom (byteSize (text.takeWhile Scan.isSpace)) (text.dropWhile Scan.isSpace) := by
  cases text with
  | nil => exact .inr rfl
  | cons c rest =>
    by_cases hc : Scan.isSpace c
    · left
      have hslash : c = '/' → rest.head? ≠ some '*' := by
        rintro rfl
        cases hc
      refine ⟨⟨.whitespace, [], c :: rest.takeWhile Scan.isSpace, 0⟩, rfl, ?_⟩
      rw [ofText, scanFrom_cons (Scan.comments_cons hslash), Scan.token, if_pos hc,
        List.takeWhile_cons_of_pos hc, List.dropWhile_cons_of_pos hc]
      simp
    · right
      rw [List.takeWhile_cons_of_neg hc, List.dropWhile_cons_of_neg hc]
      rfl

/-- The comments at the end of a text that `ClosesComments` stay there without the blanks at its
start, and a semicolon ends them. -/
theorem ClosesComments.exists_scans {value : List Char} (hclosed : ClosesComments value) :
    ∃ gap, Scans (value.dropWhile Scan.isSpace) (scanFrom (byteSize (value.takeWhile Scan.isSpace))
        (value.dropWhile Scan.isSpace)).dropLast gap ∧
      Scan.comments gap = (gap, []) ∧ ∀ r, Scan.comments (gap ++ ';' :: r) = (gap, ';' :: r) := by
  obtain ⟨gap, last, hscans, hcomments, hlast, hgap⟩ := exists_scans_dropLast
    (byteSize (value.takeWhile Scan.isSpace)) (value.dropWhile Scan.isSpace)
  have hend : (ofText value).getLast? = some last := by
    rcases ofText_dropWhile value with ⟨w, -, htext⟩ | htext
    · rw [htext, List.getLast?_cons_of_ne_nil (scanFrom_ne_nil _ _), hlast]
    · rw [htext, hlast]
  have hclose := hclosed last hend
  rw [hgap] at hclose
  refine ⟨gap, hscans, hcomments, fun r => ?_⟩
  have hcontinue := Scan.comments_continue hclose (by simp : ';' = '/' → r.head? ≠ some '*')
  simpa using hcontinue

end Lexeme

namespace Color

open Lexeme

variable {value : List Char} {color : Color Float}

/-- A text that `Color.parse` reads as a color has one component that is not blank. -/
theorem exists_single_of_parse (h : parse (String.ofList value) = .ok color) :
    ∃ before c after, contents value = before ++ (c.lexemes ++ after) ∧
      (∀ l ∈ before, l.token = .whitespace) ∧ (∀ l ∈ after, l.token = .whitespace) ∧
      Grammar.Single c color ∧ c.Matched := by
  obtain ⟨-, parts, hforest, hcolor⟩ := parse_eq_ok_iff_forest.mp h
  have hbracketed := forest_eq_ok_iff.mp hforest
  have hwrites := (Segment.color_eq_ok_iff hbracketed.depth_le).mp hcolor
  obtain ⟨front, back, hcontents, hfront, hback⟩ :=
    exists_eq_trimWhile (fun l : Lexeme => l.token.isWhitespace) (contents value)
  rw [solidLexemes, String.toList_ofList] at hbracketed
  rw [← hbracketed.lexemes] at hcontents
  -- Blanks stand around the components, and inside them around the one that counts.
  cases hwrites with
  | @padded before after c _ hbefore hsingle hafter =>
    refine ⟨front ++ lexemesAll before, c, lexemesAll after ++ back, ?_, ?_, ?_, hsingle,
      matchedAll_iff.mp hbracketed.matched c (by simp)⟩
    · rw [hcontents, List.append_eq, lexemesAll_append, lexemesAll]
      simp only [List.append_assoc]
    · exact List.forall_mem_append.mpr
        ⟨fun l hl => Token.eq_of_isWhitespace (hfront l hl), hbefore.token_lexemes⟩
    · exact List.forall_mem_append.mpr
        ⟨hafter.token_lexemes, fun l hl => Token.eq_of_isWhitespace (hback l hl)⟩

/-- The same holds of the text without the blanks in front, wherever it starts. -/
theorem exists_single_of_solid (hparse : parse (String.ofList value) = .ok color) :
    ∃ before c after, (scanFrom (byteSize (value.takeWhile Scan.isSpace))
          (value.dropWhile Scan.isSpace)).dropLast = before ++ (c.lexemes ++ after) ∧
      (∀ l ∈ before, l.token = .whitespace) ∧ (∀ l ∈ after, l.token = .whitespace) ∧
      Grammar.Single c color ∧ c.Matched := by
  obtain ⟨before, c, after, hcontents, hbefore, hafter, hsingle, hmatched⟩ :=
    exists_single_of_parse hparse
  rcases ofText_dropWhile value with ⟨w, hw, htext⟩ | htext
  · rw [contents, htext, List.dropLast_cons_of_ne_nil (scanFrom_ne_nil _ _)] at hcontents
    cases before with
    | nil =>
      -- The component does not start with a blank.
      rw [List.nil_append, lexemes_eq_cons, List.cons_append] at hcontents
      have hfirst := hmatched.first hsingle.isWhitespace
      rw [← (List.cons.inj hcontents).1, hw] at hfirst
      cases hfirst
    | cons b before =>
      exact ⟨before, c, after, (List.cons.inj hcontents).2,
        (List.forall_mem_cons.mp hbefore).2, hafter, hsingle, hmatched⟩
  · rw [contents, htext] at hcontents
    exact ⟨before, c, after, hcontents, hbefore, hafter, hsingle, hmatched⟩

/-- The lexemes that `scanFrom` finds in a color in front of a semicolon, without the blanks at its
start. -/
theorem exists_scanFrom_solid (hparse : parse (String.ofList value) = .ok color)
    (hclosed : ClosesComments value) (r : List Char) :
    ∃ (before after : List Lexeme) (c : Component) (gap : List Char),
      scanFrom (byteSize (value.takeWhile Scan.isSpace))
          (value.dropWhile Scan.isSpace ++ ';' :: r) =
        before ++ (c.lexemes ++ (after ++ ⟨.semicolon, gap, [';'], byteSize value⟩ ::
          scanFrom (byteSize value + 1) r)) ∧
      (∀ l ∈ before, l.token = .whitespace) ∧ (∀ l ∈ after, l.token = .whitespace) ∧
      Grammar.Single c color ∧ c.Matched ∧ ∀ l ∈ c.lexemes, l.token ≠ .eof := by
  obtain ⟨before, c, after, hlexemes, hbefore, hafter, hsingle, hmatched⟩ :=
    exists_single_of_solid hparse
  obtain ⟨gap, hscans, hcomments, hsemicolon⟩ := hclosed.exists_scans
  rw [hlexemes] at hscans
  -- Blanks, the component and blanks are each read the same in front of the semicolon.
  obtain ⟨mid, hscanBefore, hscanRest⟩ := hscans.of_append
  obtain ⟨mid', hscanColor, hscanAfter⟩ := hscanRest.of_append
  refine ⟨before, after, c, gap, ?_, hbefore, hafter, hsingle, hmatched,
    fun l hl => (hscanColor.forall_mem l hl).1⟩
  have hcolor := hsingle.continues hmatched hscanColor (head?_of_blank hscanAfter hafter hcomments)
  have hcontinues := (continues_blank hscanBefore hbefore).append
    (hcolor.append (continues_blank hscanAfter hafter))
  have hconsecutive := consecutive_scanFrom (byteSize (value.takeWhile Scan.isSpace))
    (value.dropWhile Scan.isSpace)
  obtain ⟨_, hend⟩ := scanFrom_eq_dropLast (byteSize (value.takeWhile Scan.isSpace))
    (value.dropWhile Scan.isSpace)
  rw [hend, hlexemes] at hconsecutive
  -- The semicolon stands behind all bytes of the value.
  have hsize : byteSize (value.takeWhile Scan.isSpace) +
      byteSize (spelled (before ++ (c.lexemes ++ after))) + byteSize gap = byteSize value := by
    have htotal := congrArg byteSize
      (List.takeWhile_append_dropWhile (p := Scan.isSpace) (l := value))
    rw [hscans.eq_append, byteSize_append, byteSize_append] at htotal
    omega
  rw [(hcontinues r).scanFrom_eq hconsecutive.of_append_left, scanFrom_cons (hsemicolon r), hsize]
  simp only [List.append_assoc]
  rfl

/-- The lexemes of a color between a blank and a semicolon: blanks, the component that writes the
color, blanks and the semicolon, and then the lexemes of what follows. -/
theorem exists_scanFrom (hparse : parse (String.ofList value) = .ok color)
    (hclosed : ClosesComments value) (offset : Nat) (r : List Char) :
    ∃ (w semicolon : Lexeme) (before after : List Lexeme) (c : Component),
      scanFrom offset (' ' :: value ++ ';' :: r) =
        w :: (before ++ (c.lexemes ++ (after ++ semicolon :: scanFrom semicolon.stop r))) ∧
      (w.token = .whitespace ∧ w.gap = [] ∧ w.text.head? = some ' ') ∧
      (∀ l ∈ before, l.token = .whitespace) ∧ (∀ l ∈ after, l.token = .whitespace) ∧
      Grammar.Single c color ∧ c.Matched ∧ c.Complete none ∧ semicolon.token = .semicolon ∧
      semicolon.stop = offset + byteSize (' ' :: value ++ [';']) := by
  obtain ⟨before, after, c, gap, hsolid, hbefore, hafter, hsingle, hmatched, hne⟩ :=
    exists_scanFrom_solid hparse hclosed r
  have hspace : ' '.utf8Size = 1 := rfl
  have hone : byteSize [';'] = 1 := rfl
  -- Everything behind the blank stands as much later as the offset and the blank say.
  let shift : Nat → Nat := (· + (offset + 1))
  refine ⟨⟨.whitespace, [], ' ' :: value.takeWhile Scan.isSpace, offset⟩,
    ⟨.semicolon, gap, [';'], shift (byteSize value)⟩, before.map (Lexeme.moved shift),
    after.map (Lexeme.moved shift), c.moved shift, ?_, ⟨rfl, rfl, rfl⟩, ?_, ?_, hsingle.moved,
    hmatched.moved, hmatched.moved.complete none (by simpa [lexemes_moved, Lexeme.moved] using hne),
    rfl, ?_⟩
  · rw [List.cons_append, scanFrom_cons (Scan.comments_cons (by simp)), Scan.token,
      if_pos (by decide), Scan.takeWhile_append_cons (by decide),
      Scan.dropWhile_append_cons (by decide)]
    have hoffset : offset + byteSize [] + byteSize (' ' :: value.takeWhile Scan.isSpace) =
        byteSize (value.takeWhile Scan.isSpace) + (offset + 1) := by
      rw [byteSize_nil, byteSize_cons, hspace]
      omega
    have hstop : byteSize value + 1 + (offset + 1) = shift (byteSize value) + byteSize [';'] := by
      simp only [shift, hone]
      omega
    dsimp only
    rw [hoffset, scanFrom_add, hsolid]
    simp only [List.map_append, List.map_cons, ← scanFrom_add, lexemes_moved, hstop]
    rfl
  · simpa [Lexeme.moved] using hbefore
  · simpa [Lexeme.moved] using hafter
  · rw [Lexeme.stop, byteSize_append, byteSize_cons ' ' value, hspace]
    simp only [shift]
    omega

end Color

end ThemeColor
