import Mathlib.Data.List.Infix
import ThemeColor.Proofs.Continuation
import ThemeColor.Proofs.Quoting

/-!
# Tame texts

How a text is cut into lexemes can depend on what follows it, if it has escapes, quoted texts,
comments or addresses. A text without all these is `Tame`: in front of a separator it is cut into
the lexemes that it has on its own, unless blanks end it (`Lexeme.Scans.continue_tame`).
-/

namespace ThemeColor

open Text

namespace Scan

/-- The text has no backslash, no quote, no start of a comment and no start of an address. -/
structure Tame (text : List Char) : Prop where
  /-- There is no backslash and no quote. -/
  chars : ∀ c ∈ text, c ∉ ['\\', '"', '\'']
  /-- No comment starts in the text. -/
  comment : ¬ ['/', '*'] <:+: text
  /-- No address starts in the text, whatever the case of the letters. -/
  url : ¬ ['u', 'r', 'l', '('] <:+: text.map Char.toLower

instance (text : List Char) : Decidable (Tame text) :=
  decidable_of_iff
    ((∀ c ∈ text, c ∉ ['\\', '"', '\'']) ∧ ¬ ['/', '*'] <:+: text ∧
      ¬ ['u', 'r', 'l', '('] <:+: text.map Char.toLower)
    ⟨fun h => ⟨h.1, h.2.1, h.2.2⟩, fun h => ⟨h.chars, h.comment, h.url⟩⟩

/-- The characters that stand behind a piece of a color. -/
def separators : List Char := [',', ' ', ')']

/-- The text starts with a separator. -/
def Separated (tail : List Char) : Prop := ∃ b ∈ separators, tail.head? = some b

variable {c : Char} {rest run tail text : List Char}

theorem Separated.endsRun (h : Separated tail) : EndsRun tail := by
  obtain ⟨b, hb, hhead⟩ := h
  have hends : ∀ b ∈ separators, b ∈ runEnds := by decide
  exact ⟨b, hends b hb, hhead⟩

/-- A part of a `Tame` text is tame. -/
theorem Tame.of_infix (h : Tame text) (hpart : run <:+: text) : Tame run where
  chars := fun c hc => h.chars c (hpart.subset hc)
  comment := fun hcomment => h.comment (hcomment.trans hpart)
  url := fun hurl => h.url (hurl.trans (hpart.map _))

theorem Tame.of_cons (h : Tame (c :: rest)) : Tame rest :=
  h.of_infix (List.suffix_cons c rest).isInfix

/-! ## One token -/

/-- The text is tame in front of `tail`. -/
def TameThen (tail text : List Char) : Prop := ∃ run, Tame run ∧ text = run ++ tail

/-- A character that does not end a run belongs to the tame text, as `TameThen` says. -/
theorem TameThen.uncons (htail : EndsRun tail) (h : TameThen tail (c :: rest)) (hc : c ∉ runEnds) :
    ∃ run, Tame (c :: run) ∧ rest = run ++ tail := by
  obtain ⟨run, hrun, heq⟩ := h
  cases run with
  | nil =>
    -- An empty run would make the character the one that ends it.
    obtain ⟨b, hb, hhead⟩ := htail
    rw [List.nil_append] at heq
    rw [← heq] at hhead
    exact absurd (Option.some.inj hhead ▸ hb) hc
  | cons d run =>
    obtain ⟨rfl, rfl⟩ := List.cons.inj heq
    exact ⟨run, hrun, rfl⟩

/-- What is left of a tame text behind a token is tame: `TameThen` shrinks. -/
theorem shrinks_tameThen (htail : EndsRun tail) : Shrinks (TameThen tail) where
  uncons := by
    intro c rest h hends
    obtain ⟨run, hrun, rfl⟩ := h.uncons htail hends
    refine ⟨?_, run, hrun.of_cons, rfl⟩
    rintro rfl
    exact hrun.chars _ List.mem_cons_self (by decide)

/-- A `name` without escapes stands for itself. -/
theorem value_name_eq_text {input : List Char} (h : '\\' ∉ (name input).text) :
    (name input).value = (name input).text := by
  fun_induction name input with
  | case1 => rfl
  | case2 c rest hc ih =>
    simp only [Scanned.after, List.singleton_append, List.mem_cons, not_or] at h ⊢
    rw [ih h.2]
  | case3 c rest hc hescape e ih =>
    obtain ⟨rfl, -⟩ := hescape
    exact absurd List.mem_cons_self h
  | case4 => rfl

/-- A name in a `Tame` text starts no address. -/
theorem Tame.nameLike (htail : EndsRun tail) (h : Tame run) :
    (nameLike (run ++ tail)).value.isUrlFunction = false ∧
      TameThen tail (nameLike (run ++ tail)).rest := by
  obtain ⟨left, hleft, hrest⟩ := (shrinks_tameThen htail).name ⟨run, h, rfl⟩
  have hrun : (name (run ++ tail)).text ++ left = run := by
    have happend := name_append (run ++ tail)
    rw [hrest, ← List.append_assoc] at happend
    exact List.append_cancel_right happend
  unfold Scan.nameLike
  dsimp only
  split
  · rename_i inside hinside
    rw [hinside] at hrest
    obtain ⟨after, hafter, rfl⟩ := TameThen.uncons htail ⟨left, hleft, hrest⟩ (by decide)
    obtain rfl : left = '(' :: after := List.append_cancel_right hrest.symm
    have hurl : sameIgnoringCase (String.ofList (name (run ++ tail)).value) "url" = false := by
      have hvalue : (name (run ++ tail)).value = (name (run ++ tail)).text := by
        refine value_name_eq_text fun hmem => ?_
        exact h.chars _ (hrun ▸ List.mem_append_left _ hmem) (by decide)
      rw [Bool.eq_false_iff]
      intro hsame
      -- The name and the parenthesis behind it would be the start of an address.
      have hlower : (name (run ++ tail)).text.map Char.toLower = ['u', 'r', 'l'] := by
        rw [sameIgnoringCase_iff (asciiLower_eq_self (by decide)), hvalue] at hsame
        have hchars := congrArg String.toList hsame
        rwa [asciiLower, String.toList_map, String.toList_ofList] at hchars
      refine h.url ⟨[], after.map Char.toLower, ?_⟩
      rw [← hrun, List.map_append, hlower]
      rfl
    rw [hurl]
    exact ⟨hurl, after, hafter.of_cons, rfl⟩
  · exact ⟨rfl, left, hleft, hrest⟩

/-- A token in a `Tame` text ends in it, and it neither is cut off nor starts an address. -/
theorem Tame.token (htail : EndsRun tail) (h : Tame (c :: run)) (hspace : isSpace c = false) :
    (token c (run ++ tail)).value ≠ .badString ∧
      (token c (run ++ tail)).value.isUrlFunction = false ∧
        TameThen tail (token c (run ++ tail)).rest := by
  have hshrinks := shrinks_tameThen htail
  have hquote : ¬ (c = '"' ∨ c = '\'') := by
    rintro (rfl | rfl) <;> exact h.chars _ List.mem_cons_self (by decide)
  have hcons : TameThen tail (c :: (run ++ tail)) := ⟨c :: run, h, rfl⟩
  have hrun : TameThen tail (run ++ tail) := ⟨run, h.of_cons, rfl⟩
  refine ⟨fun hbad => hquote (token_eq_string (by rw [hbad]; rfl)).1, ?_⟩
  fun_cases Scan.token c (run ++ tail) with
  | case1 hblank => rw [hspace] at hblank; cases hblank
  | case2 _ hstring => exact absurd hstring hquote
  | case3 => exact ⟨rfl, hshrinks.name hrun⟩
  | case4 => exact ⟨rfl, hshrinks.name hrun⟩
  | case5 =>
    refine ⟨?_, hshrinks.numeric hcons⟩
    obtain ⟨n, hn | hn | ⟨unit, hn⟩⟩ := value_numeric (c :: (run ++ tail)) <;> rw [hn] <;> rfl
  | case6 =>
    rename_i hmark
    exact ⟨rfl, hshrinks.drop hrun hmark.2 (by decide)⟩
  | case7 =>
    rename_i hmark
    exact ⟨rfl, hshrinks.drop hrun hmark.2 (by decide)⟩
  | case8 => exact Tame.nameLike htail h
  | case9 => exact ⟨isUrlFunction_punctuation c, hrun⟩

/-- A run that ends inside a text ends there whatever follows. -/
theorem span_append {p : Char → Bool} (h : run.dropWhile p ≠ []) (tail : List Char) :
    (run ++ tail).takeWhile p = run.takeWhile p ∧
      (run ++ tail).dropWhile p = run.dropWhile p ++ tail := by
  have hsplit := List.takeWhile_append_dropWhile (p := p) (l := run)
  constructor
  · rw [List.takeWhile_append, if_neg]
    intro hlength
    have htotal := congrArg List.length hsplit
    rw [List.length_append, hlength] at htotal
    exact h (List.length_eq_zero_iff.mp (by omega))
  · rw [List.dropWhile_append, if_neg (by simpa [List.isEmpty_iff] using h)]

/-- In front of a separator a token of a `Tame` text is the one that is read without it, unless
blanks reach up to the separator. -/
theorem Tame.token_append (htail : EndsRun tail) (h : Tame (c :: run))
    (hblank : isSpace c → run.dropWhile isSpace ≠ []) :
    Scan.token c (run ++ tail) = (Scan.token c run).before tail := by
  cases hspace : isSpace c with
  | true =>
    obtain ⟨htake, hdrop⟩ := span_append (hblank hspace) tail
    rw [Scan.token, Scan.token, if_pos hspace, if_pos hspace, htake, hdrop]
    rfl
  | false =>
    obtain ⟨hbad, hurl, left, -, hleft⟩ := h.token htail hspace
    have hscan : Scan.token c (run ++ tail) = ⟨(Scan.token c (run ++ tail)).value,
        (Scan.token c (run ++ tail)).text, left ++ tail⟩ := by rw [← hleft]
    rcases token_cut hscan with ⟨heq, -⟩ | ⟨-, ⟨htoken, -⟩ | ⟨htoken, -⟩⟩
    · rw [heq, hscan]
      rfl
    · exact absurd htoken hbad
    · rw [hurl] at htoken
      cases htoken

theorem Tame.head?_ne (h : Tame ('/' :: run)) : run.head? ≠ some '*' := by
  intro hstar
  obtain ⟨rest, rfl⟩ := List.head?_eq_some_iff.mp hstar
  exact h.comment ⟨[], rest, rfl⟩

/-- No comment stands in front of a `Tame` text. -/
theorem Tame.comments_eq (h : Tame (c :: run)) : comments (c :: run) = ([], c :: run) := by
  refine comments_cons ?_
  rintro rfl
  exact h.head?_ne

/-- Nor does one start where the text ends at a separator. -/
theorem Tame.comments_append (htail : Separated tail) (h : Tame (c :: run)) :
    comments (c :: (run ++ tail)) = ([], c :: (run ++ tail)) := by
  refine comments_cons ?_
  rintro rfl
  cases run with
  | nil =>
    obtain ⟨b, hb, hhead⟩ := htail
    rw [List.nil_append, hhead]
    rintro heq
    rw [Option.some.inj heq] at hb
    exact absurd hb (by decide)
  | cons d run => exact h.head?_ne

theorem comments_nil : comments [] = ([], []) := by simp [comments]

/-- What is read behind the comments in front of a `Tame` text is all of it. -/
theorem Tame.eq_of_comments {gap : List Char} (h : Tame text)
    (hcomments : comments text = (gap, c :: rest)) : gap = [] ∧ text = c :: rest := by
  cases text with
  | nil =>
    rw [comments_nil, Prod.mk.injEq] at hcomments
    cases hcomments.2
  | cons d run =>
    rw [h.comments_eq, Prod.mk.injEq] at hcomments
    exact ⟨hcomments.1.symm, hcomments.2⟩

end Scan

/-! ## All lexemes -/

namespace Lexeme

open Scan

variable {text tail : List Char} {ls : List Lexeme}

theorem Scans.eq_nil (h : Scans [] ls []) : ls = [] := by
  cases ls with
  | nil => rfl
  | cons l ls =>
    obtain ⟨c, rest, hcomments, -⟩ := h
    rw [comments_nil, Prod.mk.injEq] at hcomments
    cases hcomments.2

/-- A `Tame` text is cut into its lexemes up to the end. -/
theorem Scans.of_tame (h : Tame text) : Scans text (contents text) [] := by
  obtain ⟨gap, last, hscans, hcomments, -⟩ := exists_scans_dropLast 0 text
  cases gap with
  | nil => exact hscans
  | cons c run =>
    -- What is left would be a comment.
    have hsuffix : c :: run <:+ text := ⟨_, hscans.eq_append.symm⟩
    have hgap : Tame (c :: run) := h.of_infix hsuffix.isInfix
    rw [hgap.comments_eq] at hcomments
    cases hcomments

/-- In front of a separator a `Tame` text is cut into its own lexemes, unless blanks end it. -/
theorem Scans.continue_tame (htail : Separated tail) (htame : Tame text) (h : Scans text ls [])
    (hlast : ∀ l, ls.getLast? = some l → l.token ≠ .whitespace) : Scans (text ++ tail) ls tail := by
  induction ls generalizing text with
  | nil =>
    obtain rfl : text = [] := h
    rfl
  | cons l ls ih =>
    obtain ⟨c, rest, hcomments, htoken, htext, hrest⟩ := h
    obtain ⟨hgap, rfl⟩ := htame.eq_of_comments hcomments
    -- Blanks up to the end would be the last lexeme.
    have hblank : isSpace c → rest.dropWhile isSpace ≠ [] := by
      intro hspace hnil
      rw [Scan.token, if_pos hspace, hnil] at hrest
      obtain rfl := hrest.eq_nil
      refine hlast l rfl ?_
      rw [htoken, Scan.token, if_pos hspace]
    have hsame := htame.token_append htail.endsRun hblank
    refine ⟨c, rest ++ tail, by rw [hgap]; exact htame.comments_append htail, ?_, ?_, ?_⟩
    · rw [hsame, htoken]
      rfl
    · rw [hsame, htext]
      rfl
    · rw [hsame]
      refine ih (htame.of_infix ?_) hrest fun m hm => hlast m ?_
      · exact List.IsSuffix.isInfix ⟨_, Scan.token_append c rest⟩
      · rw [List.getLast?_cons, hm, Option.getD_some]

end Lexeme

end ThemeColor
