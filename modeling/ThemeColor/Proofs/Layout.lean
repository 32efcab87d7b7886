import ThemeColor.Proofs.Position
import ThemeColor.Token.Lexeme

/-!
# Where lexemes stand

The lexemes of a text follow each other without holes: spelled out with the comments in front of
them they are the text (`spelled_scanFrom`), and each one starts where the one before and its own
comments end (`consecutive_scanFrom`). From these two facts come

- `slice?_spanOf`: the span of neighbouring lexemes slices out the text they join to;
- `laid_ofText`: all starts and stops are boundaries of the text, in ascending order, and a lexeme
  that is not blank starts with a character that is not blank.
-/

namespace ThemeColor

open Text

namespace Scan

/-- A `token` keeps its first character in front. -/
theorem exists_text_token (c : Char) (rest : List Char) :
    ∃ tail, (token c rest).text = c :: tail := by
  have happend := token_append c rest
  cases htext : (token c rest).text with
  | nil => exact absurd htext (text_token_ne_nil c rest)
  | cons d tail =>
    rw [htext, List.cons_append, List.cons.injEq] at happend
    exact ⟨tail, by rw [happend.1]⟩

/-- A `token` that is not blank starts with a character that is not blank. -/
theorem not_isSpace_of_token {c : Char} {rest : List Char}
    (h : (token c rest).value ≠ .whitespace) : isSpace c = false := by
  cases hspace : isSpace c with
  | false => rfl
  | true => exact absurd (by rw [token, if_pos hspace]) h

end Scan

namespace Lexeme

/-- The text that some lexemes spell, with the comments in front of each of them. -/
def spelled (ls : List Lexeme) : List Char := ls.flatMap fun l => l.gap ++ l.text

@[simp]
theorem spelled_nil : spelled [] = [] := rfl

@[simp]
theorem spelled_cons (l : Lexeme) (ls : List Lexeme) :
    spelled (l :: ls) = l.gap ++ (l.text ++ spelled ls) := by
  simp [spelled]

@[simp]
theorem spelled_append (a b : List Lexeme) : spelled (a ++ b) = spelled a ++ spelled b := by
  simp [spelled]

/-- The lexemes of `scanFrom` spell the text. -/
theorem spelled_scanFrom (offset : Nat) (input : List Char) :
    spelled (scanFrom offset input) = input := by
  fun_induction scanFrom offset input with
  | case1 offset input gap start h =>
    have happend := Scan.comments_append input
    rw [h] at happend
    simpa [gap] using happend
  | case2 offset input gap start c rest h s ih =>
    have happend := Scan.comments_append input
    rw [h] at happend
    rw [spelled_cons, ih, Scan.token_append]
    exact happend

/-- The lexemes of `ofText` are the `contents` and one for the end of the text. -/
theorem ofText_eq (text : List Char) : ∃ last, ofText text = contents text ++ [last] := by
  have hne : ofText text ≠ [] := scanFrom_ne_nil 0 text
  exact ⟨(ofText text).getLast hne, (List.dropLast_concat_getLast hne).symm⟩

/-- Each lexeme starts where the one before and its own comments end; the comments of the first one
start at byte `offset`. -/
inductive Consecutive : (offset : Nat) → List Lexeme → Prop
  | nil (offset : Nat) : Consecutive offset []
  | cons {offset : Nat} {l : Lexeme} {ls : List Lexeme}
      (hstart : l.start = offset + byteSize l.gap) (hrest : Consecutive l.stop ls) :
      Consecutive offset (l :: ls)

/-- The lexemes of `scanFrom` follow each other: they are `Consecutive`. -/
theorem consecutive_scanFrom (offset : Nat) (input : List Char) :
    Consecutive offset (scanFrom offset input) := by
  fun_induction scanFrom offset input with
  | case1 offset input gap start h => exact .cons rfl (.nil _)
  | case2 offset input gap start c rest h s ih => exact .cons rfl ih

/-- Lexemes behind other ones start where those end, if all are `Consecutive`. -/
theorem Consecutive.of_append {offset : Nat} {a b : List Lexeme}
    (h : Consecutive offset (a ++ b)) : Consecutive (offset + byteSize (spelled a)) b := by
  induction a generalizing offset with
  | nil => exact h
  | cons l a ih =>
    cases h with
    | cons hstart hrest =>
      have hstop : l.stop + byteSize (spelled a) = offset + byteSize (spelled (l :: a)) := by
        rw [Lexeme.stop, hstart]
        simp only [spelled_cons, byteSize_append]
        omega
      rw [← hstop]
      exact ih hrest

theorem Consecutive.of_append_left {offset : Nat} {a b : List Lexeme}
    (h : Consecutive offset (a ++ b)) : Consecutive offset a := by
  induction a generalizing offset with
  | nil => exact .nil _
  | cons l a ih =>
    cases h with
    | cons hstart hrest => exact .cons hstart (ih hrest)

/-- The last of some `Consecutive` lexemes stops where their joined text ends. -/
theorem Consecutive.stop_spanOf {first : Lexeme} {more : List Lexeme}
    (h : Consecutive first.stop more) :
    (spanOf first more).stop = first.start + byteSize (join (first :: more)) := by
  induction more generalizing first with
  | nil => simp [spanOf, join, Lexeme.stop]
  | cons second more ih =>
    cases h with
    | cons hstart hrest =>
      have hlast : spanOf first (second :: more) = ⟨first.start, (spanOf second more).stop⟩ := by
        simp [spanOf, List.getLast?_cons]
      rw [hlast]
      simp only
      rw [ih hrest]
      simp only [join, List.flatMap_cons, byteSize_append, hstart, Lexeme.stop]
      omega

/-- The `spanOf` neighbouring lexemes slices out the text they join to. -/
theorem slice?_spanOf {text : List Char} {before after more : List Lexeme} {first : Lexeme}
    (hspelled : spelled (before ++ (first :: more ++ after)) = text)
    (hconsecutive : Consecutive 0 (before ++ (first :: more ++ after))) :
    (spanOf first more).slice? text = some (join (first :: more)) := by
  have hfrom := hconsecutive.of_append
  rw [Nat.zero_add] at hfrom
  cases hfrom with
  | cons hstart hrest =>
    rw [Span.slice?_eq_some_iff]
    refine ⟨spelled before ++ first.gap, spelled after, ?_, ?_, ?_⟩
    · rw [← hspelled]
      simp [join, spelled]
    · rw [byteSize_append]
      exact hstart.symm
    · rw [byteSize_append, ← hstart]
      exact hrest.of_append_left.stop_spanOf.symm

/-- The lexeme stands between two boundaries of the text, and if it is neither blank nor the end of
the text, then a character that is not blank stands at its start. -/
structure PlacedIn (text : List Char) (l : Lexeme) : Prop where
  /-- The lexeme starts between two characters. -/
  start : IsBoundary text l.start
  /-- The lexeme stops between two characters. -/
  stop : IsBoundary text l.stop
  /-- The first character of a lexeme that is not blank is not blank. -/
  solid : l.token ≠ .whitespace → l.token ≠ .eof →
    ∃ front c rest, text = front ++ c :: rest ∧ byteSize front = l.start ∧ Scan.isSpace c = false

/-- The lexemes up to the end of the text stand in the text, one after the other and none of them
before byte `low`. The end of the text is among them. -/
def Laid (text : List Char) : (low : Nat) → List Lexeme → Prop
  | _, [] => False
  | low, l :: ls => low ≤ l.start ∧ PlacedIn text l ∧ (l.token = .eof ∨ Laid text l.stop ls)

/-- Lexemes that are `Laid` out behind a position are so behind an earlier one. -/
theorem Laid.mono {text : List Char} {low low' : Nat} {ls : List Lexeme} (hle : low ≤ low')
    (h : Laid text low' ls) : Laid text low ls := by
  cases ls with
  | nil => exact h
  | cons l ls => exact ⟨Nat.le_trans hle h.1, h.2⟩

/-- The lexemes behind the first one are `Laid` out behind its end. -/
theorem Laid.tail {text : List Char} {low : Nat} {l : Lexeme} {ls : List Lexeme}
    (h : Laid text low (l :: ls)) (hne : l.token ≠ .eof) : Laid text l.stop ls :=
  h.2.2.resolve_left hne

theorem start_le_stop (l : Lexeme) : l.start ≤ l.stop := Nat.le_add_right _ _

/-- A lexeme that is not the end of the text does not change where the lexemes behind it start. -/
theorem Laid.skip {text : List Char} {low : Nat} {l : Lexeme} {ls : List Lexeme}
    (h : Laid text low (l :: ls)) (hne : l.token ≠ .eof) : Laid text low ls :=
  (h.tail hne).mono (Nat.le_trans h.1 l.start_le_stop)

/-- The lexemes of the part of a text from a boundary on are `Laid` out from there. -/
theorem laid_scanFrom {text front input : List Char} (htext : text = front ++ input) :
    Laid text (byteSize front) (scanFrom (byteSize front) input) := by
  generalize hoffset : byteSize front = offset
  fun_induction scanFrom offset input generalizing front with
  | case1 offset input gap start =>
    rename_i h
    have happend := Scan.comments_append input
    rw [h, List.append_nil] at happend
    -- Only comments are left, and the end of the text stands behind them.
    have hend : byteSize text = start := by
      rw [htext, byteSize_append, ← happend, hoffset]
    have hboundary : IsBoundary text start := ⟨text, [], by simp, hend⟩
    refine ⟨Nat.le_add_right _ _, ⟨hboundary, ?_, fun _ hne => absurd rfl hne⟩, .inl rfl⟩
    simpa [Lexeme.stop] using hboundary
  | case2 offset input gap start c rest h s =>
    rename_i ih
    have happend := Scan.comments_append input
    rw [h] at happend
    have hgap : text = (front ++ gap) ++ c :: rest := by rw [htext, ← happend, List.append_assoc]
    have hstart : byteSize (front ++ gap) = start := by rw [byteSize_append, hoffset]
    -- The token takes characters off the front, so both of its ends are boundaries.
    have hs : s.text ++ s.rest = c :: rest := Scan.token_append c rest
    have hafter : text = (front ++ gap ++ s.text) ++ s.rest := by
      rw [hgap, ← hs]
      simp only [List.append_assoc]
    have hstop : byteSize (front ++ gap ++ s.text) = start + byteSize s.text := by
      rw [byteSize_append, hstart]
    refine ⟨Nat.le_add_right _ _, ⟨⟨_, _, hgap, hstart⟩, ⟨_, _, hafter, hstop⟩, ?_⟩, .inr ?_⟩
    · intro hblank _
      exact ⟨front ++ gap, c, rest, hgap, hstart, Scan.not_isSpace_of_token hblank⟩
    · exact ih hafter hstop

/-- The lexemes of a text are `Laid` out in it. -/
theorem laid_ofText (text : List Char) : Laid text 0 (ofText text) :=
  laid_scanFrom (List.nil_append text).symm

end Lexeme

end ThemeColor
