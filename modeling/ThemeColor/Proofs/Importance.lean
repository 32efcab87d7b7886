import Mathlib.Data.List.Basic
import Mathlib.Data.List.Induction
import ThemeColor.Proofs.Extent
import ThemeColor.Proofs.Places
import ThemeColor.Proofs.Recovery

/-!
# Values and `!important`

The value of a declaration is meant to be everything between its colon and the token that ends it,
without blank ends and without an `!important` at the end. Whether there is an `!important` and what
is left of the value are found by two separate searches from the end.

The two searches disagree in one case. The word `important` is taken off the end of a value even if
no exclamation mark stands in front of it, and then the declaration is not important, but its value
has lost a word. `Trimmed` lists the three ways in which a value can end, and the one with the lone
word is exactly the one in which value and mark do not fit together
(`value_separates_iff`).

## Main definitions

* `Marked value kept`: the value is `kept` and an `!important`;
* `Separates value kept important`: what is kept of the value fits to whether it is important;
* `LoneWord value`: the value ends with the word, but not with `!important`;
* `StandsIn tokens name value next`: a declaration with its component values among the tokens.
-/

namespace ThemeColor.Sheet

/-! ## How values end -/

/-- All of the component values are blank. -/
def Blank (s : List Piece) : Prop := ∀ p ∈ s, p.isWhitespace = true

/-- The last component value is not blank. -/
def EndsSolid (value : List Piece) : Prop := ∀ p, value.getLast? = some p → p.isWhitespace = false

/-- The value is `kept` with blanks behind it. -/
def Padded (value kept : List Piece) : Prop := ∃ s, value = kept ++ s ∧ Blank s

/-- The value is `kept` with the word `important` behind it, and blanks around the word. -/
def Worded (value kept : List Piece) : Prop :=
  ∃ s word s', value = kept ++ s ++ [word] ++ s' ∧ Blank s ∧ word.isImportantWord = true ∧ Blank s'

/-- The value is `kept` with an exclamation mark and the word `important` behind it, and blanks
around both. -/
def Marked (value kept : List Piece) : Prop :=
  ∃ s bang s' word s'', value = kept ++ s ++ [bang] ++ s' ++ [word] ++ s'' ∧
    Blank s ∧ bang.isBang = true ∧ Blank s' ∧ word.isImportantWord = true ∧ Blank s''

/-- What is kept of a value fits to whether it is important: an important value loses its
`!important`, and any other value has none and loses blanks only. -/
structure Separates (value kept : List Piece) (important : Bool) : Prop where
  /-- An important value ends with the mark. -/
  marked : important = true → Marked value kept
  /-- Any other value is kept up to blanks and does not end with the mark. -/
  plain : important = false → Padded value kept ∧ ∀ other, ¬ Marked value other

/-- The value ends with the word `important`, but not with `!important`. -/
def LoneWord (value : List Piece) : Prop :=
  (∃ kept, Worded value kept) ∧ ∀ kept, ¬ Marked value kept

theorem Piece.isWhitespace_of_isImportantWord {p : Piece} (h : p.isImportantWord = true) :
    p.isWhitespace = false := by
  unfold Piece.isImportantWord at h
  unfold Piece.isWhitespace
  cases hp : p.first.token <;> simp_all [Token.isWhitespace]

theorem Piece.isWhitespace_of_isBang {p : Piece} (h : p.isBang = true) :
    p.isWhitespace = false := by
  have htoken : p.first.token = .delim '!' := by simpa [Piece.isBang] using h
  simp [Piece.isWhitespace, htoken, Token.isWhitespace]

theorem endsSolid_concat {kept : List Piece} {p : Piece} (h : p.isWhitespace = false) :
    EndsSolid (kept ++ [p]) := by
  intro q hq
  rw [List.getLast?_concat] at hq
  obtain rfl := Option.some.inj hq
  exact h

/-- Every value is `Padded` with blanks, perhaps with none. -/
theorem exists_padded (value : List Piece) : ∃ kept, Padded value kept ∧ EndsSolid kept := by
  induction value using List.reverseRecOn with
  | nil => exact ⟨[], ⟨[], rfl, by simp [Blank]⟩, by simp [EndsSolid]⟩
  | append_singleton value p ih =>
    cases hp : p.isWhitespace with
    | false => exact ⟨value ++ [p], ⟨[], by simp, by simp [Blank]⟩, endsSolid_concat hp⟩
    | true =>
      obtain ⟨kept, ⟨s, rfl, hs⟩, hkept⟩ := ih
      refine ⟨kept, ⟨s ++ [p], by simp, ?_⟩, hkept⟩
      intro q hq
      rcases List.mem_append.mp hq with hq | hq
      · exact hs q hq
      · obtain rfl := List.mem_singleton.mp hq
        exact hp

/-- The three ways in which a value can end, with what is kept of it and whether it is
important. -/
inductive Trimmed (value : List Piece) : (kept : List Piece) → (important : Bool) → Prop
  /-- Nothing but blanks is taken off. -/
  | plain {kept} (hvalue : Padded value kept) (hsolid : EndsSolid kept)
      (hword : ∀ p, kept.getLast? = some p → p.isImportantWord = false) : Trimmed value kept false
  /-- The mark is taken off. -/
  | marked {kept} (hvalue : Marked value kept) (hsolid : EndsSolid kept) : Trimmed value kept true
  /-- A word is taken off that is no mark. -/
  | lone {kept} (hvalue : Worded value kept) (hsolid : EndsSolid kept)
      (hbang : ∀ p, kept.getLast? = some p → p.isBang = false) : Trimmed value kept false

/-- Every value ends in one of the three ways of `Trimmed`. -/
theorem exists_trimmed (value : List Piece) : ∃ kept important, Trimmed value kept important := by
  obtain ⟨kept, ⟨s, rfl, hs⟩, hkept⟩ := exists_padded value
  rcases List.eq_nil_or_concat' kept with rfl | ⟨front, word, rfl⟩
  · exact ⟨[], false, .plain ⟨s, rfl, hs⟩ hkept (by simp)⟩
  cases hword : word.isImportantWord with
  | false => exact ⟨_, false, .plain ⟨s, rfl, hs⟩ hkept (by simpa using hword)⟩
  | true =>
    -- The word comes last; what counts now is what stands in front of it and its blanks.
    obtain ⟨kept, ⟨s', rfl, hs'⟩, hfront⟩ := exists_padded front
    rcases List.eq_nil_or_concat' kept with rfl | ⟨front, bang, rfl⟩
    · exact ⟨[], false, .lone ⟨s', word, s, rfl, hs', hword, hs⟩ hfront (by simp)⟩
    cases hbang : bang.isBang with
    | false =>
      exact ⟨_, false, .lone ⟨s', word, s, rfl, hs', hword, hs⟩ hfront (by simpa using hbang)⟩
    | true =>
      obtain ⟨kept, ⟨s'', rfl, hs''⟩, hsolid⟩ := exists_padded front
      exact ⟨kept, true, .marked ⟨s'', bang, s', word, s, rfl, hs'', hbang, hs', hword, hs⟩ hsolid⟩

/-! ## What the two searches find -/

theorem dropWhile_reverse_append {kept s : List Piece} (hs : Blank s) :
    (kept ++ s).reverse.dropWhile Piece.isWhitespace =
      kept.reverse.dropWhile Piece.isWhitespace := by
  rw [List.reverse_append, List.dropWhile_append_of_pos]
  intro p hp
  exact hs p (List.mem_reverse.mp hp)

theorem dropWhile_reverse_concat {kept : List Piece} {p : Piece} (hp : p.isWhitespace = false) :
    (kept ++ [p]).reverse.dropWhile Piece.isWhitespace = p :: kept.reverse := by
  simp [hp]

theorem EndsSolid.dropWhile_reverse {kept : List Piece} (h : EndsSolid kept) :
    kept.reverse.dropWhile Piece.isWhitespace = kept.reverse := by
  rcases List.eq_nil_or_concat' kept with rfl | ⟨front, p, rfl⟩
  · rfl
  · rw [dropWhile_reverse_concat (h p List.getLast?_concat)]
    simp

theorem filter_reverse_append {kept s : List Piece} (hs : Blank s) :
    ((kept ++ s).reverse.filter fun p => !p.isWhitespace) =
      kept.reverse.filter fun p => !p.isWhitespace := by
  rw [List.reverse_append, List.filter_append, List.filter_eq_nil_iff.mpr, List.nil_append]
  intro p hp
  simp [hs p (List.mem_reverse.mp hp)]

/-- Blanks at the end of a value do not count for `bareValue`. -/
theorem bareValue_append {kept s : List Piece} (hs : Blank s) :
    bareValue (kept ++ s) = bareValue kept := by
  rw [bareValue, bareValue, dropWhile_reverse_append hs]

/-- Blanks at the end of a value do not count for `isImportant`. -/
theorem isImportant_append {kept s : List Piece} (hs : Blank s) :
    isImportant (kept ++ s) = isImportant kept := by
  rw [isImportant, isImportant, filter_reverse_append hs]

/-- Blanks between the word and what stands in front of it do not count for `dropImportant`. -/
theorem dropImportant_append {kept s : List Piece} {word : Piece} (hs : Blank s)
    (hword : word.isImportantWord = true) :
    dropImportant (word :: (kept ++ s).reverse) = dropImportant (word :: kept.reverse) := by
  simp only [dropImportant, if_pos hword, dropWhile_reverse_append hs]

/-- The word is dropped by `dropImportant`, and with it an exclamation mark in front of it. -/
theorem dropImportant_cons {word p : Piece} {rest : List Piece}
    (hword : word.isImportantWord = true) (hp : p.isWhitespace = false) :
    dropImportant (word :: p :: rest) = if p.isBang then rest else p :: rest := by
  have hsolid : ¬ p.isWhitespace = true := by simp [hp]
  simp only [dropImportant, if_pos hword, List.dropWhile_cons_of_neg hsolid]

/-- A value that is `Marked` is important. -/
theorem isImportant_of_marked {value kept : List Piece} (h : Marked value kept) :
    isImportant value = true := by
  obtain ⟨s, bang, s', word, s'', rfl, hs, hbang, hs', hword, hs''⟩ := h
  have hwordSolid := Piece.isWhitespace_of_isImportantWord hword
  have hbangSolid := Piece.isWhitespace_of_isBang hbang
  rw [isImportant_append hs'', isImportant, List.reverse_concat,
    List.filter_cons_of_pos (by simp [hwordSolid]), filter_reverse_append hs', List.reverse_concat,
    List.filter_cons_of_pos (by simp [hbangSolid])]
  simp [hword, hbang]

/-- The two searches `bareValue` and `isImportant` find what the end of the value says. -/
theorem Trimmed.eq {value kept : List Piece} {important : Bool} (h : Trimmed value kept important) :
    bareValue value = kept ∧ isImportant value = important := by
  cases h with
  | plain hvalue hsolid hword =>
    obtain ⟨s, rfl, hs⟩ := hvalue
    rw [bareValue_append hs, isImportant_append hs]
    rcases List.eq_nil_or_concat' kept with rfl | ⟨front, p, rfl⟩
    · exact ⟨rfl, rfl⟩
    · have hlast : (front ++ [p]).getLast? = some p := List.getLast?_concat
      exact ⟨bareValue_eq_self hlast (hsolid p hlast) (hword p hlast),
        isImportant_eq_false hlast (hsolid p hlast) (hword p hlast)⟩
  | marked hvalue hsolid =>
    refine ⟨?_, isImportant_of_marked hvalue⟩
    obtain ⟨s, bang, s', word, s'', rfl, hs, hbang, hs', hword, hs''⟩ := hvalue
    have hwordSolid := Piece.isWhitespace_of_isImportantWord hword
    have hbangSolid := Piece.isWhitespace_of_isBang hbang
    rw [bareValue_append hs'', bareValue, dropWhile_reverse_concat hwordSolid,
      dropImportant_append hs' hword, List.reverse_concat, dropImportant_cons hword hbangSolid,
      if_pos hbang, dropWhile_reverse_append hs, hsolid.dropWhile_reverse, List.reverse_reverse]
  | lone hvalue hsolid hbang =>
    obtain ⟨s, word, s', rfl, hs, hword, hs'⟩ := hvalue
    have hwordSolid := Piece.isWhitespace_of_isImportantWord hword
    rw [bareValue_append hs', isImportant_append hs', bareValue, isImportant,
      dropWhile_reverse_concat hwordSolid, dropImportant_append hs hword,
      List.reverse_concat, List.filter_cons_of_pos (by simp [hwordSolid]),
      filter_reverse_append hs]
    rcases List.eq_nil_or_concat' kept with rfl | ⟨front, p, rfl⟩
    · simp [dropImportant, hword]
    · have hlast : (front ++ [p]).getLast? = some p := List.getLast?_concat
      have hp := hbang p hlast
      rw [List.reverse_concat, dropImportant_cons hword (hsolid p hlast), if_neg (by simp [hp]),
        ← List.reverse_concat, hsolid.dropWhile_reverse, List.reverse_concat,
        List.filter_cons_of_pos (by simp [hsolid p hlast])]
      simp [hp]

/-- What `bareValue` keeps of a value is what `Trimmed` says. -/
theorem trimmed_bareValue (value : List Piece) :
    Trimmed value (bareValue value) (isImportant value) := by
  obtain ⟨kept, important, h⟩ := exists_trimmed value
  obtain ⟨rfl, rfl⟩ := h.eq
  exact h

/-- What is kept of a `Trimmed` value has no blanks at its end. -/
theorem Trimmed.endsSolid {value kept : List Piece} {important : Bool}
    (h : Trimmed value kept important) : EndsSolid kept := by
  cases h <;> assumption

/-- The last component value of a `Worded` value that is not blank is the word. -/
theorem Worded.head?_dropWhile {value kept : List Piece} (h : Worded value kept) :
    ∃ word, (value.reverse.dropWhile Piece.isWhitespace).head? = some word ∧
      word.isImportantWord = true := by
  obtain ⟨s, word, s', rfl, hs, hword, hs'⟩ := h
  refine ⟨word, ?_, hword⟩
  rw [dropWhile_reverse_append hs',
    dropWhile_reverse_concat (Piece.isWhitespace_of_isImportantWord hword)]
  rfl

/-- A value that `isImportant` finds not to be important does not end with the mark. -/
theorem not_marked_of_isImportant {value : List Piece} (h : isImportant value = false)
    (kept : List Piece) : ¬ Marked value kept := by
  intro hmarked
  rw [isImportant_of_marked hmarked] at h
  cases h

/-- If something else stands in front of the blanks at the end, the value is not `Worded`. -/
theorem Padded.not_worded {value kept : List Piece} (h : Padded value kept)
    (hsolid : EndsSolid kept)
    (hword : ∀ p, kept.getLast? = some p → p.isImportantWord = false) (other : List Piece) :
    ¬ Worded value other := by
  intro hworded
  obtain ⟨s, rfl, hs⟩ := h
  obtain ⟨word, hhead, hw⟩ := hworded.head?_dropWhile
  rw [dropWhile_reverse_append hs, hsolid.dropWhile_reverse, List.head?_reverse] at hhead
  rw [hword word hhead] at hw
  cases hw

/-- What stands in front of the word of a `Worded` value is not all of the value but blanks: the
word would have to be one of them. -/
theorem Worded.not_padded {value kept : List Piece} (h : Worded value kept) :
    ¬ Padded value kept := by
  rintro ⟨blanks, hpadded, hblanks⟩
  obtain ⟨s, word, s', rfl, hs, hword, hs'⟩ := h
  rw [List.append_assoc, List.append_assoc] at hpadded
  have hmem : word ∈ blanks := by
    rw [← List.append_cancel_left hpadded]
    simp
  have hblank := hblanks word hmem
  rw [Piece.isWhitespace_of_isImportantWord hword] at hblank
  cases hblank

/-- Value and mark fit together, as `Separates` says, unless the value ends with a `LoneWord`, and
then it loses this word. -/
theorem Trimmed.separates_iff {value kept : List Piece} {important : Bool}
    (h : Trimmed value kept important) :
    (Separates value kept important ↔ ¬ LoneWord value) ∧
      (LoneWord value → important = false ∧ Worded value kept) := by
  have himportant := h.eq.2
  cases h with
  | plain hvalue hsolid hword =>
    have hno : ¬ LoneWord value := by
      rintro ⟨⟨other, hother⟩, -⟩
      exact hvalue.not_worded hsolid hword other hother
    have hunmarked := not_marked_of_isImportant himportant
    refine ⟨⟨fun _ => hno, fun _ => ⟨?_, fun _ => ⟨hvalue, hunmarked⟩⟩⟩, fun h => absurd h hno⟩
    intro himportant
    cases himportant
  | marked hvalue hsolid =>
    have hno : ¬ LoneWord value := fun h => h.2 kept hvalue
    refine ⟨⟨fun _ => hno, fun _ => ⟨fun _ => hvalue, ?_⟩⟩, fun h => absurd h hno⟩
    intro himportant
    cases himportant
  | lone hvalue hsolid hbang =>
    have hlone : LoneWord value := ⟨⟨kept, hvalue⟩, not_marked_of_isImportant himportant⟩
    refine ⟨⟨fun hseparates => ?_, fun hno => absurd hlone hno⟩, fun _ => ⟨rfl, hvalue⟩⟩
    exact absurd (hseparates.plain rfl).1 hvalue.not_padded

/-! ## Component values of a declaration -/

/-- `Values value input rest`: the lexemes of `input` are the component values `value` up to the
lexemes `rest`, where the declaration ends. -/
inductive Values : (value : List Piece) → (input rest : List Lexeme) → Prop
  | nil {rest} (hrest : ∀ l after, rest = l :: after → endsDeclaration l.token = true) :
      Values [] rest rest
  | cons {first passed mid stop value rest} (hfirst : endsDeclaration first.token = false)
      (hextent : Extent first passed mid stop) (hmore : Values value mid rest) :
      Values (⟨first, passed ++ mid⟩ :: value) (first :: (passed ++ mid)) rest

theorem ne_eof_of_endsDeclaration {t : Token} (h : endsDeclaration t = false) : t ≠ .eof := by
  rintro rfl
  cases h

/-- The component values of a declaration are split off by `pieces` as they are. -/
theorem values_pieces (input : List Lexeme) :
    Values (pieces endsDeclaration input).1 input (pieces endsDeclaration input).2.1 := by
  fun_induction pieces endsDeclaration input with
  | case1 =>
    apply Values.nil
    intro l after h
    cases h
  | case2 l after hstop =>
    apply Values.nil
    rintro l' after' ⟨⟩
    exact hstop
  | case3 l after hstop rest more last heq ih =>
    rw [heq] at ih
    have hfirst : endsDeclaration l.token = false := by simpa using hstop
    obtain ⟨passed, hafter, hextent⟩ := extent_stop (ne_eof_of_endsDeclaration hfirst) after
    have hcons := Values.cons hfirst hextent ih
    rw [← hafter] at hcons
    exact hcons

/-- What `Values` leaves starts with a token that ends the declaration. -/
theorem Values.ends {value : List Piece} {input after : List Lexeme} {next : Lexeme}
    (h : Values value input (next :: after)) : endsDeclaration next.token = true := by
  generalize hrest : next :: after = rest at h
  induction h with
  | nil hends => exact hends next after hrest.symm
  | cons _ _ _ ih => exact ih hrest

/-- The first of the `Values` starts with the first lexeme. -/
theorem Values.input_eq {p : Piece} {value : List Piece} {input rest : List Lexeme}
    (h : Values (p :: value) input rest) : input = p.first :: p.after := by
  cases h
  rfl

/-- None of the `Values` of a declaration starts with the end of the text. -/
theorem Values.ne_eof {value : List Piece} {input rest : List Lexeme} (h : Values value input rest)
    {p : Piece} (hp : p ∈ value) : p.first.token ≠ .eof := by
  induction h with
  | nil => cases hp
  | cons hfirst _ _ ih =>
    rcases List.mem_cons.mp hp with rfl | hp
    · exact ne_eof_of_endsDeclaration hfirst
    · exact ih hp

/-- The span reaches from the start of the first component value to the end of the last one. If
there is none, it is empty and stands in front of the lexeme that ends the declaration. -/
inductive Covers : Span → (kept : List Piece) → (next : Lexeme) → Prop
  | nil {next} : Covers ⟨next.start, next.start⟩ [] next
  | value {kept next first last passed rest stop} (hfirst : kept.head? = some first)
      (hlast : kept.getLast? = some last) (hafter : last.after = passed ++ rest)
      (hextent : Extent last.first passed rest stop) :
      Covers ⟨first.first.start, stop⟩ kept next

/-- The `valueSpan` of a value is the place of its component values. -/
theorem covers_valueSpan {kept : List Piece} (h : ∀ p ∈ kept, p.first.token ≠ .eof) (next : Lexeme)
    (after : List Lexeme) : Covers (valueSpan kept (next :: after)) kept next := by
  cases kept with
  | nil => exact .nil
  | cons first more =>
    obtain ⟨last, hlast⟩ : ∃ last, (first :: more).getLast? = some last := ⟨_, List.getLast?_cons⟩
    obtain ⟨passed, hafter, hextent⟩ :=
      extent_stop (h last (List.mem_of_getLast? hlast)) last.after
    have hcovers : Covers ⟨first.first.start, last.stop⟩ (first :: more) next :=
      .value rfl hlast hafter hextent
    rwa [valueSpan, List.head?_cons, hlast]

/-- A span that `Covers` a value stops at the end of the last component value. -/
theorem Covers.extent_last {span : Span} {kept : List Piece} {next : Lexeme} {last : Piece}
    (h : Covers span kept next) (hlast : kept.getLast? = some last) :
    ∃ passed rest, Extent last.first passed rest span.stop := by
  cases h with
  | nil => cases hlast
  | value _ hkept _ hextent =>
    obtain rfl := Option.some.inj (hkept.symm.trans hlast)
    exact ⟨_, _, hextent⟩

/-- A declaration of the property `name` stands among the tokens: its name, a colon and the
component values of its value, in front of the token `next` that ends it. Blanks may stand on both
sides of the colon. -/
def StandsIn (tokens : List Lexeme) (name : String) (value : List Piece) (next : Lexeme) : Prop :=
  ∃ front property s colon s' inner after,
    tokens = front ++ property :: (s ++ colon :: (s' ++ inner)) ∧
    property.token = .ident name ∧ (∀ l ∈ s, l.token = .whitespace) ∧ colon.token = .colon ∧
    (∀ l ∈ s', l.token = .whitespace) ∧ (∀ p, value.head? = some p → p.isWhitespace = false) ∧
    Values value inner (next :: after) ∧ endsDeclaration next.token = true

/-! ## Declarations of a style sheet -/

/-- All declarations that were read. -/
def Reading.declared : Reading → List Declaration
  | .atRule _ _ rule => visited rule
  | .rules _ rs => visitedAll rs
  | .declarations ds => ds

/-- The declaration is read at its name, somewhere among the lexemes. -/
def Declares (input : List Lexeme) (d : Declaration) : Prop :=
  ∃ property after, Consumes input (property :: after) ∧ property.token = .ident d.name ∧
    (declaration d.name after).1 = some d

/-- What the rest `Declares`, the whole input declares. -/
theorem Declares.of_consumes {input rest : List Lexeme} {d : Declaration}
    (hconsumes : Consumes input rest) (h : Declares rest d) : Declares input d := by
  obtain ⟨property, after, hproperty, hdeclaration⟩ := h
  exact ⟨property, after, hconsumes.trans hproperty, hdeclaration⟩

theorem Declares.cons {l : Lexeme} {rest : List Lexeme} {d : Declaration} (hl : l.token ≠ .eof)
    (h : Declares rest d) : Declares (l :: rest) d :=
  h.of_consumes (.cons hl (.refl _))

/-- A `declaration` is read from a colon and a value behind it. -/
theorem exists_of_declaration {name : String} {input : List Lexeme} {d : Declaration}
    (h : (declaration name input).1 = some d) :
    ∃ colon after, (afterBlanks input).1 = colon :: after ∧ colon.token = .colon ∧
      d = ⟨name, valueSpan (bareValue (pieces endsDeclaration (afterBlanks after).1).1)
        (pieces endsDeclaration (afterBlanks after).1).2.1,
        isImportant (pieces endsDeclaration (afterBlanks after).1).1⟩ := by
  unfold declaration at h
  dsimp only at h
  split at h
  · cases h
  · rename_i colon after hblanks
    split at h
    · rename_i hcolon
      exact ⟨colon, after, hblanks, hcolon, (Option.some.inj h).symm⟩
    · cases h

/-- A `declaration` has the name it was read for. -/
theorem name_of_declaration {name : String} {input : List Lexeme} {d : Declaration}
    (h : (declaration name input).1 = some d) : d.name = name := by
  obtain ⟨_, _, -, -, rfl⟩ := exists_of_declaration h
  rfl

/-- Every declaration that one `Reads` is read at its name. -/
theorem Reads.declares {r : Reading} {input rest : List Lexeme} (h : Reads r input rest)
    {d : Declaration} (hd : d ∈ r.declared) : Declares input d := by
  induction h with
  | atEnd | atSemicolon | atOther => cases hd
  | atGroup hprelude hl _ _ ih | atPage hprelude hl _ _ ih =>
    exact ((ih hd).cons (by simp [hl])).of_consumes (consumes_of_skip rfl hprelude)
  | noRules | endRules | ruleCutOff | ruleLost | noDeclarations | endDeclarations => cases hd
  | betweenRules hl _ ih => exact (ih hd).cons hl.ne_eof
  | ruleAt hl hrule _ ihrule ihmore =>
    rcases List.mem_append.mp hd with hd | hd
    · exact (ihrule hd).cons (by simp [hl])
    · exact ((ihmore hd).of_consumes hrule.consumes).cons (by simp [hl])
  | ruleStyle _ hprelude hbrace hinner _ ihinner ihmore =>
    rcases List.mem_append.mp hd with hd | hd
    · exact ((ihinner hd).cons (by simp [hbrace])).of_consumes (consumes_of_skip rfl hprelude)
    · exact (ihmore hd).of_consumes (consumes_block rfl hprelude hbrace hinner.consumes)
  | ruleStray _ hprelude hbrace _ ih =>
    exact ((ih hd).cons (by simp [hbrace])).of_consumes (consumes_of_skip rfl hprelude)
  | betweenDeclarations hl _ ih => exact (ih hd).cons (by rcases hl with hl | hl <;> simp [hl])
  | declarationAt hl hrule _ _ ihmore =>
    exact ((ihmore hd).of_consumes hrule.consumes).cons (by simp [hl])
  | declarationNamed hl _ ih =>
    rcases List.mem_append.mp hd with hd | hd
    · have hdeclaration := Option.mem_toList.mp hd
      obtain rfl := name_of_declaration hdeclaration
      exact ⟨_, _, .refl _, hl, hdeclaration⟩
    · exact ((ih hd).of_consumes (declaration_consumes _ _)).cons (by simp [hl])
  | declarationLost hl _ ih =>
    exact ((ih hd).of_consumes (afterNonDeclaration_consumes _ _)).cons hl.goesOn.1

/-- The blanks that `afterBlanks` passes over. -/
theorem exists_of_afterBlanks (input : List Lexeme) :
    ∃ s, input = s ++ (afterBlanks input).1 ∧ (∀ l ∈ s, l.token = .whitespace) ∧
      ∀ l after, (afterBlanks input).1 = l :: after → l.token.isWhitespace = false := by
  refine ⟨input.takeWhile (·.token.isWhitespace), List.takeWhile_append_dropWhile.symm, ?_, ?_⟩
  · intro l hl
    have := List.mem_takeWhile_imp hl
    cases htoken : l.token <;> simp_all [Token.isWhitespace]
  · intro l after h
    have hhead := List.head?_dropWhile_not (·.token.isWhitespace) input
    rw [show input.dropWhile (·.token.isWhitespace) = l :: after from h] at hhead
    simpa using hhead

/-- A declaration that is read among the tokens of a text `StandsIn` it, and its place and its mark
are those of its component values. -/
theorem Declares.standsIn {css : List Char} {d : Declaration}
    (h : Declares (Lexeme.ofText css) d) :
    ∃ value next, StandsIn (Lexeme.ofText css) d.name value next ∧
      Covers d.value (bareValue value) next ∧ d.important = isImportant value := by
  obtain ⟨property, input, hconsumes, hproperty, hdeclaration⟩ := h
  obtain ⟨colon, after, hcolonAt, hcolon, hd⟩ := exists_of_declaration hdeclaration
  obtain ⟨s, hs, hsblank, -⟩ := exists_of_afterBlanks input
  obtain ⟨s', hs', hsblank', hsolid⟩ := exists_of_afterBlanks after
  rw [hcolonAt] at hs
  have hvalues := values_pieces (afterBlanks after).1
  have hrest : Consumes (afterBlanks after).1 (pieces endsDeclaration (afterBlanks after).1).2.1 :=
    pieces_consumes rfl _
  generalize (pieces endsDeclaration (afterBlanks after).1).1 = value at hvalues hd
  generalize (pieces endsDeclaration (afterBlanks after).1).2.1 = rest at hvalues hrest hd
  -- The end of the text is not passed over, so there is a token that ends the declaration.
  have hlaid : Lexeme.Laid css 0 rest := by
    refine laid_of_consumes (Lexeme.laid_ofText css)
      (hconsumes.trans (.cons (by simp [hproperty]) ?_))
    have hblanks := afterBlanks_consumes input
    rw [hcolonAt] at hblanks
    exact hblanks.trans (.cons (by simp [hcolon]) ((afterBlanks_consumes after).trans hrest))
  cases rest with
  | nil => exact hlaid.elim
  | cons next final =>
    obtain ⟨front, hfront, -⟩ := hconsumes
    refine ⟨value, next, ⟨front, property, s, colon, s', (afterBlanks after).1, final, ?_,
      hproperty, hsblank, hcolon, hsblank', ?_, hvalues, hvalues.ends⟩, ?_, ?_⟩
    · rw [hfront, hs, ← hs']
    · intro p hp
      obtain ⟨more, rfl⟩ := List.head?_eq_some_iff.mp hp
      exact hsolid _ _ hvalues.input_eq
    · rw [hd]
      refine covers_valueSpan (fun p hp => hvalues.ne_eof ?_) next final
      exact (bareValue_isPrefix value).subset hp
    · rw [hd]

/-- The value of a declaration is separated from an `!important` at its end, for every declaration
of a style sheet and of a list of declarations. All that lies between the colon and the token that
ends the declaration is `value`, its place covers exactly what is kept of it, and this does not end
with a blank. What is kept fits to whether the declaration is important, unless the value ends with
the word `important` without an exclamation mark: then it loses this word, although the declaration
is not important. -/
theorem value_separates_iff (css : List Char) (d : Declaration)
    (hd : d ∈ visitedAll (ofText css) ∨ d ∈ (declarations (Lexeme.ofText css)).1) :
    ∃ value kept next, StandsIn (Lexeme.ofText css) d.name value next ∧
      Covers d.value kept next ∧ EndsSolid kept ∧
      (Separates value kept d.important ↔ ¬ LoneWord value) ∧
      (LoneWord value → d.important = false ∧ Worded value kept) := by
  have hdeclares : Declares (Lexeme.ofText css) d := by
    rcases hd with hd | hd
    · exact (reads_rules true (Lexeme.ofText css)).declares hd
    · exact (reads_declarations (Lexeme.ofText css)).declares hd
  obtain ⟨value, next, hstands, hcovers, himportant⟩ := hdeclares.standsIn
  have htrimmed := trimmed_bareValue value
  rw [← himportant] at htrimmed
  exact ⟨value, bareValue value, next, hstands, hcovers, htrimmed.endsSolid,
    htrimmed.separates_iff.1, htrimmed.separates_iff.2⟩

/-- A mark with blanks around it, in a declaration that only the end of the text ends. -/
theorem value_separates_iff_spaced :
    let css := 'a' :: '{' :: "b:c ! important ".toList
    ⟨"b", ⟨4, 5⟩, true⟩ ∈ visitedAll (ofText css) ∧
      ∃ value kept next, StandsIn (Lexeme.ofText css) "b" value next ∧
        Covers ⟨4, 5⟩ kept next ∧ EndsSolid kept ∧ Marked value kept := by
  intro css
  have hd : ⟨"b", ⟨4, 5⟩, true⟩ ∈ visitedAll (ofText css) := by
    decide +kernel
  obtain ⟨value, kept, next, hstands, hcovers, hsolid, hseparates, hlone⟩ :=
    value_separates_iff _ _ (.inl hd)
  -- A value that loses a lone word is not important.
  have hno : ¬ LoneWord value := by
    intro h
    have himportant := (hlone h).1
    cases himportant
  exact ⟨hd, value, kept, next, hstands, hcovers, hsolid, (hseparates.mpr hno).marked rfl⟩

/-- The value `red important` has no mark, and still only `red` is kept of it. -/
theorem not_separates_lone_word :
    ∃ d value next, visitedAll (ofText "a{color:red important}".toList) = [d] ∧
      StandsIn (Lexeme.ofText "a{color:red important}".toList) d.name value next ∧
      d.important = false ∧
      textAt "a{color:red important}".toList d.value = "red".toList ∧
      ∀ kept, Covers d.value kept next → ¬ Separates value kept d.important := by
  let red : Lexeme := ⟨.ident "red", [], "red".toList, 8⟩
  let blank : Lexeme := ⟨.whitespace, [], [' '], 11⟩
  let word : Lexeme := ⟨.ident "important", [], "important".toList, 12⟩
  let brace : Lexeme := ⟨.closer .curly, [], ['}'], 21⟩
  let eof : Lexeme := ⟨.eof, [], [], 22⟩
  let value : List Piece :=
    [⟨red, [blank, word, brace, eof]⟩, ⟨blank, [word, brace, eof]⟩, ⟨word, [brace, eof]⟩]
  have hvalues : Values value [red, blank, word, brace, eof] [brace, eof] := by
    refine .cons rfl (.token (by decide) rfl) ?_
    refine .cons rfl (.token (by decide) rfl) ?_
    refine .cons rfl (.token (by decide) rfl) (.nil ?_)
    rintro _ _ ⟨⟩
    rfl
  refine ⟨⟨"color", ⟨8, 11⟩, false⟩, value, brace, by decide +kernel, ?_, rfl,
    by decide +kernel, ?_⟩
  · refine ⟨(Lexeme.ofText "a{color:red important}".toList).take 2,
      ⟨.ident "color", [], "color".toList, 2⟩, [], ⟨.colon, [], [':'], 7⟩, [], _, [eof],
      by decide +kernel, rfl, by simp, rfl, by simp, ?_, hvalues, rfl⟩
    rintro _ ⟨⟩
    rfl
  intro kept hcovers hseparates
  obtain ⟨⟨s, hvalue, hs⟩, -⟩ := hseparates.plain rfl
  -- The value ends with a word, so there are no blanks to take off.
  have hlast : value.getLast? = some ⟨word, [brace, eof]⟩ := rfl
  rcases List.eq_nil_or_concat' s with rfl | ⟨s', p, rfl⟩
  · rw [List.append_nil] at hvalue
    rw [hvalue] at hlast
    obtain ⟨_, _, hextent⟩ := hcovers.extent_last hlast
    have hstop : 11 = word.stop := hextent.eq_stop_of_token rfl
    exact absurd hstop (by decide)
  · rw [← List.append_assoc] at hvalue
    rw [hvalue, List.getLast?_concat] at hlast
    have hblank := hs p (by simp)
    rw [Option.some.inj hlast] at hblank
    exact absurd hblank (by decide)

end ThemeColor.Sheet
