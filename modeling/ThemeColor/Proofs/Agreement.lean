import Mathlib.Data.List.Pairwise
import ThemeColor.Proofs.Occurrences
import ThemeColor.Proofs.Relocation
import ThemeColor.Proofs.Tiling

/-!
# Documents and colors agree

What a document finds in a text is what its parts are on their own: the text under each span, read
as a color expression, is the color that the document has for it. A color therefore depends on the
text of an expression alone and not on where it stands.

The argument is in two parts. A component of a text is again the only component of its own text,
where it is moved to the front, so `Color.parse_join` reads the same color there. And the search
through the lexemes passes over nothing that starts a color expression: `Document.Finds` is what the
search does.

## Main results

* `Color.parse_join`: a component of a text is read as the same color from its own text;
* `Document.finds_of_occurrences`: the color expressions in a list of lexemes;
* `Document.agrees_of_parse`: where the expressions of a document are and what they stand for.
-/

namespace ThemeColor

open Text Component Grammar

/-! ## A component in its own text -/

/-- The end is not exposed if the last token is neither blank nor a quoted text that is cut off nor
the function `url`. -/
theorem Token.not_endsExposed_append {ts : List Token} {t : Token} (hbad : t ≠ .badString)
    (hurl : t.isUrlFunction = false) (hspace : t.isWhitespace = false) :
    ¬ EndsExposed (ts ++ [t]) := by
  rintro (⟨u, ⟨front, hfront⟩, hu⟩ | ⟨u, ⟨front, hfront⟩, -⟩)
  · obtain ⟨-, hlast⟩ := List.append_inj' hfront rfl
    cases hlast
    rcases hu with rfl | hu
    · exact hbad rfl
    · rw [hurl] at hu
      cases hu
  · have hlast := congrArg List.getLast? hfront
    rw [List.getLast?_append, List.getLast?_append] at hlast
    obtain rfl : Token.whitespace = t := Option.some.inj hlast
    cases hspace

theorem Text.trimWhile_eq_self {α : Type} {p : α → Bool} {l : List α}
    (hhead : ∀ a ∈ l.head?, p a = false) (hlast : ∀ a ∈ l.getLast?, p a = false) :
    trimWhile p l = l := by
  have hdrop {l : List α} (h : ∀ a ∈ l.head?, p a = false) : l.dropWhile p = l := by
    cases l with
    | nil => rfl
    | cons a l => exact List.dropWhile_cons_of_neg (by simp [h a rfl])
  rw [trimWhile, hdrop hhead, dropEndWhile, hdrop, List.reverse_reverse]
  rwa [List.head?_reverse]

namespace Component

/-- The component without the comments in front of it. -/
def bare : Component → Component
  | .token l => .token { l with gap := [] }
  | .block opener body closer => .block { opener with gap := [] } body closer

/-- A component that is `bare` has no comments in front of it, and the same lexemes. -/
theorem lexemes_bare (c : Component) :
    c.bare.lexemes = { c.first with gap := [] } :: c.lexemes.tail := by
  cases c <;> rfl

/-- A `bare` component is matched if it was before. -/
theorem Matched.bare {c : Component} (h : c.Matched) : c.bare.Matched := by
  cases c <;> exact h

theorem depth_bare (c : Component) : c.bare.depth = c.depth := by
  cases c <;> rfl

end Component

/-- A `bare` component writes the same color. -/
theorem Grammar.Single.bare {c : Component} {color : Color Float} (h : Single c color) :
    Single c.bare color := by
  cases h with
  | hash hl hcolor => exact .hash hl hcolor
  | defined hl => exact .defined hl
  | name hl hcolor => exact .name hl hcolor
  | call hopener hcolor => exact .call hopener hcolor

/-- A `Single` component that writes a color ends with something that is not blank and does not
depend on what follows. -/
theorem Grammar.Single.exists_last {c : Component} {color : Color Float} (h : Single c color)
    (hmatched : c.Matched) :
    ∃ front last, c.lexemes = front ++ [last] ∧ last.token ≠ .badString ∧
      last.token.isUrlFunction = false ∧ last.token.isWhitespace = false := by
  cases h with
  | @hash l _ _ hl | @defined l _ hl | @name l _ _ hl =>
    refine ⟨[], l, rfl, ?_⟩
    rw [hl]
    exact ⟨nofun, rfl, rfl⟩
  | @call opener closer _ body _ hopener =>
    obtain ⟨⟨bracket, -, hcloses⟩, -⟩ := hmatched
    refine ⟨opener :: lexemesAll body, closer, rfl, ?_⟩
    cases htoken : closer.token with
    | closer b => exact ⟨nofun, rfl, rfl⟩
    | _ =>
      rw [htoken] at hcloses
      cases hcloses

namespace Component

/-- A `Matched` component that is not blank starts with something that is not blank. -/
theorem Matched.first {c : Component} (h : c.Matched) (hc : c.isWhitespace = false) :
    c.first.token.isWhitespace = false := by
  cases c with
  | token l => exact hc
  | block opener body closer =>
    obtain ⟨⟨bracket, hopens, -⟩, -⟩ := h
    rw [Component.first]
    cases htoken : opener.token <;> first | rfl | (rw [htoken] at hopens; cases hopens)

/-- It ends with something that is not blank. -/
theorem Matched.exists_last {c : Component} (h : c.Matched) (hc : c.isWhitespace = false) :
    ∃ front last, c.lexemes = front ++ [last] ∧ last.token.isWhitespace = false := by
  cases c with
  | token l => exact ⟨[], l, rfl, hc⟩
  | block opener body closer =>
    obtain ⟨⟨bracket, -, hcloses⟩, -⟩ := h
    refine ⟨opener :: lexemesAll body, closer, rfl, ?_⟩
    cases htoken : closer.token <;> first | rfl | (rw [htoken] at hcloses; cases hcloses)

end Component

namespace Color

variable {text : List Char} {before after : List Lexeme} {c : Component} {color : Color Float}

/-- The lexemes of the text of a component that is part of a text and writes a color are those of
the `bare` component. -/
theorem contents_join (h : Lexeme.contents text = before ++ (c.lexemes ++ after))
    (hmatched : c.Matched) (hcolor : Single c color) :
    Lexeme.contents (Lexeme.join c.lexemes) = (c.bare.moved (· - c.first.start)).lexemes := by
  obtain ⟨front, last, hlast, hbad, hurl, hspace⟩ := hcolor.exists_last hmatched
  -- The closing bracket or the name is read in the same way whatever follows it.
  have hend : ¬ Token.EndsExposed (c.lexemes.map Lexeme.token) := by
    rw [hlast, List.map_append]
    exact Token.not_endsExposed_append hbad hurl hspace
  rw [lexemes_eq_cons] at h hend
  have hjoin := congrArg List.dropLast (Lexeme.ofText_join h hend)
  rw [← List.map_dropLast, List.dropLast_concat, ← lexemes_eq_cons, ← lexemes_bare] at hjoin
  -- Moving the lexemes to the place in the text and back changes nothing.
  have hback : ∀ l : Lexeme,
      (Lexeme.moved (· - c.first.start) ∘ Lexeme.moved (· + c.first.start)) l = l := fun l => by
    simp [Lexeme.moved]
  rw [lexemes_moved, ← hjoin, List.map_map, List.map_id'' hback, Lexeme.contents]

/-- Nothing is trimmed by `solidLexemes` from a text with a single component that is not blank. -/
theorem solidLexemes_eq {text : String} (h : Lexeme.contents text.toList = c.lexemes)
    (hmatched : c.Matched) (hc : c.isWhitespace = false) : solidLexemes text = c.lexemes := by
  obtain ⟨front, last, hlast, hspace⟩ := hmatched.exists_last hc
  rw [solidLexemes, h]
  refine trimWhile_eq_self (fun l hl => ?_) fun l hl => ?_
  · rw [lexemes_eq_cons] at hl
    obtain rfl := Option.some.inj hl
    exact hmatched.first hc
  · rw [hlast, List.getLast?_concat] at hl
    obtain rfl := Option.some.inj hl
    exact hspace

/-- A text with a single component is read by `Color.parse` as the color that the component writes.
-/
theorem parse_of_contents {text : String} (h : Lexeme.contents text.toList = c.lexemes)
    (hmatched : c.Matched) (hdepth : c.depth ≤ nestingLimit) (hcolor : Single c color) :
    parse text = .ok color := by
  have hdepth' : depthAll [c] ≤ nestingLimit := by
    rwa [depthAll_le_iff, List.forall_mem_singleton]
  rw [parse_eq_ok_iff_forest, solidLexemes_eq h hmatched hcolor.isWhitespace]
  refine ⟨?_, [c], forest_eq_ok_iff.mpr ⟨?_, ?_, hdepth'⟩, ?_⟩
  · rw [lexemes_eq_cons]
    exact List.cons_ne_nil _ _
  · rw [lexemesAll, lexemesAll, List.append_nil]
  · exact ⟨hmatched, trivial⟩
  · exact (Segment.color_eq_ok_iff hdepth').mpr hcolor.writes

/-- A component of a text is read by `Color.parse` as the same color from its own text. -/
theorem parse_join (h : Lexeme.contents text = before ++ (c.lexemes ++ after))
    (hmatched : c.Matched) (hdepth : c.depth ≤ nestingLimit) (hcolor : Single c color) :
    parse (String.ofList (Lexeme.join c.lexemes)) = .ok color := by
  have hcontents := contents_join h hmatched hcolor
  rw [← String.toList_ofList (l := Lexeme.join c.lexemes)] at hcontents
  refine parse_of_contents hcontents hmatched.bare.moved ?_ hcolor.bare.moved
  rwa [depth_moved, depth_bare]

end Color

/-! ## The search through the lexemes -/

/-- A token that starts a color expression in a document: a reference to a defined color, or one of
the composite functions. -/
inductive Token.StartsColor : Token → Prop
  | reference (name : String) : StartsColor (.atKeyword name)
  | composite {name : String} (h : ∃ known ∈ ["mix", "shade", "alpha", "lighter", "darker"],
      sameIgnoringCase name known) : StartsColor (.function name)

/-- The names that `Composite.ofName?` knows. -/
theorem Composite.isSome_ofName?_iff {name : String} :
    (ofName? name).isSome ↔
      ∃ known ∈ ["mix", "shade", "alpha", "lighter", "darker"], sameIgnoringCase name known := by
  simp only [Option.isSome_iff_exists, ofName?_eq_some_iff]
  constructor
  · rintro ⟨function, h⟩
    exact ⟨function.name, by cases function <;> simp [Composite.name], h⟩
  · rintro ⟨known, hknown, h⟩
    simp only [List.mem_cons, List.not_mem_nil, or_false] at hknown
    rcases hknown with rfl | rfl | rfl | rfl | rfl
    · exact ⟨.mix, h⟩
    · exact ⟨.shade, h⟩
    · exact ⟨.alpha, h⟩
    · exact ⟨.lighter, h⟩
    · exact ⟨.darker, h⟩

namespace Document

/-- The expression is the component, with its place, its text and its color. -/
structure Occurrence.IsAt (o : Occurrence) (c : Component) : Prop where
  /-- The place of the component. -/
  span : o.span = Lexeme.spanOf c.first c.lexemes.tail
  /-- The text of the component. -/
  key : o.key = Lexeme.join c.lexemes
  /-- The component is found by its first token. -/
  starts : c.first.token.StartsColor
  /-- Its brackets match. -/
  matched : c.Matched
  /-- It nests no deeper than the limit. -/
  depth_le : c.depth ≤ nestingLimit
  /-- It writes the color. -/
  color : Single c o.color

/-- The search through some lexemes passes over those that start no color expression and finds the
others with the components that they start. -/
inductive Finds : List Lexeme → List Occurrence → Prop
  | done : Finds [] []
  | skip {l : Lexeme} {rest : List Lexeme} {os : List Occurrence} (hl : ¬ l.token.StartsColor)
      (hrest : Finds rest os) : Finds (l :: rest) os
  | found {c : Component} {rest : List Lexeme} {o : Occurrence} {os : List Occurrence}
      (ho : o.IsAt c) (hrest : Finds rest os) : Finds (c.lexemes ++ rest) (o :: os)

/-- A reference `IsAt` its own token. -/
theorem isAt_reference {l : Lexeme} {name : String} (h : l.token = .atKeyword name) :
    Occurrence.IsAt ⟨l.span, l.text, .defined name⟩ (.token l) where
  span := rfl
  key := (List.append_nil l.text).symm
  starts := by
    rw [first, h]
    exact .reference name
  matched := by simp [Matched, isTerminated, h, Token.opens?, Token.closes?]
  depth_le := Nat.zero_le _
  color := .defined h

/-- A composite function that was read `IsAt` its block. -/
theorem isAt_block {l : Lexeme} {name : String} {rest after : List Lexeme} {block : Component}
    {color : Color Float} (hl : l.token = .function name) (hname : (Composite.ofName? name).isSome)
    (hblock : readBlock l .paren rest = .ok (block, after))
    (hcolor : Segment.color ⟨[block], (Lexeme.spanOf l block.lexemes).stop⟩ = .ok color) :
    Occurrence.IsAt ⟨Lexeme.spanOf l block.lexemes, Lexeme.join block.lexemes, color⟩ block := by
  obtain ⟨used, -, hlexemes⟩ := lexemes_of_readBlock hblock
  obtain ⟨hfirst, htail⟩ := List.cons.inj (block.lexemes_eq_cons.symm.trans hlexemes)
  have hdepth := depth_of_readBlock hblock
  refine ⟨?_, rfl, ?_, matched_of_readBlock hblock (by rw [hl]; rfl), hdepth, ?_⟩
  · rw [hfirst, htail, hlexemes]
    simp [Lexeme.spanOf, List.getLast?_cons]
  · rw [hfirst, hl]
    exact .composite (Composite.isSome_ofName?_iff.mp hname)
  · -- A block is not blank, so it is itself what writes the color.
    have hle : depthAll [block] ≤ nestingLimit := by
      rwa [depthAll_le_iff, List.forall_mem_singleton]
    obtain ⟨c, htrim, hsingle⟩ := writes_iff.mp ((Segment.color_eq_ok_iff hle).mp hcolor)
    have hmem := trimWhile_subset [block] (htrim ▸ List.mem_singleton_self c)
    rwa [← List.mem_singleton.mp hmem]

/-- What `occurrences` gives follows the rules of `Finds`. -/
theorem finds_of_occurrences {input : List Lexeme} {os : List Occurrence}
    (h : occurrences input = .ok os) : Finds input os := by
  fun_induction occurrences input generalizing os with
  | case1 =>
    cases h
    exact .done
  | case2 l rest name hname ih =>
    obtain ⟨more, hmore, rfl⟩ := exists_of_map_eq_ok h
    exact .found (isAt_reference hname) (ih hmore)
  | case3 l rest name hname hcomposite e hblock => cases h
  | case4 l rest name hname hcomposite block after hblock hlength lexemes =>
    rename_i span ih
    obtain ⟨color, hcolor, h⟩ := exists_of_bind_eq_ok h
    obtain ⟨more, hmore, rfl⟩ := exists_of_map_eq_ok h
    have hat := isAt_block hname hcomposite hblock hcolor
    -- Go on behind the lexemes of the block.
    obtain ⟨used, rfl, hlexemes⟩ := lexemes_of_readBlock hblock
    rw [← List.cons_append, ← hlexemes]
    exact .found hat (ih hmore)
  | case5 l rest name hname hcomposite ih =>
    refine .skip ?_ (ih h)
    rw [hname]
    rintro ⟨⟩
    rename_i hknown
    exact hcomposite (Composite.isSome_ofName?_iff.mpr hknown)
  | case6 l rest hreference hfunction ih =>
    refine .skip (fun hstarts => ?_) (ih h)
    generalize htoken : l.token = t at hstarts
    cases hstarts with
    | reference name => exact hreference name htoken
    | composite => exact hfunction _ htoken

variable {input : List Lexeme} {os : List Occurrence}

/-- Every expression that `Finds` relates to the lexemes is a component among them. -/
theorem Finds.exists_isAt (h : Finds input os) :
    ∀ o ∈ os, ∃ before c after, input = before ++ (c.lexemes ++ after) ∧ o.IsAt c := by
  induction h with
  | done => simp
  | skip hl hrest ih =>
    intro o ho
    obtain ⟨before, c, after, rfl, hat⟩ := ih o ho
    exact ⟨_ :: before, c, after, rfl, hat⟩
  | @found c rest o os hat hrest ih =>
    refine List.forall_mem_cons.mpr ⟨⟨[], c, rest, rfl, hat⟩, fun o' ho' => ?_⟩
    obtain ⟨before, c', after, rfl, hat'⟩ := ih o' ho'
    exact ⟨c.lexemes ++ before, c', after, by rw [List.append_assoc], hat'⟩

/-- Every lexeme that starts a color, by `StartsColor`, is in one of the components. -/
theorem Finds.exists_mem (h : Finds input os) :
    ∀ l ∈ input, l.token.StartsColor → ∃ before c after o, input = before ++ (c.lexemes ++ after) ∧
      o ∈ os ∧ o.IsAt c ∧ l ∈ c.lexemes := by
  induction h with
  | done => simp
  | skip hl hrest ih =>
    refine List.forall_mem_cons.mpr ⟨fun hstarts => absurd hstarts hl, fun l' hl' hstarts => ?_⟩
    obtain ⟨before, c, after, o, rfl, hfound⟩ := ih l' hl' hstarts
    exact ⟨_ :: before, c, after, o, rfl, hfound⟩
  | @found c rest o os hat hrest ih =>
    refine List.forall_mem_append.mpr ⟨fun l hl hstarts => ?_, fun l hl hstarts => ?_⟩
    · exact ⟨[], c, rest, o, rfl, List.mem_cons_self, hat, hl⟩
    · obtain ⟨before, c', after, o', rfl, ho', hfound⟩ := ih l hl hstarts
      exact ⟨c.lexemes ++ before, c', after, o', by rw [List.append_assoc],
        List.mem_cons_of_mem o ho', hfound⟩

end Document

/-! ## Spans -/

namespace Lexeme

/-- Lexemes that are `Consecutive` lie in the span from the first to the last one. -/
theorem Consecutive.mem_spanOf {offset : Nat} {first : Lexeme} {more : List Lexeme}
    (h : Consecutive offset (first :: more)) :
    ∀ l ∈ first :: more, first.start ≤ l.start ∧ l.stop ≤ (spanOf first more).stop := by
  induction more generalizing offset first with
  | nil =>
    rw [List.forall_mem_singleton]
    exact ⟨Nat.le_refl _, Nat.le_refl _⟩
  | cons next more ih =>
    cases h with
    | cons hstart hrest =>
      have hstop : (spanOf first (next :: more)).stop = (spanOf next more).stop := by
        simp [spanOf, List.getLast?_cons]
      have hnext : first.stop ≤ next.start := hrest.le_start next List.mem_cons_self
      have hle := ih hrest
      rw [hstop]
      refine List.forall_mem_cons.mpr ⟨⟨Nat.le_refl _, ?_⟩, fun l hl => ⟨?_, (hle l hl).2⟩⟩
      · calc first.stop ≤ next.start := hnext
          _ ≤ next.stop := next.start_le_stop
          _ ≤ (spanOf next more).stop := (hle next List.mem_cons_self).2
      · calc first.start ≤ first.stop := first.start_le_stop
          _ ≤ next.start := hnext
          _ ≤ l.start := (hle l hl).1

/-- Every lexeme of `contents` has characters. -/
theorem start_lt_stop {text : List Char} {l : Lexeme} (h : l ∈ contents text) :
    l.start < l.stop := by
  obtain ⟨left, hscan⟩ := scans_scanFrom 0 text
  exact Nat.lt_add_of_pos_right (byteSize_pos (Scans.forall_mem hscan l h).2.1)

end Lexeme

namespace Matches

variable {found : Matches}

/-- What is in a table after `insert` was put there or was there before. -/
theorem mem_insert {key : String} {color : Color Float} {entry : String × Color Float}
    (h : entry ∈ found.insert key color) : entry = (key, color) ∨ entry ∈ found := by
  induction found with
  | nil => exact .inl (List.mem_singleton.mp h)
  | cons first found ih =>
    rw [Matches.insert] at h
    split at h
    · exact (List.mem_cons.mp h)
    · split at h
      · exact (List.mem_cons.mp h).imp_right (List.mem_cons_of_mem first)
      · rcases List.mem_cons.mp h with rfl | h
        · exact .inr List.mem_cons_self
        · exact (ih h).imp_right (List.mem_cons_of_mem first)

end Matches

namespace Document

/-- Each match is one of the expressions. -/
theorem exists_of_mem_foldl {os : List Occurrence} {found : Matches}
    {entry : String × Color Float}
    (h : entry ∈ os.foldl (fun found o => found.insert (String.ofList o.key) o.color) found) :
    entry ∈ found ∨ ∃ o ∈ os, entry = (String.ofList o.key, o.color) := by
  induction os generalizing found with
  | nil => exact .inl h
  | cons o os ih =>
    rcases ih h with hfound | ⟨o', ho', rfl⟩
    · rcases Matches.mem_insert hfound with rfl | hfound
      · exact .inr ⟨o, List.mem_cons_self, rfl⟩
      · exact .inl hfound
    · exact .inr ⟨o', List.mem_cons_of_mem o ho', rfl⟩

/-- How the color expressions of a document lie in its text, and what they stand for. -/
structure Agrees (text : List Char) (d : Document) : Prop where
  /-- The places are not empty. -/
  start_lt_stop : ∀ span ∈ d.spans, span.start < span.stop
  /-- They are in ascending order and do not overlap. -/
  pairwise : d.spans.Pairwise fun a b => a.stop ≤ b.start
  /-- Each token that starts a color expression lies in exactly one of them. -/
  existsUnique_span : ∀ l ∈ Lexeme.ofText text, l.token.StartsColor →
    ∃! span, span ∈ d.spans ∧ span.start ≤ l.start ∧ l.stop ≤ span.stop
  /-- Each of them starts at such a token. -/
  exists_start : ∀ span ∈ d.spans,
    ∃ l ∈ Lexeme.ofText text, l.token.StartsColor ∧ l.start = span.start
  /-- The texts with a color are the texts at the places. -/
  mem_keys_iff : ∀ key, key ∈ d.found.keys ↔ ∃ span ∈ d.spans, span.slice? text = some key.toList
  /-- Each text is read as the color that the document has for it. -/
  parse_key : ∀ key ∈ d.found.keys, ∃ c, d.found.lookup key = some c ∧ Color.parse key = .ok c
  /-- All expressions with one text stand for the color of the text. -/
  lookup_key : ∃ os, occurrences (Lexeme.contents text) = .ok os ∧ d.spans = os.map (·.span) ∧
    ∀ o ∈ os, o.span.slice? text = some o.key ∧
      d.found.lookup (String.ofList o.key) = some o.color

section Agreement

variable {text : List Char} {os : List Occurrence} {o : Occurrence} {c : Component}
  {before after : List Lexeme}

/-- The lexemes of an expression lie in the span where it `IsAt`. -/
theorem Occurrence.IsAt.mem_span (hat : o.IsAt c)
    (h : Lexeme.contents text = before ++ (c.lexemes ++ after)) :
    ∀ l ∈ c.lexemes, o.span.start ≤ l.start ∧ l.stop ≤ o.span.stop := by
  obtain ⟨more, htext⟩ := Lexeme.exists_ofText_eq_append h
  have hconsecutive := Lexeme.consecutive_scanFrom 0 text
  rw [← Lexeme.ofText, htext, c.lexemes_eq_cons] at hconsecutive
  rw [hat.span, c.lexemes_eq_cons]
  exact hconsecutive.of_append.of_append_left.of_append_left.mem_spanOf

/-- The text at the place where an expression `IsAt` is its own. -/
theorem Occurrence.IsAt.slice?_span (hat : o.IsAt c)
    (h : Lexeme.contents text = before ++ (c.lexemes ++ after)) :
    o.span.slice? text = some o.key := by
  obtain ⟨more, htext⟩ := Lexeme.exists_ofText_eq_append h
  rw [List.append_assoc, c.lexemes_eq_cons] at htext
  rw [hat.span, hat.key, c.lexemes_eq_cons]
  exact Lexeme.slice?_of_ofText htext

/-- The text of an expression that `Finds` gives is read as its color. -/
theorem Finds.parse_key (h : Finds (Lexeme.contents text) os) :
    ∀ o ∈ os, Color.parse (String.ofList o.key) = .ok o.color := by
  intro o ho
  obtain ⟨before, c, after, htext, hat⟩ := h.exists_isAt o ho
  rw [hat.key]
  exact Color.parse_join htext hat.matched hat.depth_le hat.color

/-- The first lexeme of an expression that `Finds` gives. -/
theorem Finds.exists_start (h : Finds (Lexeme.contents text) os) :
    ∀ o ∈ os, ∃ l ∈ Lexeme.contents text, l.token.StartsColor ∧ l.start = o.span.start ∧
      l.stop ≤ o.span.stop := by
  intro o ho
  obtain ⟨before, c, after, htext, hat⟩ := h.exists_isAt o ho
  have hfirst : c.first ∈ c.lexemes := by
    rw [c.lexemes_eq_cons]
    exact List.mem_cons_self
  refine ⟨c.first, ?_, hat.starts, by rw [hat.span]; rfl, (hat.mem_span htext _ hfirst).2⟩
  rw [htext]
  exact List.mem_append_right _ (List.mem_append_left _ hfirst)

/-- Spans that do not overlap do not share a lexeme. -/
theorem eq_of_mem_span {spans : List Span} (h : spans.Pairwise fun a b => a.stop ≤ b.start)
    {l : Lexeme} (hl : l.start < l.stop) {a b : Span} (ha : a ∈ spans) (hb : b ∈ spans)
    (hla : a.start ≤ l.start ∧ l.stop ≤ a.stop) (hlb : b.start ≤ l.start ∧ l.stop ≤ b.stop) :
    a = b := by
  -- Of two spans in the list one stops before the other starts, unless they are the same.
  let R (a b : Span) : Prop := a.start ≤ l.start ∧ l.stop ≤ a.stop →
    b.start ≤ l.start ∧ l.stop ≤ b.stop → a = b
  have hsymm : Std.Symm R := ⟨fun a b hab hb ha => (hab ha hb).symm⟩
  have hapart : spans.Pairwise R := h.imp fun hab ha hb => by omega
  exact hapart.forall_of_forall (fun _ _ _ _ => rfl) ha hb hla hlb

/-- The document that `ofOccurrences` makes has the colors of its expressions for their texts. -/
theorem lookup_ofOccurrences (h : Finds (Lexeme.contents text) os) {key : String}
    (hkey : key ∈ (ofOccurrences text os).found.keys) :
    ∃ color, (ofOccurrences text os).found.lookup key = some color ∧
      Color.parse key = .ok color := by
  obtain ⟨hascending, -, -⟩ := foldl_insert_spec os [] .nil
  obtain ⟨⟨key, color⟩, hmem, rfl⟩ := List.mem_map.mp hkey
  refine ⟨color, Matches.lookup_eq_some hascending hmem, ?_⟩
  rcases exists_of_mem_foldl hmem with hnil | ⟨o, ho, heq⟩
  · cases hnil
  · obtain ⟨rfl, rfl⟩ := Prod.mk.inj heq
    exact h.parse_key o ho

/-- The expressions of a document lie apart in its text, at every token that starts one, and their
texts are read as the colors that the document has for them. -/
theorem agrees_of_parse {d : Document} (h : parse text = .ok d) : Agrees text d := by
  have hlocated := located_of_parse h
  obtain ⟨os, hos, rfl⟩ := exists_of_map_eq_ok h
  have hfinds := finds_of_occurrences hos
  obtain ⟨gap, htext⟩ := Lexeme.ofText_eq_contents text
  exact {
    start_lt_stop := fun span hspan => by
      obtain ⟨o, ho, rfl⟩ := List.mem_map.mp hspan
      obtain ⟨l, hl, -, hstart, hstop⟩ := hfinds.exists_start o ho
      rw [← hstart]
      exact Nat.lt_of_lt_of_le (Lexeme.start_lt_stop hl) hstop
    pairwise := hlocated.ascending
    existsUnique_span := fun l hl hstarts => by
      -- The end of the text starts nothing.
      have hmem : l ∈ Lexeme.contents text := by
        rw [htext] at hl
        refine (List.mem_append.mp hl).resolve_right fun hlast => ?_
        rw [List.mem_singleton.mp hlast] at hstarts
        cases hstarts
      obtain ⟨before, c, after, o, hsplit, ho, hat, hlc⟩ := hfinds.exists_mem l hmem hstarts
      have hspan := hat.mem_span hsplit l hlc
      refine ⟨o.span, ⟨List.mem_map_of_mem ho, hspan⟩, ?_⟩
      rintro other ⟨hother, hcontains⟩
      exact eq_of_mem_span hlocated.ascending (Lexeme.start_lt_stop hmem) hother
        (List.mem_map_of_mem ho) hcontains hspan
    exists_start := fun span hspan => by
      obtain ⟨o, ho, rfl⟩ := List.mem_map.mp hspan
      obtain ⟨l, hl, hstarts, hstart, -⟩ := hfinds.exists_start o ho
      exact ⟨l, htext ▸ List.mem_append_left _ hl, hstarts, hstart⟩
    mem_keys_iff := fun key => by
      -- A span slices out one text, and that one has a color.
      refine ⟨hlocated.place key, ?_⟩
      rintro ⟨span, hspan, hslice⟩
      obtain ⟨text', hslice', hmem⟩ := hlocated.slice span hspan
      rw [hslice, Option.some.injEq] at hslice'
      rwa [← hslice', String.ofList_toList] at hmem
    parse_key := fun key hkey => lookup_ofOccurrences hfinds hkey
    lookup_key := by
      refine ⟨os, hos, rfl, fun o ho => ?_⟩
      obtain ⟨before, c, after, hsplit, hat⟩ := hfinds.exists_isAt o ho
      have hslice := hat.slice?_span hsplit
      refine ⟨hslice, ?_⟩
      obtain ⟨text', hslice', hmem⟩ := hlocated.slice o.span (List.mem_map_of_mem ho)
      rw [hslice, Option.some.injEq] at hslice'
      rw [← hslice'] at hmem
      -- The color of the text is the one that is read from it, and so is that of the expression.
      obtain ⟨color, hlookup, hparse⟩ := lookup_ofOccurrences hfinds hmem
      rw [hfinds.parse_key o ho] at hparse
      rwa [Except.ok.inj hparse] }

/-- A reference that occurs twice, a comment, and a function with other expressions inside. -/
theorem agrees_of_parse_repeated :
    let text := "@a /*@b*/ MIX(@a, lighter(@c), 50%) @a".toList
    ∃ d, parse text = .ok d ∧ d.spans = [⟨0, 2⟩, ⟨10, 35⟩, ⟨36, 38⟩] ∧
      d.found.keys = ["@a", "MIX(@a, lighter(@c), 50%)"] ∧ Agrees text d := by
  intro text
  have hruns : (parse text).toOption.any fun d =>
      d.spans = [⟨0, 2⟩, ⟨10, 35⟩, ⟨36, 38⟩] ∧
        d.found.keys = ["@a", "MIX(@a, lighter(@c), 50%)"] := by
    decide +kernel
  rcases hparse : parse text with e | d
  · rw [hparse] at hruns
    cases hruns
  · rw [hparse] at hruns
    obtain ⟨hspans, hkeys⟩ := of_decide_eq_true hruns
    exact ⟨d, rfl, hspans, hkeys, agrees_of_parse hparse⟩

end Agreement

end Document

end ThemeColor
