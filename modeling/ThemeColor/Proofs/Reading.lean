import ThemeColor.Sheet.Parse
import Mathlib.Data.List.TakeWhile

/-!
# How a style sheet is read

`Reads` says, branch by branch, what the three functions that read rules and declarations do with
the lexemes they are given, and `reads_rules`, `reads_declarations` and `reads_atRule` say that they
do nothing else. What holds of every reading is then proved by one induction on `Reads`. The first
such fact is `Reads.consumes`: the lexemes that were read are passed over from the front, and the
end of the text is never among them.
-/

namespace ThemeColor.Sheet

/-! ## Passing over lexemes -/

/-- The lexemes of `input` in front of `rest` are passed over; none of them is the end of the
text. -/
def Consumes (input rest : List Lexeme) : Prop :=
  ∃ passed, input = passed ++ rest ∧ ∀ l ∈ passed, l.token ≠ .eof

theorem Consumes.refl (input : List Lexeme) : Consumes input input := ⟨[], rfl, by simp⟩

/-- Two steps that satisfy `Consumes` make up one that does. -/
theorem Consumes.trans {a b c : List Lexeme} (hab : Consumes a b) (hbc : Consumes b c) :
    Consumes a c := by
  obtain ⟨p, rfl, hp⟩ := hab
  obtain ⟨q, rfl, hq⟩ := hbc
  refine ⟨p ++ q, by simp, fun l hl => ?_⟩
  rcases List.mem_append.mp hl with hl | hl
  · exact hp l hl
  · exact hq l hl

theorem Consumes.cons {l : Lexeme} {after rest : List Lexeme} (hne : l.token ≠ .eof)
    (h : Consumes after rest) : Consumes (l :: after) rest := by
  obtain ⟨p, rfl, hp⟩ := h
  exact ⟨l :: p, rfl, by simpa using ⟨hne, hp⟩⟩

/-- What was passed over is what `consumed` computes. -/
theorem Consumes.eq_consumed_append {input rest : List Lexeme} (h : Consumes input rest) :
    input = consumed input rest ++ rest ∧ ∀ l ∈ consumed input rest, l.token ≠ .eof := by
  obtain ⟨p, rfl, hp⟩ := h
  have hconsumed : consumed (p ++ rest) rest = p := by
    simp [consumed]
  rw [hconsumed]
  exact ⟨rfl, hp⟩

/-- Passing over a block with `afterBlock` stops in front of the end of the text. -/
theorem afterBlock_consumes (bracket : Bracket) (input : List Lexeme) :
    Consumes input (afterBlock bracket input).1 := by
  fun_induction afterBlock bracket input with
  | case1 => exact .refl _
  | case2 bracket l after hclose =>
    exact .cons (by rw [hclose]; simp) (.refl _)
  | case3 => exact .refl _
  | case4 bracket l after _ heof _ rest ih => exact .cons heof ih
  | case5 bracket l after _ heof inner _ inside rest ih₁ ih₂ =>
    exact .cons heof (ih₁.trans ih₂)

/-- Passing over a component value with `afterComponent` stops in front of the end of the text. -/
theorem afterComponent_consumes (first : Lexeme) (after : List Lexeme) :
    Consumes after (afterComponent first after).1 := by
  unfold afterComponent
  split
  · exact .refl _
  · exact afterBlock_consumes _ _

/-- Splitting off component values with `pieces` stops in front of the end of the text. -/
theorem pieces_consumes {stop : Token → Bool} (hstop : stop .eof) (input : List Lexeme) :
    Consumes input (pieces stop input).2.1 := by
  fun_induction pieces stop input with
  | case1 => exact .refl _
  | case2 => exact .refl _
  | case3 l after hne rest more last heq ih =>
    rw [heq] at ih
    have hne : l.token ≠ .eof := by
      intro heof
      rw [heof] at hne
      exact hne hstop
    exact .cons hne ((afterComponent_consumes l after).trans ih)

/-- Passing over component values with `skip` stops in front of the end of the text. -/
theorem skip_consumes {stop : Token → Bool} (hstop : stop .eof) (input : List Lexeme) :
    Consumes input (skip stop input).1 :=
  pieces_consumes hstop input

theorem afterBrace_consumes (input : List Lexeme) : Consumes input (afterBrace input).1 := by
  unfold afterBrace
  split
  · exact .refl _
  · split
    · rename_i hbrace
      exact .cons (by rw [hbrace]; simp) (.refl _)
    · exact .refl _

theorem afterBlanks_consumes (input : List Lexeme) : Consumes input (afterBlanks input).1 := by
  refine ⟨input.takeWhile (·.token.isWhitespace), ?_, fun l hl heof => ?_⟩
  · exact (List.takeWhile_append_dropWhile).symm
  · have := List.mem_takeWhile_imp hl
    simp [heof, Token.isWhitespace] at this

theorem afterNonDeclaration_consumes (first : Lexeme) (after : List Lexeme) :
    Consumes after (afterNonDeclaration first after).1 :=
  (afterComponent_consumes first after).trans (skip_consumes rfl _)

/-- A `declaration` passes over everything up to what ends it. -/
theorem declaration_consumes (name : String) (input : List Lexeme) :
    Consumes input (declaration name input).2.1 := by
  have hblanks := afterBlanks_consumes input
  unfold declaration
  dsimp only
  split
  · rename_i h
    rwa [h] at hblanks
  · rename_i l after h
    rw [h] at hblanks
    split
    · rename_i hcolon
      refine hblanks.trans (.cons (by rw [hcolon]; simp) ?_)
      exact (afterBlanks_consumes after).trans (pieces_consumes rfl _)
    · exact hblanks.trans (skip_consumes rfl (l :: after))

/-! ## The reading relation -/

/-- The heading of an at-rule: `input` are the lexemes after its keyword and `rest` those after the
whole rule. -/
def heading (name : String) (keyword : Lexeme) (input rest : List Lexeme) : AtHeading where
  name
  prelude := trimmedSpan input (skip endsAtPrelude input).1
  span := Lexeme.spanOf keyword (consumed input rest)

/-- What was read: the rest of an at-rule whose name and keyword were read before, some rules, or
some declarations. -/
inductive Reading where
  /-- An at-rule. -/
  | atRule (name : String) (keyword : Lexeme) (rule : Rule)
  /-- Rules, outside of all blocks or inside of one. -/
  | rules (outermost : Bool) (rules : List Rule)
  /-- Declarations. -/
  | declarations (declarations : List Declaration)

/-- A token at which the rules of a block, or of the whole text, end. -/
def EndsRules (outermost : Bool) (t : Token) : Prop :=
  t = .eof ∨ (t = .closer .curly ∧ outermost = false)

/-- A token between rules that is passed over. -/
def BetweenRules (outermost : Bool) (t : Token) : Prop :=
  t = .whitespace ∨ (outermost = true ∧ (t = .closer .curly ∨ t = .markupOpen ∨ t = .markupClose))

/-- A token with which a style rule starts. -/
structure StartsStyleRule (outermost : Bool) (t : Token) : Prop where
  /-- The rules do not end there. -/
  goesOn : ¬ EndsRules outermost t
  /-- The token belongs to a rule. -/
  belongs : ¬ BetweenRules outermost t
  /-- The rule is no at-rule. -/
  plain : ∀ name, t ≠ .atKeyword name

/-- A token that stands where a declaration is expected and starts none. -/
structure StartsNoDeclaration (t : Token) : Prop where
  /-- The declarations do not end there. -/
  goesOn : t ≠ .eof ∧ t ≠ .closer .curly
  /-- The token does not stand between declarations. -/
  belongs : t ≠ .whitespace ∧ t ≠ .semicolon
  /-- The token starts neither an at-rule nor a declaration. -/
  nameless : ∀ name, t ≠ .atKeyword name ∧ t ≠ .ident name

/-- `Reads r input rest`: `r` is read from the front of `input`, and `rest` is left. -/
inductive Reads : Reading → List Lexeme → List Lexeme → Prop
  -- An at-rule, by the lexeme that ends its prelude.
  | atEnd {name keyword input} (hprelude : (skip endsAtPrelude input).1 = []) :
      Reads (.atRule name keyword (.statement (heading name keyword input []))) input []
  | atSemicolon {name keyword input l after} (hprelude : (skip endsAtPrelude input).1 = l :: after)
      (hl : l.token = .semicolon) :
      Reads (.atRule name keyword (.statement (heading name keyword input after)))
        input after
  | atGroup {name keyword input l after inner mid}
      (hprelude : (skip endsAtPrelude input).1 = l :: after) (hl : l.token = .opener .curly)
      (hname : hasRules name) (hinner : Reads (.rules false inner) after mid) :
      Reads (.atRule name keyword
        (.group (heading name keyword input (afterBrace mid).1) inner))
        input (afterBrace mid).1
  | atPage {name keyword input l after inner mid}
      (hprelude : (skip endsAtPrelude input).1 = l :: after) (hl : l.token = .opener .curly)
      (hname : ¬ hasRules name) (hinner : Reads (.declarations inner) after mid) :
      Reads (.atRule name keyword
        (.page (heading name keyword input (afterBrace mid).1) inner))
        input (afterBrace mid).1
  | atOther {name keyword input l after} (hprelude : (skip endsAtPrelude input).1 = l :: after)
      (hsemicolon : l.token ≠ .semicolon) (hbrace : l.token ≠ .opener .curly) :
      Reads (.atRule name keyword
        (.statement (heading name keyword input (l :: after)))) input (l :: after)
  -- Rules, up to the closing brace of the block around them or to the end of the text.
  | noRules {outermost} : Reads (.rules outermost []) [] []
  | endRules {outermost l after} (hl : EndsRules outermost l.token) :
      Reads (.rules outermost []) (l :: after) (l :: after)
  | betweenRules {outermost l after rs rest} (hl : BetweenRules outermost l.token)
      (hmore : Reads (.rules outermost rs) after rest) :
      Reads (.rules outermost rs) (l :: after) rest
  | ruleAt {outermost name l after rule mid rs rest} (hl : l.token = .atKeyword name)
      (hrule : Reads (.atRule name l rule) after mid)
      (hmore : Reads (.rules outermost rs) mid rest) :
      Reads (.rules outermost (rule :: rs)) (l :: after) rest
  -- A style rule, by the lexeme that ends its prelude.
  | ruleCutOff {outermost l after} (hl : StartsStyleRule outermost l.token)
      (hprelude : (skip endsStylePrelude (l :: after)).1 = []) :
      Reads (.rules outermost []) (l :: after) []
  | ruleStyle {outermost l after brace inside ds mid rs rest}
      (hl : StartsStyleRule outermost l.token)
      (hprelude : (skip endsStylePrelude (l :: after)).1 = brace :: inside)
      (hbrace : brace.token = .opener .curly) (hinner : Reads (.declarations ds) inside mid)
      (hmore : Reads (.rules outermost rs) (afterBrace mid).1 rest) :
      Reads (.rules outermost
        (.style (trimmedSpan (l :: after) (skip endsStylePrelude (l :: after)).1) ds :: rs))
        (l :: after) rest
  | ruleStray {l after brace inside rs rest} (hl : StartsStyleRule true l.token)
      (hprelude : (skip endsStylePrelude (l :: after)).1 = brace :: inside)
      (hbrace : brace.token = .closer .curly) (hmore : Reads (.rules true rs) inside rest) :
      Reads (.rules true rs) (l :: after) rest
  | ruleLost {outermost l after brace inside} (hl : StartsStyleRule outermost l.token)
      (hprelude : (skip endsStylePrelude (l :: after)).1 = brace :: inside)
      (hopener : brace.token ≠ .opener .curly)
      (hcloser : ¬ (brace.token = .closer .curly ∧ outermost = true)) :
      Reads (.rules outermost []) (l :: after) (brace :: inside)
  -- Declarations; at-rules among them are read and dropped.
  | noDeclarations : Reads (.declarations []) [] []
  | endDeclarations {l after} (hl : l.token = .eof ∨ l.token = .closer .curly) :
      Reads (.declarations []) (l :: after) (l :: after)
  | betweenDeclarations {l after ds rest} (hl : l.token = .whitespace ∨ l.token = .semicolon)
      (hmore : Reads (.declarations ds) after rest) :
      Reads (.declarations ds) (l :: after) rest
  | declarationAt {name l after rule mid ds rest} (hl : l.token = .atKeyword name)
      (hrule : Reads (.atRule name l rule) after mid)
      (hmore : Reads (.declarations ds) mid rest) :
      Reads (.declarations ds) (l :: after) rest
  | declarationNamed {name l after ds rest} (hl : l.token = .ident name)
      (hmore : Reads (.declarations ds) (declaration name after).2.1 rest) :
      Reads (.declarations ((declaration name after).1.toList ++ ds)) (l :: after) rest
  | declarationLost {l after ds rest} (hl : StartsNoDeclaration l.token)
      (hmore : Reads (.declarations ds) (afterNonDeclaration l after).1 rest) :
      Reads (.declarations ds) (l :: after) rest

mutual

/-- An at-rule is read as `Reads` says. -/
theorem reads_atRule (name : String) (keyword : Lexeme) (input : List Lexeme) :
    Reads (.atRule name keyword (atRule name keyword input).1) input
      (atRule name keyword input).2.1 := by
  rw [atRule]
  dsimp only
  split
  · rename_i hprelude
    exact .atEnd hprelude
  · rename_i l after hprelude
    -- The prelude has passed over at least the lexeme that ends it, so that the calls end.
    have hlt : after.length < input.length := by
      have := (skip endsAtPrelude input).2
      rw [hprelude] at this
      exact this
    split
    · rename_i hl
      exact .atSemicolon hprelude hl
    · rename_i hsemicolon
      split
      · rename_i hl
        split
        · rename_i hname
          exact .atGroup hprelude hl hname (reads_rules false after)
        · rename_i hname
          exact .atPage hprelude hl hname (reads_declarations after)
      · rename_i hbrace
        exact .atOther hprelude hsemicolon hbrace
termination_by input.length

/-- Rules are read as `Reads` says. -/
theorem reads_rules (outermost : Bool) (input : List Lexeme) :
    Reads (.rules outermost (rules outermost input).1) input (rules outermost input).2.1 := by
  cases input with
  | nil =>
    rw [rules]
    exact .noRules
  | cons l after =>
    rw [rules]
    split
    · rename_i heof
      exact .endRules (.inl heof)
    · rename_i heof
      split
      · rename_i hcloser
        exact .endRules (.inr (by simpa using hcloser))
      · rename_i hcloser
        split
        -- A closing brace gets here only outside of all blocks, since it ends the rules of a block.
        · rename_i hbetween
          refine .betweenRules ?_ (reads_rules outermost after)
          rcases hbetween with hl | hl | ⟨houtermost, hl⟩
          · exact .inl hl
          · exact .inr ⟨by simpa [hl] using hcloser, .inl hl⟩
          · exact .inr ⟨houtermost, .inr hl⟩
        · rename_i hbetween
          split
          · rename_i name hl
            have := (atRule name l after).2.2
            exact .ruleAt hl (reads_atRule name l after) (reads_rules outermost _)
          · rename_i hplain
            -- All other tokens were sent elsewhere by the tests before.
            have hstyle : StartsStyleRule outermost l.token := by
              refine ⟨?_, ?_, hplain⟩
              · rintro (h | ⟨h, houtermost⟩)
                · exact heof h
                · exact hcloser ⟨h, by simpa using houtermost⟩
              · rintro (h | ⟨houtermost, h | h⟩)
                · exact hbetween (.inl h)
                · exact hbetween (.inr (.inl h))
                · exact hbetween (.inr (.inr ⟨houtermost, h⟩))
            dsimp only
            split
            · rename_i hprelude
              exact .ruleCutOff hstyle hprelude
            · rename_i brace inside hprelude
              have hlt : inside.length < after.length + 1 := by
                have := (skip endsStylePrelude (l :: after)).2
                rw [hprelude] at this
                exact this
              split
              · rename_i hbrace
                have := (declarations inside).2.2
                have := (afterBrace (declarations inside).2.1).2
                exact .ruleStyle hstyle hprelude hbrace (reads_declarations inside)
                  (reads_rules outermost _)
              · rename_i hopener
                split
                · rename_i hclose
                  obtain ⟨hbrace, rfl⟩ := hclose
                  exact .ruleStray hstyle hprelude hbrace (reads_rules true inside)
                · rename_i hclose
                  exact .ruleLost hstyle hprelude hopener hclose
termination_by input.length

/-- Declarations are read as `Reads` says. -/
theorem reads_declarations (input : List Lexeme) :
    Reads (.declarations (declarations input).1) input (declarations input).2.1 := by
  cases input with
  | nil =>
    rw [declarations]
    exact .noDeclarations
  | cons l after =>
    rw [declarations]
    split
    · rename_i hl
      exact .endDeclarations (.inl hl)
    · rename_i hl
      exact .endDeclarations (.inr hl)
    · rename_i hl
      exact .betweenDeclarations (.inl hl) (reads_declarations after)
    · rename_i hl
      exact .betweenDeclarations (.inr hl) (reads_declarations after)
    · rename_i name hl
      -- A rest is known to be no longer than what it was taken from.
      have := (atRule name l after).2.2
      exact .declarationAt hl (reads_atRule name l after) (reads_declarations _)
    · rename_i name hl
      have := (declaration name after).2.2
      exact .declarationNamed hl (reads_declarations _)
    · rename_i heof hcloser hblank hsemicolon hat hident
      have := (afterNonDeclaration l after).2
      exact .declarationLost ⟨⟨heof, hcloser⟩, ⟨hblank, hsemicolon⟩, fun n => ⟨hat n, hident n⟩⟩
        (reads_declarations _)
termination_by input.length

end

/-! ## What every reading passes over -/

theorem consumes_of_skip {stop : Token → Bool} {input rest : List Lexeme}
    (hstop : stop .eof) (h : (skip stop input).1 = rest) : Consumes input rest :=
  h ▸ skip_consumes hstop input

/-- A prelude, an opening brace, what is inside, and the closing brace: each part `Consumes` what
the next one starts with. -/
theorem consumes_block {stop : Token → Bool} {input after mid : List Lexeme} {l : Lexeme}
    (hstop : stop .eof) (hprelude : (skip stop input).1 = l :: after)
    (hl : l.token = .opener .curly) (hinner : Consumes after mid) :
    Consumes input (afterBrace mid).1 :=
  (consumes_of_skip hstop hprelude).trans
    (.cons (by simp [hl]) (hinner.trans (afterBrace_consumes mid)))

/-- What may stand `BetweenRules` is not the end of the text. -/
theorem BetweenRules.ne_eof {outermost : Bool} {t : Token} (h : BetweenRules outermost t) :
    t ≠ .eof := by
  rintro rfl
  rcases h with h | ⟨_, h | h | h⟩ <;> cases h

/-- Whatever one `Reads`, the lexemes are passed over from the front and the end of the text is
left. -/
theorem Reads.consumes {r : Reading} {input rest : List Lexeme} (h : Reads r input rest) :
    Consumes input rest := by
  induction h with
  | atEnd hprelude => exact consumes_of_skip rfl hprelude
  | atSemicolon hprelude hl =>
    exact (consumes_of_skip rfl hprelude).trans (.cons (by simp [hl]) (.refl _))
  | atGroup hprelude hl _ _ ih | atPage hprelude hl _ _ ih =>
    exact consumes_block rfl hprelude hl ih
  | atOther hprelude => exact consumes_of_skip rfl hprelude
  | noRules | noDeclarations | endRules | endDeclarations => exact .refl _
  | betweenRules hl _ ih => exact .cons hl.ne_eof ih
  | ruleAt hl _ _ ihrule ihmore => exact .cons (by simp [hl]) (ihrule.trans ihmore)
  | ruleCutOff _ hprelude => exact consumes_of_skip rfl hprelude
  | ruleStyle _ hprelude hbrace _ _ ihinner ihmore =>
    exact (consumes_block rfl hprelude hbrace ihinner).trans ihmore
  | ruleStray _ hprelude hbrace _ ih =>
    exact (consumes_of_skip rfl hprelude).trans (.cons (by simp [hbrace]) ih)
  | ruleLost _ hprelude => exact consumes_of_skip rfl hprelude
  | betweenDeclarations hl _ ih => exact .cons (by rcases hl with hl | hl <;> simp [hl]) ih
  | declarationAt hl _ _ ihrule ihmore => exact .cons (by simp [hl]) (ihrule.trans ihmore)
  | declarationNamed hl _ ih =>
    exact .cons (by simp [hl]) ((declaration_consumes _ _).trans ih)
  | declarationLost hl _ ih =>
    exact .cons hl.goesOn.1 ((afterNonDeclaration_consumes _ _).trans ih)

end ThemeColor.Sheet
