import ThemeColor.Proofs.Blocks
import ThemeColor.Proofs.ComponentRun
import ThemeColor.Proofs.Reading

/-!
# Rules and declarations are recovered

A style sheet that is written out as lexemes is read back: every rule and every declaration is found
again, with its name and with the places of its parts, and nothing else is.

A `WrittenRule` holds the lexemes that a rule is written with, and that they are in order: preludes
and values are complete components, and what ends them does not occur among them. `Reads` says what
the readers can do at each lexeme, so at the lexemes of a written rule only one thing is left.

## Main results

* `WrittenDeclaration.of_reads`: one declaration is read in front of whatever follows it;
* `WrittenRule.of_reads`: so is one rule, and so are the rules inside it;
* `rules_written`: the rules of a written style sheet are read back.
-/

namespace ThemeColor.Sheet

open Component Text

/-! ## Written style sheets -/

/-- A lexeme of the given token. -/
abbrev Mark (t : Token) := { l : Lexeme // l.token = t }

/-- What may stand in front of the block of a style rule. -/
structure IsStylePrelude (cs : List Component) : Prop where
  /-- All components are complete. -/
  complete : CompleteAll none cs
  /-- There are components. -/
  nonempty : cs ≠ []
  /-- The first token starts a style rule. -/
  starts : ∀ c ∈ cs.head?, c.first.token ≠ .whitespace ∧ c.first.token ≠ .markupOpen ∧
    c.first.token ≠ .markupClose ∧ ∀ name, c.first.token ≠ .atKeyword name
  /-- No block in braces stands among the components. -/
  noBrace : ∀ c ∈ cs, c.first.token ≠ .opener .curly

/-- What may stand between the keyword of an at-rule and its block or semicolon. -/
structure IsAtPrelude (cs : List Component) : Prop where
  /-- All components are complete. -/
  complete : CompleteAll none cs
  /-- Neither a semicolon nor a block in braces stands among the components. -/
  goesOn : ∀ c ∈ cs, c.first.token ≠ .semicolon ∧ c.first.token ≠ .opener .curly

/-- What may stand as the value of a declaration. -/
structure IsValue (cs : List Component) : Prop where
  /-- All components are complete. -/
  complete : CompleteAll none cs
  /-- There are components. -/
  nonempty : cs ≠ []
  /-- No semicolon stands among the components. -/
  goesOn : ∀ c ∈ cs, c.first.token ≠ .semicolon
  /-- The value does not start with a blank. -/
  solidStart : ∀ c ∈ cs.head?, c.first.token ≠ .whitespace
  /-- The value does not end with a blank. -/
  solidEnd : ∀ c ∈ cs.getLast?, c.first.token ≠ .whitespace
  /-- The value does not end with the word `important`. -/
  unmarked : ∀ c ∈ cs.getLast?, ∀ name, c.first.token = .ident name →
    ¬ sameIgnoringCase name "important"

/-- A declaration as it is written: a name, a colon, a value and a semicolon. -/
structure WrittenDeclaration where
  /-- The property. -/
  name : String
  /-- The name of the property. -/
  property : Mark (.ident name)
  /-- The colon. -/
  colon : Mark .colon
  /-- The value. -/
  value : { cs : List Component // IsValue cs }
  /-- The semicolon. -/
  semicolon : Mark .semicolon

/-- A rule as it is written. -/
inductive WrittenRule where
  /-- A prelude and declarations in braces. -/
  | style (prelude : { cs : List Component // IsStylePrelude cs }) (opening : Mark (.opener .curly))
      (declarations : List WrittenDeclaration) (closing : Mark (.closer .curly))
  /-- A keyword, a prelude and a semicolon. -/
  | statement (name : String) (keyword : Mark (.atKeyword name))
      (prelude : { cs : List Component // IsAtPrelude cs }) (semicolon : Mark .semicolon)
  /-- A keyword of an at-rule with rules, a prelude and rules in braces. -/
  | group (name : String) (hname : hasRules name) (keyword : Mark (.atKeyword name))
      (prelude : { cs : List Component // IsAtPrelude cs }) (opening : Mark (.opener .curly))
      (rules : List WrittenRule) (closing : Mark (.closer .curly))
  /-- Any other keyword, a prelude and declarations in braces. -/
  | page (name : String) (hname : ¬ hasRules name) (keyword : Mark (.atKeyword name))
      (prelude : { cs : List Component // IsAtPrelude cs }) (opening : Mark (.opener .curly))
      (declarations : List WrittenDeclaration) (closing : Mark (.closer .curly))

/-- The lexemes of a declaration. -/
def WrittenDeclaration.lexemes (d : WrittenDeclaration) : List Lexeme :=
  d.property.1 :: d.colon.1 :: (lexemesAll d.value.1 ++ [d.semicolon.1])

mutual

/-- The lexemes of a rule. -/
def WrittenRule.lexemes : WrittenRule → List Lexeme
  | .style prelude opening declarations closing =>
    lexemesAll prelude.1 ++
      opening.1 :: (declarations.flatMap WrittenDeclaration.lexemes ++ [closing.1])
  | .statement _ keyword prelude semicolon =>
    keyword.1 :: (lexemesAll prelude.1 ++ [semicolon.1])
  | .group _ _ keyword prelude opening rules closing =>
    keyword.1 :: (lexemesAll prelude.1 ++ opening.1 :: (lexemesOf rules ++ [closing.1]))
  | .page _ _ keyword prelude opening declarations closing =>
    keyword.1 :: (lexemesAll prelude.1 ++
      opening.1 :: (declarations.flatMap WrittenDeclaration.lexemes ++ [closing.1]))

/-- The lexemes of some rules. -/
def lexemesOf : List WrittenRule → List Lexeme
  | [] => []
  | r :: rs => r.lexemes ++ lexemesOf rs

end

/-! ### What is to be read -/

/-- The place of some lexemes without blank ends; nothing is left of blanks but the place of the
next lexeme. -/
def solidSpan (ls : List Lexeme) (next : Lexeme) : Span :=
  match trimWhile (·.token.isWhitespace) ls with
  | [] => ⟨next.start, next.start⟩
  | first :: more => Lexeme.spanOf first more

/-- The declaration that is written: its value goes from its first to its last lexeme. -/
def WrittenDeclaration.declaration (d : WrittenDeclaration) : Declaration where
  name := d.name
  value := ⟨(d.value.1.head d.value.2.nonempty).first.start,
    (d.value.1.getLast d.value.2.nonempty).final.stop⟩
  important := false

/-- The heading of an at-rule from its keyword to the lexeme that ends it; `next` is the lexeme
after the prelude. -/
def writtenHeading (name : String) (keyword : Lexeme) (prelude : List Component)
    (next last : Lexeme) : AtHeading where
  name
  prelude := solidSpan (lexemesAll prelude) next
  span := ⟨keyword.start, last.stop⟩

mutual

/-- The rule that is written. -/
def WrittenRule.rule : WrittenRule → Rule
  | .style prelude opening declarations _ =>
    .style (solidSpan (lexemesAll prelude.1) opening.1)
      (declarations.map WrittenDeclaration.declaration)
  | .statement name keyword prelude semicolon =>
    .statement (writtenHeading name keyword.1 prelude.1 semicolon.1 semicolon.1)
  | .group name _ keyword prelude opening rules closing =>
    .group (writtenHeading name keyword.1 prelude.1 opening.1 closing.1) (rulesOf rules)
  | .page name _ keyword prelude opening declarations closing =>
    .page (writtenHeading name keyword.1 prelude.1 opening.1 closing.1)
      (declarations.map WrittenDeclaration.declaration)

/-- The rules that are written. -/
def rulesOf : List WrittenRule → List Rule
  | [] => []
  | r :: rs => r.rule :: rulesOf rs

end

/-! ## Places -/

/-- What was `consumed` is what stands in front of the rest. -/
theorem consumed_append (ls rest : List Lexeme) : consumed (ls ++ rest) rest = ls := by
  simp [consumed]

/-- The `trimmedSpan` of a prelude is the `solidSpan` of its lexemes. -/
theorem trimmedSpan_append (ls : List Lexeme) (next : Lexeme) (after : List Lexeme) :
    trimmedSpan (ls ++ next :: after) (next :: after) = solidSpan ls next := by
  unfold trimmedSpan solidSpan
  rw [consumed_append]
  rfl

/-! ## Values -/

theorem isWhitespace_eq_false {t : Token} (h : t ≠ .whitespace) : t.isWhitespace = false := by
  unfold Token.isWhitespace
  split <;> trivial

/-- The tokens that `endsDeclaration` stops at are three. -/
theorem endsDeclaration_eq_false {t : Token} (hsemicolon : t ≠ .semicolon)
    (hcloser : t ≠ .closer .curly) (heof : t ≠ .eof) : endsDeclaration t = false := by
  unfold endsDeclaration
  split <;> trivial

/-- The tokens that `endsAtPrelude` stops at are four. -/
theorem endsAtPrelude_eq_false {t : Token} (hsemicolon : t ≠ .semicolon)
    (hopener : t ≠ .opener .curly) (hcloser : t ≠ .closer .curly) (heof : t ≠ .eof) :
    endsAtPrelude t = false := by
  unfold endsAtPrelude
  split <;> trivial

/-- The tokens that `endsStylePrelude` stops at are three. -/
theorem endsStylePrelude_eq_false {t : Token} (hopener : t ≠ .opener .curly)
    (hcloser : t ≠ .closer .curly) (heof : t ≠ .eof) : endsStylePrelude t = false := by
  unfold endsStylePrelude
  split <;> trivial

section Values

variable {value : List Piece} {last : Piece}

theorem exists_reverse_eq_cons (hlast : value.getLast? = some last) :
    ∃ before, value.reverse = last :: before := by
  rw [← List.head?_reverse] at hlast
  obtain ⟨before, h⟩ := List.head?_eq_some_iff.mp hlast
  exact ⟨before, h⟩

/-- A value that ends neither with a blank nor with the word `important` is kept as it is. -/
theorem bareValue_eq_self (hlast : value.getLast? = some last)
    (hsolid : last.isWhitespace = false) (hword : last.isImportantWord = false) :
    bareValue value = value := by
  obtain ⟨before, hreverse⟩ := exists_reverse_eq_cons hlast
  -- All three steps look at the last component first, and it stops each of them.
  have hdrop : (last :: before).dropWhile Piece.isWhitespace = last :: before :=
    List.dropWhile_cons_of_neg (by simp [hsolid])
  have hkeep : dropImportant (last :: before) = last :: before := by
    rw [dropImportant, if_neg (by simp [hword])]
  rw [bareValue, hreverse, hdrop, hkeep, hdrop, ← hreverse, List.reverse_reverse]

/-- A value that does not end with the word that `isImportantWord` looks for is not important. -/
theorem isImportant_eq_false (hlast : value.getLast? = some last)
    (hsolid : last.isWhitespace = false) (hword : last.isImportantWord = false) :
    isImportant value = false := by
  obtain ⟨before, hreverse⟩ := exists_reverse_eq_cons hlast
  unfold isImportant
  rw [hreverse, List.filter_cons_of_pos (by simp [hsolid])]
  split
  · rename_i heq
    obtain ⟨rfl, -⟩ := List.cons.inj heq
    simp [hword]
  · rfl

end Values

/-- The `piecesOf` components are found in their order. -/
theorem piecesOf_append (a b : List Component) (rest : List Lexeme) :
    piecesOf (a ++ b) rest = piecesOf a (lexemesAll b ++ rest) ++ piecesOf b rest := by
  induction a with
  | nil => rw [List.nil_append, piecesOf, List.nil_append]
  | cons c a ih =>
    rw [List.cons_append, piecesOf, piecesOf, ih, List.cons_append, lexemesAll_append,
      List.append_assoc]

/-- The last one of `piecesOf` starts with the first lexeme of the last component. -/
theorem getLast?_piecesOf {cs : List Component} (hne : cs ≠ []) (rest : List Lexeme) :
    (piecesOf cs rest).getLast? =
      some ⟨(cs.getLast hne).first, (cs.getLast hne).lexemes.tail ++ rest⟩ := by
  -- Only the last piece is in front of `rest` itself.
  have hsplit := piecesOf_append cs.dropLast [cs.getLast hne] rest
  rw [List.dropLast_concat_getLast hne] at hsplit
  rw [hsplit, piecesOf, piecesOf, lexemesAll, List.nil_append, List.getLast?_concat]

/-- The value of a written declaration is read with its place, the `valueSpan`. -/
theorem valueSpan_piecesOf {cs : List Component} (h : IsValue cs) (rest rest' : List Lexeme) :
    valueSpan (piecesOf cs rest) rest' =
      ⟨(cs.head h.nonempty).first.start, (cs.getLast h.nonempty).final.stop⟩ := by
  have hlast := complete_of_mem h.complete (List.getLast_mem h.nonempty)
  have hhead : (piecesOf cs rest).head?.map Piece.first = some (cs.head h.nonempty).first := by
    cases cs with
    | nil => exact absurd rfl h.nonempty
    | cons c cs => rfl
  obtain ⟨first, hfirst, heq⟩ := Option.map_eq_some_iff.mp hhead
  unfold valueSpan
  rw [hfirst, getLast?_piecesOf h.nonempty]
  dsimp only
  rw [heq, stop_piece hlast]

namespace WrittenDeclaration

variable (d : WrittenDeclaration) (rest : List Lexeme)

/-- The `pieces` up to the semicolon are those of the written value. -/
theorem pieces_value :
    (pieces endsDeclaration (lexemesAll d.value.1 ++ d.semicolon.1 :: rest)).1 =
        piecesOf d.value.1 (d.semicolon.1 :: rest) ∧
      (pieces endsDeclaration (lexemesAll d.value.1 ++ d.semicolon.1 :: rest)).2.1 =
        d.semicolon.1 :: rest := by
  obtain ⟨cs, hcs⟩ := d.value
  refine pieces_lexemesAll hcs.complete (fun c hc => ?_) (by rw [d.semicolon.2]; rfl) rest
  have hc' := complete_of_mem hcs.complete hc
  exact endsDeclaration_eq_false (hcs.goesOn c hc) (hc'.first_ne_closer _) hc'.first_ne_eof

/-- The value starts right after the colon: `afterBlanks` finds none. -/
theorem afterBlanks_value :
    (afterBlanks (lexemesAll d.value.1 ++ d.semicolon.1 :: rest)).1 =
      lexemesAll d.value.1 ++ d.semicolon.1 :: rest := by
  obtain ⟨cs, hcs⟩ := d.value
  cases cs with
  | nil => exact absurd rfl hcs.nonempty
  | cons c cs =>
    have hsolid := isWhitespace_eq_false (hcs.solidStart c rfl)
    rw [afterBlanks, lexemesAll, lexemes_eq_cons, List.cons_append, List.cons_append]
    simp [hsolid]

/-- What follows the name of a property is read by `Sheet.declaration` as the declaration. -/
theorem declaration_eq :
    (Sheet.declaration d.name (d.colon.1 :: (lexemesAll d.value.1 ++ d.semicolon.1 :: rest))).1 =
        some d.declaration ∧
      (Sheet.declaration d.name
        (d.colon.1 :: (lexemesAll d.value.1 ++ d.semicolon.1 :: rest))).2.1 =
        d.semicolon.1 :: rest := by
  have hblanks : (afterBlanks (d.colon.1 :: (lexemesAll d.value.1 ++ d.semicolon.1 :: rest))).1 =
      d.colon.1 :: (lexemesAll d.value.1 ++ d.semicolon.1 :: rest) := by
    simp [afterBlanks, d.colon.2, Token.isWhitespace]
  obtain ⟨hpieces, hrest⟩ := d.pieces_value rest
  have hlast := getLast?_piecesOf d.value.2.nonempty (d.semicolon.1 :: rest)
  have hmem := List.getLast?_eq_some_getLast d.value.2.nonempty
  have hsolid := d.value.2.solidEnd _ hmem
  have hword := d.value.2.unmarked _ hmem
  -- The last piece is neither blank nor a mark, so nothing is taken off the end of the value.
  have hblank : Piece.isWhitespace ⟨(d.value.1.getLast d.value.2.nonempty).first,
      (d.value.1.getLast d.value.2.nonempty).lexemes.tail ++ d.semicolon.1 :: rest⟩ = false :=
    isWhitespace_eq_false hsolid
  have hplain : Piece.isImportantWord ⟨(d.value.1.getLast d.value.2.nonempty).first,
      (d.value.1.getLast d.value.2.nonempty).lexemes.tail ++ d.semicolon.1 :: rest⟩ = false := by
    unfold Piece.isImportantWord
    split
    · rename_i name hname
      simpa using hword name hname
    · rfl
  unfold Sheet.declaration
  dsimp only
  split
  · rename_i hnil
    rw [hblanks] at hnil
    cases hnil
  · rename_i l after hcons
    obtain ⟨rfl, rfl⟩ := List.cons.inj (hblanks.symm.trans hcons)
    rw [if_pos d.colon.2]
    dsimp only
    rw [d.afterBlanks_value, hpieces, hrest, bareValue_eq_self hlast hblank hplain,
      isImportant_eq_false hlast hblank hplain, valueSpan_piecesOf d.value.2]
    exact ⟨rfl, rfl⟩

end WrittenDeclaration

/-! ## What can be read at a lexeme -/

section Steps

variable {outermost : Bool} {l : Lexeme} {after out : List Lexeme} {rs : List Rule}
  {ds : List Declaration}

/-- Rules that are read in front of a token for which `EndsRules` holds are none. -/
theorem Reads.eq_of_endsRules (hl : EndsRules outermost l.token)
    (h : Reads (.rules outermost rs) (l :: after) out) : rs = [] ∧ out = l :: after := by
  -- What ends the rules is neither passed over nor the start of another one.
  have hbetween : ¬ BetweenRules outermost l.token := by
    rcases hl with hl | ⟨hl, rfl⟩ <;> simp [BetweenRules, hl]
  cases h with
  | endRules => exact ⟨rfl, rfl⟩
  | betweenRules hl' => exact absurd hl' hbetween
  | ruleAt hl' => rcases hl with hl | ⟨hl, -⟩ <;> simp [hl] at hl'
  | ruleCutOff hl' | ruleStyle hl' | ruleStray hl' | ruleLost hl' => exact absurd hl hl'.goesOn

/-- A keyword starts an at-rule: it `Reads` one, and then more rules. -/
theorem Reads.exists_of_atKeyword {name : String} (hl : l.token = .atKeyword name)
    (h : Reads (.rules outermost rs) (l :: after) out) :
    ∃ rule mid more, Reads (.atRule name l rule) after mid ∧
      Reads (.rules outermost more) mid out ∧ rs = rule :: more := by
  cases h with
  | endRules hl' => simp [EndsRules, hl] at hl'
  | betweenRules hl' => simp [BetweenRules, hl] at hl'
  | ruleAt hl' hrule hmore =>
    cases hl.symm.trans hl'
    exact ⟨_, _, _, hrule, hmore, rfl⟩
  | ruleCutOff hl' | ruleStyle hl' | ruleStray hl' | ruleLost hl' => exact absurd hl (hl'.plain _)

/-- A prelude in front of an opening brace starts a style rule: it `Reads` declarations, and then
more rules. -/
theorem Reads.exists_of_style {brace : Lexeme} {inside : List Lexeme}
    (hl : StartsStyleRule outermost l.token)
    (hprelude : (skip endsStylePrelude (l :: after)).1 = brace :: inside)
    (hbrace : brace.token = .opener .curly) (h : Reads (.rules outermost rs) (l :: after) out) :
    ∃ ds mid more, Reads (.declarations ds) inside mid ∧
      Reads (.rules outermost more) (afterBrace mid).1 out ∧
      rs = .style (trimmedSpan (l :: after) (brace :: inside)) ds :: more := by
  cases h with
  | endRules hl' => exact absurd hl' hl.goesOn
  | betweenRules hl' => exact absurd hl' hl.belongs
  | ruleAt hl' => exact absurd hl' (hl.plain _)
  | ruleCutOff _ hprelude' => cases hprelude.symm.trans hprelude'
  | ruleStyle _ hprelude' _ hinner hmore =>
    cases hprelude.symm.trans hprelude'
    exact ⟨_, _, _, hinner, hmore, by rw [hprelude]⟩
  -- The remaining cases end the prelude in front of another token.
  | ruleStray _ hprelude' hbrace' =>
    cases hprelude.symm.trans hprelude'
    cases hbrace.symm.trans hbrace'
  | ruleLost _ hprelude' hopener =>
    cases hprelude.symm.trans hprelude'
    exact absurd hbrace hopener

/-- A closing brace ends the declarations that one `Reads`. -/
theorem Reads.eq_of_closingBrace (hl : l.token = .closer .curly)
    (h : Reads (.declarations ds) (l :: after) out) : ds = [] ∧ out = l :: after := by
  cases h with
  | endDeclarations => exact ⟨rfl, rfl⟩
  | betweenDeclarations hl' => simp [hl] at hl'
  | declarationAt hl' => cases hl.symm.trans hl'
  | declarationNamed hl' => cases hl.symm.trans hl'
  | declarationLost hl' => exact absurd hl hl'.goesOn.2

/-- A semicolon between the declarations that one `Reads` is passed over. -/
theorem Reads.of_semicolon (hl : l.token = .semicolon)
    (h : Reads (.declarations ds) (l :: after) out) : Reads (.declarations ds) after out := by
  cases h with
  | endDeclarations hl' => simp [hl] at hl'
  | betweenDeclarations _ hmore => exact hmore
  | declarationAt hl' => cases hl.symm.trans hl'
  | declarationNamed hl' => cases hl.symm.trans hl'
  | declarationLost hl' => exact absurd hl hl'.belongs.2

/-- The name of a property starts a `declaration`. -/
theorem Reads.exists_of_ident {name : String} (hl : l.token = .ident name)
    (h : Reads (.declarations ds) (l :: after) out) :
    ∃ more, Reads (.declarations more) (declaration name after).2.1 out ∧
      ds = (declaration name after).1.toList ++ more := by
  cases h with
  | endDeclarations hl' => simp [hl] at hl'
  | betweenDeclarations hl' => simp [hl] at hl'
  | declarationAt hl' => cases hl.symm.trans hl'
  | declarationNamed hl' hmore =>
    cases hl.symm.trans hl'
    exact ⟨_, hmore, rfl⟩
  | declarationLost hl' => exact absurd hl (hl'.nameless name).2

variable {name : String} {keyword next : Lexeme} {input : List Lexeme} {rule : Rule}

/-- An at-rule whose prelude ends with a semicolon is read as a statement, as `Reads` says. -/
theorem Reads.eq_of_atSemicolon (hprelude : (skip endsAtPrelude input).1 = next :: after)
    (hnext : next.token = .semicolon) (h : Reads (.atRule name keyword rule) input out) :
    rule = .statement (heading name keyword input after) ∧ out = after := by
  cases h with
  | atEnd hprelude' => cases hprelude.symm.trans hprelude'
  | atSemicolon hprelude' =>
    cases hprelude.symm.trans hprelude'
    exact ⟨rfl, rfl⟩
  | atGroup hprelude' hl | atPage hprelude' hl =>
    cases hprelude.symm.trans hprelude'
    cases hnext.symm.trans hl
  | atOther hprelude' hsemicolon =>
    cases hprelude.symm.trans hprelude'
    exact absurd hnext hsemicolon

/-- An at-rule of which `hasRules` holds is read together with the rules in its block, as `Reads`
says. -/
theorem Reads.exists_of_atGroup (hprelude : (skip endsAtPrelude input).1 = next :: after)
    (hnext : next.token = .opener .curly) (hname : hasRules name)
    (h : Reads (.atRule name keyword rule) input out) :
    ∃ inner mid, Reads (.rules false inner) after mid ∧ out = (afterBrace mid).1 ∧
      rule = .group (heading name keyword input out) inner := by
  cases h with
  | atEnd hprelude' => cases hprelude.symm.trans hprelude'
  | atSemicolon hprelude' hl =>
    cases hprelude.symm.trans hprelude'
    cases hnext.symm.trans hl
  | atGroup hprelude' _ _ hinner =>
    cases hprelude.symm.trans hprelude'
    exact ⟨_, _, hinner, rfl, rfl⟩
  | atPage _ _ hname' => exact absurd hname hname'
  | atOther hprelude' _ hbrace =>
    cases hprelude.symm.trans hprelude'
    exact absurd hnext hbrace

/-- Any other at-rule with a block is read together with the declarations in it, as `Reads` says. -/
theorem Reads.exists_of_atPage (hprelude : (skip endsAtPrelude input).1 = next :: after)
    (hnext : next.token = .opener .curly) (hname : ¬ hasRules name)
    (h : Reads (.atRule name keyword rule) input out) :
    ∃ inner mid, Reads (.declarations inner) after mid ∧ out = (afterBrace mid).1 ∧
      rule = .page (heading name keyword input out) inner := by
  cases h with
  | atEnd hprelude' => cases hprelude.symm.trans hprelude'
  | atSemicolon hprelude' hl =>
    cases hprelude.symm.trans hprelude'
    cases hnext.symm.trans hl
  | atGroup _ _ hname' => exact absurd hname' hname
  | atPage hprelude' _ _ hinner =>
    cases hprelude.symm.trans hprelude'
    exact ⟨_, _, hinner, rfl, rfl⟩
  | atOther hprelude' _ hbrace =>
    cases hprelude.symm.trans hprelude'
    exact absurd hnext hbrace

end Steps

/-! ## Declarations -/

variable {rest out : List Lexeme}

/-- A `WrittenDeclaration` is read, and reading goes on with what follows it. -/
theorem WrittenDeclaration.of_reads (d : WrittenDeclaration) {ds : List Declaration}
    (h : Reads (.declarations ds) (d.lexemes ++ rest) out) :
    ∃ more, ds = d.declaration :: more ∧ Reads (.declarations more) rest out := by
  rw [lexemes, List.cons_append, List.cons_append, List.append_assoc, List.singleton_append] at h
  obtain ⟨more, hmore, rfl⟩ := h.exists_of_ident d.property.2
  -- The declaration stops in front of its semicolon, which is passed over next.
  obtain ⟨hfound, hrest⟩ := d.declaration_eq rest
  rw [hrest] at hmore
  exact ⟨more, by rw [hfound]; rfl, hmore.of_semicolon d.semicolon.2⟩

/-- The declarations of a block, each a `WrittenDeclaration`, are read up to its closing brace. -/
theorem declarations_of_reads (written : List WrittenDeclaration) (closing : Mark (.closer .curly))
    {ds : List Declaration} (h : Reads (.declarations ds)
      (written.flatMap WrittenDeclaration.lexemes ++ closing.1 :: rest) out) :
    ds = written.map WrittenDeclaration.declaration ∧ out = closing.1 :: rest := by
  induction written generalizing ds with
  | nil => exact h.eq_of_closingBrace closing.2
  | cons d written ih =>
    rw [List.flatMap_cons, List.append_assoc] at h
    obtain ⟨more, rfl, hmore⟩ := d.of_reads h
    obtain ⟨rfl, hout⟩ := ih hmore
    exact ⟨rfl, hout⟩

/-! ## Rules -/

theorem afterBrace_closing (closing : Mark (.closer .curly)) (rest : List Lexeme) :
    (afterBrace (closing.1 :: rest)).1 = rest := by
  rw [afterBrace, if_pos closing.2]

/-- A written prelude ends where `endsAtPrelude` stops. -/
theorem skip_atPrelude (prelude : { cs : List Component // IsAtPrelude cs }) {next : Lexeme}
    (hnext : endsAtPrelude next.token) (after : List Lexeme) :
    (skip endsAtPrelude (lexemesAll prelude.1 ++ next :: after)).1 = next :: after := by
  obtain ⟨cs, hcs⟩ := prelude
  refine skip_lexemesAll hcs.complete (fun c hc => ?_) hnext after
  have hc' := complete_of_mem hcs.complete hc
  exact endsAtPrelude_eq_false (hcs.goesOn c hc).1 (hcs.goesOn c hc).2 (hc'.first_ne_closer _)
    hc'.first_ne_eof

/-- The `heading` of an at-rule that is read is the one that is written. -/
theorem heading_eq {name : String} {keyword next last : Lexeme}
    (prelude : { cs : List Component // IsAtPrelude cs }) (hnext : endsAtPrelude next.token)
    (after rest : List Lexeme) (hlast : (next :: after).getLast? = some last) :
    heading name keyword (lexemesAll prelude.1 ++ next :: (after ++ rest)) rest =
      writtenHeading name keyword prelude.1 next last := by
  -- The place of the whole rule goes up to what is left of the lexemes.
  have hconsumed : consumed (lexemesAll prelude.1 ++ next :: (after ++ rest)) rest =
      lexemesAll prelude.1 ++ next :: after := by
    rw [← List.cons_append, ← List.append_assoc, consumed_append]
  have hend : (lexemesAll prelude.1 ++ next :: after).getLast? = some last := by
    rw [List.getLast?_append, hlast]
    rfl
  rw [heading, writtenHeading, skip_atPrelude prelude hnext, trimmedSpan_append, hconsumed,
    Lexeme.spanOf, hend, Option.getD_some]

theorem endsAtPrelude_opening (opening : Mark (.opener .curly)) :
    endsAtPrelude opening.1.token := by
  rw [opening.2]
  rfl

/-- The `heading` of an at-rule with a block goes up to the closing brace. -/
theorem heading_block {name : String} {keyword : Lexeme}
    (prelude : { cs : List Component // IsAtPrelude cs }) (opening : Mark (.opener .curly))
    (inside : List Lexeme) (closing : Mark (.closer .curly)) (rest : List Lexeme) :
    heading name keyword (lexemesAll prelude.1 ++ opening.1 :: (inside ++ closing.1 :: rest)) rest =
      writtenHeading name keyword prelude.1 opening.1 closing.1 := by
  have hlast : (opening.1 :: (inside ++ [closing.1])).getLast? = some closing.1 := by
    rw [← List.cons_append, List.getLast?_concat]
  rw [← heading_eq prelude (endsAtPrelude_opening opening) (inside ++ [closing.1]) rest hlast,
    List.append_assoc, List.singleton_append]

/-- The lexemes of a prelude that satisfies `IsStylePrelude` start a style rule, and end in front of
its block. -/
theorem exists_of_stylePrelude (outermost : Bool)
    (prelude : { cs : List Component // IsStylePrelude cs }) (opening : Mark (.opener .curly))
    (inside : List Lexeme) :
    ∃ l after, lexemesAll prelude.1 ++ opening.1 :: inside = l :: after ∧
      StartsStyleRule outermost l.token ∧
      (skip endsStylePrelude (l :: after)).1 = opening.1 :: inside := by
  obtain ⟨cs, hcs⟩ := prelude
  have hskip : (skip endsStylePrelude (lexemesAll cs ++ opening.1 :: inside)).1 =
      opening.1 :: inside := by
    refine skip_lexemesAll hcs.complete (fun c hc => ?_) (by rw [opening.2]; rfl) inside
    have hc' := complete_of_mem hcs.complete hc
    exact endsStylePrelude_eq_false (hcs.noBrace c hc) (hc'.first_ne_closer _) hc'.first_ne_eof
  cases cs with
  | nil => exact absurd rfl hcs.nonempty
  | cons c cs =>
    -- The first component decides that this is a style rule.
    obtain ⟨hblank, hopen, hclose, hplain⟩ := hcs.starts c rfl
    have hcloser := hcs.complete.1.first_ne_closer .curly
    have heof := hcs.complete.1.first_ne_eof
    have heq : lexemesAll (c :: cs) ++ opening.1 :: inside =
        c.first :: (c.lexemes.tail ++ (lexemesAll cs ++ opening.1 :: inside)) := by
      rw [lexemesAll, lexemes_eq_cons, List.cons_append, List.cons_append, List.append_assoc,
        List.tail_cons]
    rw [heq] at hskip
    exact ⟨_, _, heq, ⟨by simp [EndsRules, heof, hcloser],
      by simp [BetweenRules, hblank, hcloser, hopen, hclose], hplain⟩, hskip⟩

mutual

/-- A `WrittenRule` is read, and reading goes on with what follows it. -/
theorem WrittenRule.of_reads : (r : WrittenRule) → (outermost : Bool) → (rest : List Lexeme) →
    ∀ {rs out}, Reads (.rules outermost rs) (r.lexemes ++ rest) out →
      ∃ more, rs = r.rule :: more ∧ Reads (.rules outermost more) rest out
  | .style prelude opening declarations closing, outermost, rest, _, out, h => by
    rw [WrittenRule.lexemes, List.append_assoc, List.cons_append, List.append_assoc,
      List.singleton_append] at h
    -- `Reads` looks at the first lexeme, which is that of the prelude.
    obtain ⟨l, after, heq, hl, hskip⟩ := exists_of_stylePrelude outermost prelude opening
      (declarations.flatMap WrittenDeclaration.lexemes ++ closing.1 :: rest)
    rw [heq] at h
    obtain ⟨ds, mid, more, hinner, hmore, rfl⟩ := h.exists_of_style hl hskip opening.2
    obtain ⟨rfl, rfl⟩ := declarations_of_reads declarations closing hinner
    rw [afterBrace_closing] at hmore
    exact ⟨more, by rw [← heq, trimmedSpan_append, WrittenRule.rule], hmore⟩
  | .statement name keyword prelude semicolon, outermost, rest, _, out, h => by
    rw [WrittenRule.lexemes, List.cons_append, List.append_assoc, List.singleton_append] at h
    obtain ⟨rule', mid, more, hrule, hmore, rfl⟩ := h.exists_of_atKeyword keyword.2
    have hends : endsAtPrelude semicolon.1.token := by
      rw [semicolon.2]
      rfl
    obtain ⟨rfl, rfl⟩ := hrule.eq_of_atSemicolon (skip_atPrelude prelude hends _) semicolon.2
    refine ⟨more, ?_, hmore⟩
    rw [WrittenRule.rule, ← heading_eq prelude hends [] mid List.getLast?_singleton,
      List.nil_append]
  | .group name hname keyword prelude opening rules closing, outermost, rest, _, out, h => by
    rw [WrittenRule.lexemes, List.cons_append, List.append_assoc, List.cons_append,
      List.append_assoc, List.singleton_append] at h
    obtain ⟨rule', mid, more, hrule, hmore, rfl⟩ := h.exists_of_atKeyword keyword.2
    obtain ⟨inner, mid', hinner, rfl, rfl⟩ :=
      hrule.exists_of_atGroup (skip_atPrelude prelude (endsAtPrelude_opening opening) _) opening.2
        hname
    -- The rules inside are read up to the closing brace, which ends them.
    obtain ⟨none', rfl, hnone⟩ := rules_of_reads rules false (closing.1 :: rest) hinner
    obtain ⟨rfl, rfl⟩ := hnone.eq_of_endsRules (.inr ⟨closing.2, rfl⟩)
    rw [afterBrace_closing] at hmore ⊢
    exact ⟨more, by rw [WrittenRule.rule, heading_block, List.append_nil], hmore⟩
  | .page name hname keyword prelude opening declarations closing, outermost, rest, _, out, h => by
    rw [WrittenRule.lexemes, List.cons_append, List.append_assoc, List.cons_append,
      List.append_assoc, List.singleton_append] at h
    obtain ⟨rule', mid, more, hrule, hmore, rfl⟩ := h.exists_of_atKeyword keyword.2
    obtain ⟨inner, mid', hinner, rfl, rfl⟩ :=
      hrule.exists_of_atPage (skip_atPrelude prelude (endsAtPrelude_opening opening) _) opening.2
        hname
    obtain ⟨rfl, rfl⟩ := declarations_of_reads declarations closing hinner
    rw [afterBrace_closing] at hmore ⊢
    exact ⟨more, by rw [WrittenRule.rule, heading_block], hmore⟩

/-- The rules of `rulesOf` are read one after the other. -/
theorem rules_of_reads : (written : List WrittenRule) → (outermost : Bool) →
    (rest : List Lexeme) → ∀ {rs out}, Reads (.rules outermost rs) (lexemesOf written ++ rest) out →
      ∃ more, rs = rulesOf written ++ more ∧ Reads (.rules outermost more) rest out
  | [], _, _, rs, _, h =>
    ⟨rs, by rw [rulesOf, List.nil_append], by rwa [lexemesOf, List.nil_append] at h⟩
  | r :: written, outermost, rest, _, out, h => by
    rw [lexemesOf, List.append_assoc] at h
    obtain ⟨more, rfl, hmore⟩ := WrittenRule.of_reads r outermost _ h
    obtain ⟨last, rfl, hlast⟩ := rules_of_reads written outermost rest hmore
    exact ⟨last, by rw [rulesOf, List.cons_append], hlast⟩

end

/-- The rules of a written style sheet are read back, each with its name, its declarations and the
places of its parts. -/
theorem rules_written (written : List WrittenRule) (last : Mark .eof) :
    (rules true (lexemesOf written ++ [last.1])).1 = rulesOf written := by
  -- All written rules are read, and the end of the text ends them.
  obtain ⟨more, hrules, hmore⟩ := rules_of_reads written true [last.1] (reads_rules true _)
  obtain ⟨rfl, -⟩ := hmore.eq_of_endsRules (.inl last.2)
  rw [hrules, List.append_nil]

/-- A style rule inside of an at-rule, with a semicolon inside of a function. -/
theorem rules_written_media :
    let text := "@media x{a{b:c(;);}}".toList
    ∃ (written : List WrittenRule) (last : Mark .eof),
      lexemesOf written ++ [last.1] = Lexeme.ofText text ∧
        (rules true (Lexeme.ofText text)).1 = rulesOf written ∧
        rulesOf written = [.group ⟨"media", ⟨7, 8⟩, ⟨0, 20⟩⟩
          [.style ⟨9, 10⟩ [⟨"b", ⟨13, 17⟩, false⟩]]] := by
  intro text
  let lexeme (t : Token) (word : String) (start : Nat) : Lexeme := ⟨t, [], word.toList, start⟩
  let value : List Component := [.block (lexeme (.function "c") "c(" 13)
    [.token (lexeme .semicolon ";" 15)] (lexeme (.closer .paren) ")" 16)]
  let d : WrittenDeclaration :=
    { name := "b"
      property := ⟨lexeme (.ident "b") "b" 11, rfl⟩
      colon := ⟨lexeme .colon ":" 12, rfl⟩
      value := ⟨value, ⟨⟨.paren, rfl, rfl, by simp [CompleteAll, Complete, lexeme, Token.opens?]⟩,
        trivial⟩, by simp [value], by simp [value, lexeme, first], by simp [value, lexeme, first],
        by simp [value, lexeme, first], by simp [value, lexeme, first]⟩
      semicolon := ⟨lexeme .semicolon ";" 17, rfl⟩ }
  let inner : WrittenRule := .style
    ⟨[.token (lexeme (.ident "a") "a" 9)], by simp [CompleteAll, Complete, lexeme, Token.opens?],
      by simp, by simp [lexeme, first], by simp [lexeme, first]⟩
    ⟨⟨.opener .curly, [], ['{'], 10⟩, rfl⟩ [d] ⟨⟨.closer .curly, [], ['}'], 18⟩, rfl⟩
  let outer : WrittenRule := .group "media" (by decide +kernel)
    ⟨lexeme (.atKeyword "media") "@media" 0, rfl⟩
    ⟨[.token (lexeme .whitespace " " 6), .token (lexeme (.ident "x") "x" 7)],
      by simp [CompleteAll, Complete, lexeme, Token.opens?], by simp [lexeme, first]⟩
    ⟨⟨.opener .curly, [], ['{'], 8⟩, rfl⟩ [inner] ⟨⟨.closer .curly, [], ['}'], 19⟩, rfl⟩
  have hlexemes : lexemesOf [outer] ++ [lexeme .eof "" 20] = Lexeme.ofText text := by
    decide +kernel
  refine ⟨[outer], ⟨lexeme .eof "" 20, rfl⟩, hlexemes, ?_, rfl⟩
  rw [← hlexemes]
  exact rules_written [outer] ⟨lexeme .eof "" 20, rfl⟩

end ThemeColor.Sheet
