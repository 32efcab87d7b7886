import ThemeColor.Proofs.ComponentRun
import ThemeColor.Proofs.Reading

/-!
# Where component values end

A component value is found twice. A reader passes over it block by block, going down into each block
that is opened on the way (`afterComponent`), and a measurer goes along the lexemes with a stack of
open brackets and returns a byte position (`Piece.stop`). Brackets may be nested in any way, and a
closing bracket of the wrong kind is an ordinary token for both.

`Extent` says where a component value ends without either of them: at its only token, at the bracket
that closes its block, or at the end of the text. Reader and measurer both end there
(`extent_stop`), so they agree about every component value (`stop_eq_of_afterComponent`).

## Main definitions

* `IsClosed first after`: the block that `first` opens is closed;
* `Extent first passed rest stop`: a component value with its lexemes and its end.
-/

namespace ThemeColor.Sheet

open Component

/-! ## Closed blocks -/

/-- The lexemes start with the inside of a block and the bracket that closes it: complete components
come first, and no closing bracket of the block is among them. -/
def Closes (bracket : Bracket) (input : List Lexeme) : Prop :=
  ∃ body closer rest, input = lexemesAll body ++ closer :: rest ∧
    CompleteAll (some bracket) body ∧ closer.token = .closer bracket

/-- The block that a lexeme opens is closed; `after` are the lexemes after it. -/
def IsClosed (first : Lexeme) (after : List Lexeme) : Prop :=
  ∃ bracket, first.token.opens? = some bracket ∧ Closes bracket after

/-- Nothing is left, or only the end of the text and what stands behind it. -/
def AtEnd (rest : List Lexeme) : Prop := ∀ l after, rest = l :: after → l.token = .eof

/-- A component inside of a block is passed over on the way to what `Closes` it. -/
theorem Closes.cons {bracket : Bracket} {c : Component} {rest : List Lexeme}
    (hc : c.Complete (some bracket)) (h : Closes bracket rest) :
    Closes bracket (c.lexemes ++ rest) := by
  obtain ⟨body, closer, after, rfl, hbody, hcloser⟩ := h
  refine ⟨c :: body, closer, after, ?_, ⟨hc, hbody⟩, hcloser⟩
  rw [lexemesAll, List.append_assoc]

/-- The byte position at which a block ends that is not closed: where the end of the text stands, or
after the last lexeme if the lexemes run out. -/
def cutOff (last : Nat) (passed : List Lexeme) : (rest : List Lexeme) → Nat
  | [] => (passed.getLast?.map Lexeme.stop).getD last
  | eof :: _ => eof.start

/-- Only the last lexeme counts for `cutOff`. -/
theorem cutOff_append (last : Nat) (front : List Lexeme) (l : Lexeme) (passed rest : List Lexeme) :
    cutOff last (front ++ l :: passed) rest = cutOff l.stop passed rest := by
  cases rest with
  | nil =>
    show ((front ++ l :: passed).getLast?.map Lexeme.stop).getD last = _
    rw [List.getLast?_append, List.getLast?_cons]
    cases hlast : passed.getLast? <;> simp [cutOff, hlast]
  | cons eof after => rfl

theorem exists_lexemes_eq_append_final (c : Component) :
    ∃ front, c.lexemes = front ++ [c.final] := by
  cases c with
  | token l => exact ⟨[], rfl⟩
  | block opener body closer => exact ⟨opener :: lexemesAll body, rfl⟩

/-- A block that is opened at the end of the text is left there by `afterBlock`. -/
theorem afterBlock_of_atEnd {bracket : Bracket} {rest : List Lexeme} (h : AtEnd rest) :
    (afterBlock bracket rest).1 = rest := by
  cases rest with
  | nil => rw [afterBlock]
  | cons l after =>
    have heof := h l after rfl
    rw [afterBlock, if_neg (by simp [heof]), if_pos heof]

/-- A block that is not closed takes everything up to the end of the text, and this is also where
measuring it ends, whatever blocks are open around it. -/
structure Unclosed (bracket : Bracket) (input : List Lexeme) (passed : List Lexeme) : Prop where
  /-- Reading passes over the lexemes up to the end. -/
  passes : input = passed ++ (afterBlock bracket input).1
  /-- There is nothing behind them. -/
  atEnd : AtEnd (afterBlock bracket input).1
  /-- Measuring ends there too. -/
  measures : ∀ last stack, blockEnd last (bracket :: stack) input =
    cutOff last passed (afterBlock bracket input).1

/-- A block that is opened at the end of the text is `Unclosed`. -/
theorem Unclosed.of_atEnd {bracket : Bracket} {input : List Lexeme} (h : AtEnd input) :
    Unclosed bracket input [] := by
  have hread : (afterBlock bracket input).1 = input := afterBlock_of_atEnd h
  refine ⟨?_, ?_, fun last stack => ?_⟩
  · rw [hread]
    rfl
  · rwa [hread]
  · rw [hread]
    cases input with
    | nil => rfl
    | cons l after =>
      rw [blockEnd, if_pos (h l after rfl)]
      rfl

/-- A block that is `Unclosed` inside of another one, which then is not closed either. -/
theorem Unclosed.block {bracket inner : Bracket} {l : Lexeme} {after passed : List Lexeme}
    (hopens : l.token.opens? = some inner) (h : Unclosed inner after passed) :
    Unclosed bracket (l :: after) (l :: passed) := by
  have hcloser : l.token ≠ .closer bracket := by
    intro heq
    simp [heq, Token.opens?] at hopens
  have heof : l.token ≠ .eof := by
    intro heq
    simp [heq, Token.opens?] at hopens
  have hread : (afterBlock bracket (l :: after)).1 = (afterBlock inner after).1 := by
    rw [afterBlock, if_neg hcloser, if_neg heof]
    simp only [hopens]
    exact afterBlock_of_atEnd h.atEnd
  refine ⟨?_, ?_, fun last stack => ?_⟩
  · rw [hread, List.cons_append, ← h.passes]
  · rw [hread]
    exact h.atEnd
  · rw [hread, blockEnd, if_neg heof, hopens]
    dsimp only
    rw [h.measures]
    exact (cutOff_append last [] l passed _).symm

/-- A complete component inside of a block that is `Unclosed`. -/
theorem Unclosed.component {bracket : Bracket} {c : Component} {rest passed : List Lexeme}
    (hc : c.Complete (some bracket)) (h : Unclosed bracket rest passed) :
    Unclosed bracket (c.lexemes ++ rest) (c.lexemes ++ passed) := by
  have hread := afterBlock_lexemes bracket rest c hc
  refine ⟨?_, ?_, fun last stack => ?_⟩
  · rw [hread, List.append_assoc, ← h.passes]
  · rw [hread]
    exact h.atEnd
  · obtain ⟨front, hfront⟩ := exists_lexemes_eq_append_final c
    rw [hread, blockEnd_lexemes bracket stack rest last c hc, h.measures, hfront,
      List.append_assoc]
    exact (cutOff_append last front c.final passed _).symm

/-- A block is closed, as `Closes` says, or it is `Unclosed` and goes on to the end of the text. -/
theorem closes_or_unclosed (bracket : Bracket) (input : List Lexeme) :
    Closes bracket input ∨ ∃ passed, Unclosed bracket input passed := by
  fun_induction afterBlock bracket input with
  | case1 bracket =>
    refine .inr ⟨[], .of_atEnd ?_⟩
    intro l after h
    cases h
  | case2 bracket l after hcloser =>
    exact .inl ⟨[], l, after, rfl, trivial, hcloser⟩
  | case3 bracket l after hcloser heof =>
    refine .inr ⟨[], .of_atEnd ?_⟩
    rintro l' after' ⟨⟩
    exact heof
  | case4 bracket l after hcloser heof hopens rest ih =>
    -- A closing bracket of another kind is an ordinary token here.
    have hc : (Component.token l).Complete (some bracket) := by
      refine ⟨heof, hopens, fun other hother => ?_⟩
      rcases hother with hother | hother
      · cases hother
      · obtain rfl := Option.some.inj hother
        exact hcloser
    rcases ih with h | ⟨passed, h⟩
    · exact .inl (h.cons hc)
    · exact .inr ⟨_, h.component hc⟩
  | case5 bracket l after hcloser heof inner hopens inside rest ih₁ ih₂ =>
    rcases ih₁ with ⟨body, closer, final, hafter, hbody, hclose⟩ | ⟨passed, h⟩
    · -- The block inside is closed, so the one around it goes on behind its closing bracket.
      have hc : (Component.block l body closer).Complete (some bracket) :=
        ⟨inner, hopens, hclose, hbody⟩
      have hinside : inside.1 = final := by
        show (afterBlock inner after).1 = final
        rw [hafter, afterBlock_lexemesAll inner _ body hbody, afterBlock, if_pos hclose]
      have hsplit : l :: after = (Component.block l body closer).lexemes ++ final := by
        rw [lexemes, hafter]
        simp
      rw [hsplit]
      rw [hinside] at ih₂
      rcases ih₂ with h | ⟨passed, h⟩
      · exact .inl (h.cons hc)
      · exact .inr ⟨_, h.component hc⟩
    · exact .inr ⟨l :: passed, h.block hopens⟩

/-! ## Component values -/

/-- `Extent first passed rest stop`: the component value that starts with `first` has the lexemes
`passed` behind it, `rest` is what follows, and it ends at the byte position `stop`. -/
inductive Extent (first : Lexeme) : (passed rest : List Lexeme) → (stop : Nat) → Prop
  /-- A token that opens no block is a value of its own. -/
  | token {rest} (heof : first.token ≠ .eof) (hopens : first.token.opens? = none) :
      Extent first [] rest first.stop
  /-- A closed block ends with the bracket that closes it. -/
  | closed {body closer rest} (hblock : (Component.block first body closer).Complete none) :
      Extent first (lexemesAll body ++ [closer]) rest closer.stop
  /-- A block that is not closed ends where the text ends. -/
  | endOfText {passed l after} (hopens : first.token.opens? ≠ none)
      (hopen : ¬ IsClosed first (passed ++ l :: after)) (hpassed : ∀ l ∈ passed, l.token ≠ .eof)
      (heof : l.token = .eof) : Extent first passed (l :: after) l.start
  /-- Without the end of the text it ends after the last lexeme. -/
  | runOut {passed} (hopens : first.token.opens? ≠ none) (hopen : ¬ IsClosed first passed)
      (hpassed : ∀ l ∈ passed, l.token ≠ .eof) :
      Extent first passed [] (passed.getLast?.getD first).stop

/-- The `Extent` of a token that opens no block ends where its text does. -/
theorem Extent.eq_stop_of_token {first : Lexeme} {passed rest : List Lexeme} {stop : Nat}
    (h : Extent first passed rest stop) (hopens : first.token.opens? = none) :
    stop = first.stop := by
  cases h with
  | token => rfl
  | closed hblock =>
    obtain ⟨_, hsome, -⟩ := hblock
    rw [hopens] at hsome
    cases hsome
  | endOfText hne => exact absurd hopens hne
  | runOut hne => exact absurd hopens hne

/-- A closed block is passed over by `afterComponent` up to its closing bracket, and measuring it
ends there. -/
theorem extent_stop_of_complete {first closer : Lexeme} {body : List Component}
    (hblock : (Component.block first body closer).Complete none) (rest : List Lexeme) :
    (afterComponent first (lexemesAll body ++ closer :: rest)).1 = rest ∧
      Extent first (lexemesAll body ++ [closer]) rest
        (Piece.stop ⟨first, lexemesAll body ++ closer :: rest⟩) := by
  -- What follows the opening bracket, as the lemmas about complete components have it.
  have htail : lexemesAll body ++ closer :: rest =
      (Component.block first body closer).lexemes.tail ++ rest := by
    simp [lexemes]
  have hread := afterComponent_lexemes hblock rest
  have hstop := stop_piece hblock rest
  rw [← htail] at hread hstop
  refine ⟨hread, ?_⟩
  rw [show Piece.stop ⟨first, lexemesAll body ++ closer :: rest⟩ = closer.stop from hstop]
  exact .closed hblock

theorem cutOff_nil (first : Lexeme) (passed : List Lexeme) :
    cutOff first.stop passed [] = (passed.getLast?.getD first).stop := by
  cases hlast : passed.getLast? <;> simp [cutOff, hlast]

/-- The `Extent` of a block that is not closed ends with the text. -/
theorem Unclosed.extent {first : Lexeme} {bracket : Bracket} {after passed : List Lexeme}
    (h : Unclosed bracket after passed) (hopens : first.token.opens? = some bracket)
    (hopen : ¬ IsClosed first after) :
    Extent first passed (afterBlock bracket after).1
      (cutOff first.stop passed (afterBlock bracket after).1) := by
  have hblock : first.token.opens? ≠ none := by simp [hopens]
  have hpassed : ∀ l ∈ passed, l.token ≠ .eof := by
    obtain ⟨passed', hpasses, hne⟩ := afterBlock_consumes bracket after
    rwa [← List.append_cancel_right (hpasses.symm.trans h.passes)]
  have hend := h.atEnd
  rw [h.passes] at hopen
  cases hrest : (afterBlock bracket after).1 with
  | nil =>
    rw [hrest, List.append_nil] at hopen
    rw [cutOff_nil]
    exact .runOut hblock hopen hpassed
  | cons l rest =>
    rw [hrest] at hopen
    exact .endOfText hblock hopen hpassed (hend l rest hrest)

/-- Reading a component value with `afterComponent` passes over its lexemes, and measuring it finds
its end. -/
theorem extent_stop {first : Lexeme} (heof : first.token ≠ .eof) (after : List Lexeme) :
    ∃ passed, after = passed ++ (afterComponent first after).1 ∧
      Extent first passed (afterComponent first after).1 (Piece.stop ⟨first, after⟩) := by
  cases hopens : first.token.opens? with
  | none =>
    refine ⟨[], ?_, ?_⟩ <;> simp only [afterComponent, Piece.stop, hopens]
    · rfl
    · exact .token heof hopens
  | some bracket =>
    by_cases hclosed : Closes bracket after
    · obtain ⟨body, closer, rest, rfl, hbody, hcloser⟩ := hclosed
      obtain ⟨hread, hextent⟩ := extent_stop_of_complete ⟨bracket, hopens, hcloser, hbody⟩ rest
      refine ⟨lexemesAll body ++ [closer], ?_, ?_⟩ <;> rw [hread]
      · rw [List.append_assoc, List.singleton_append]
      · exact hextent
    · obtain ⟨passed, h⟩ := (closes_or_unclosed bracket after).resolve_left hclosed
      have hread : (afterComponent first after).1 = (afterBlock bracket after).1 := by
        simp only [afterComponent, hopens]
      have hstop : Piece.stop ⟨first, after⟩ =
          cutOff first.stop passed (afterBlock bracket after).1 := by
        simp only [Piece.stop, hopens, h.measures]
      have hopen : ¬ IsClosed first after := by
        rintro ⟨bracket', hopens', hcloses⟩
        rw [hopens] at hopens'
        obtain rfl := Option.some.inj hopens'
        exact hclosed hcloses
      refine ⟨passed, by rw [hread, ← h.passes], ?_⟩
      rw [hread, hstop]
      exact h.extent hopens hopen

/-! ## Positions in a list of tokens -/

/-- The last lexeme of a component value stands in front of what follows the value. -/
theorem getElem?_of_drop {tokens : List Lexeme} {i : Nat} {first : Lexeme}
    {passed rest : List Lexeme} (h : tokens.drop i = first :: (passed ++ rest)) :
    tokens[i + passed.length]? = some (passed.getLast?.getD first) := by
  rw [← List.getElem?_drop, h, ← List.cons_append,
    List.getElem?_append_left (by simp)]
  have := List.getLast?_eq_getElem? (l := first :: passed)
  rw [List.length_cons, Nat.add_sub_cancel] at this
  rw [← this, List.getLast?_cons]

/-- Reading and measuring a component value agree, for any tokens and for any mixture of brackets.
If reading the value at position `i` goes on up to position `j`, then the value ends with the token
in front of `j` if it is a single token or a closed block. A block that is not closed goes on to the
end of the text and ends where that stands, and if the tokens run out, the value ends with the last
one. -/
theorem stop_eq_of_afterComponent {tokens : List Lexeme} {i : Nat} (hi : i < tokens.length)
    (heof : tokens[i].token ≠ .eof) :
    ∃ j, i < j ∧ j ≤ tokens.length ∧
      (afterComponent tokens[i] (tokens.drop (i + 1))).1 = tokens.drop j ∧
      (tokens[i].token.opens? = none ∨ IsClosed tokens[i] (tokens.drop (i + 1)) →
        ∃ last, tokens[j - 1]? = some last ∧
          Piece.stop ⟨tokens[i], tokens.drop (i + 1)⟩ = last.stop) ∧
      (tokens[i].token.opens? ≠ none → ¬ IsClosed tokens[i] (tokens.drop (i + 1)) →
        ∀ next, tokens[j]? = some next → next.token = .eof ∧
          Piece.stop ⟨tokens[i], tokens.drop (i + 1)⟩ = next.start) ∧
      (j = tokens.length → ∃ last, tokens.getLast? = some last ∧
        Piece.stop ⟨tokens[i], tokens.drop (i + 1)⟩ = last.stop) := by
  obtain ⟨passed, hafter, hextent⟩ := extent_stop heof (tokens.drop (i + 1))
  generalize hrest : (afterComponent tokens[i] (tokens.drop (i + 1))).1 = rest at hafter hextent
  generalize Piece.stop ⟨tokens[i], tokens.drop (i + 1)⟩ = stop at hextent ⊢
  have hdrop : tokens.drop i = tokens[i] :: (passed ++ rest) := by
    rw [List.drop_eq_getElem_cons hi, hafter]
  have hlength : tokens.length = i + 1 + passed.length + rest.length := by
    have := congrArg List.length hafter
    simp only [List.length_drop, List.length_append] at this
    omega
  have hstops : rest = tokens.drop (i + 1 + passed.length) := by
    rw [← List.drop_drop, hafter, List.drop_left]
  have hlast : tokens[i + 1 + passed.length - 1]? = some (passed.getLast?.getD tokens[i]) := by
    rw [show i + 1 + passed.length - 1 = i + passed.length by omega]
    exact getElem?_of_drop hdrop
  have hnext : tokens[i + 1 + passed.length]? = rest.head? := by
    rw [hstops, List.head?_drop]
  have hfinal : i + 1 + passed.length = tokens.length →
      tokens.getLast? = some (passed.getLast?.getD tokens[i]) := by
    intro heq
    rw [List.getLast?_eq_getElem?, ← heq, hlast]
  refine ⟨i + 1 + passed.length, by omega, by omega, hstops, ?_⟩
  rw [hlast, hnext]
  cases hextent with
  | token heof hopens =>
    exact ⟨fun _ => ⟨_, rfl, rfl⟩, fun h => absurd hopens h, fun h => ⟨_, hfinal h, rfl⟩⟩
  | @closed body closer _ hblock =>
    have hcloser : (lexemesAll body ++ [closer]).getLast?.getD tokens[i] = closer := by simp
    have hclosed : IsClosed tokens[i] (tokens.drop (i + 1)) := by
      obtain ⟨bracket, hopens, hcloser, hbody⟩ := hblock
      refine ⟨bracket, hopens, body, closer, rest, ?_, hbody, hcloser⟩
      rw [hafter, List.append_assoc, List.singleton_append]
    rw [hcloser] at hfinal ⊢
    exact ⟨fun _ => ⟨closer, rfl, rfl⟩, fun _ h => absurd hclosed h, fun h => ⟨_, hfinal h, rfl⟩⟩
  | endOfText hopens hopen _ heof =>
    rw [← hafter] at hopen
    refine ⟨fun h => absurd h (not_or.mpr ⟨hopens, hopen⟩), ?_, ?_⟩
    · rintro _ _ next hnext
      obtain rfl := Option.some.inj hnext
      exact ⟨heof, rfl⟩
    · -- The end of the text is still to come, so the tokens have not run out.
      intro h
      rw [List.length_cons] at hlength
      omega
  | runOut hopens hopen _ =>
    rw [← List.append_nil passed, ← hafter] at hopen
    refine ⟨fun h => absurd h (not_or.mpr ⟨hopens, hopen⟩), ?_, fun h => ⟨_, hfinal h, rfl⟩⟩
    rintro _ _ next hnext
    cases hnext

/-- The block `([)])` with a comment behind it. The parenthesis inside of the square brackets closes
nothing, and the value ends in front of the comment although the end of the text comes next. -/
theorem stop_eq_of_afterComponent_mismatched :
    ∃ tokens : List Lexeme, tokens = Lexeme.ofText "([)])/**/".toList ∧
      ∃ hi : 0 < tokens.length, tokens[0].token ≠ .eof ∧ IsClosed tokens[0] (tokens.drop 1) ∧
        ∃ j last, (afterComponent tokens[0] (tokens.drop 1)).1 = tokens.drop j ∧
          tokens[j - 1]? = some last ∧ Piece.stop ⟨tokens[0], tokens.drop 1⟩ = last.stop := by
  obtain ⟨tokens, htokens⟩ : ∃ tokens : List Lexeme, tokens =
      [⟨.opener .paren, [], ['('], 0⟩, ⟨.opener .square, [], ['['], 1⟩,
        ⟨.closer .paren, [], [')'], 2⟩, ⟨.closer .square, [], [']'], 3⟩,
        ⟨.closer .paren, [], [')'], 4⟩, ⟨.eof, ['/', '*', '*', '/'], [], 9⟩] := ⟨_, rfl⟩
  have htext : tokens = Lexeme.ofText "([)])/**/".toList := by
    rw [htokens]
    decide +kernel
  have hi : 0 < tokens.length := by simp [htokens]
  have heof : tokens[0].token ≠ .eof := by simp [htokens]
  have hclosed : IsClosed tokens[0] (tokens.drop 1) := by
    subst htokens
    refine ⟨.paren, rfl, [.block ⟨.opener .square, [], ['['], 1⟩
      [.token ⟨.closer .paren, [], [')'], 2⟩] ⟨.closer .square, [], [']'], 3⟩], _, _, rfl, ?_, rfl⟩
    refine ⟨⟨.square, rfl, rfl, ⟨by decide, rfl, ?_⟩, trivial⟩, trivial⟩
    rintro bracket (h | h) <;> cases h
    decide
  obtain ⟨j, -, -, hread, hends, -⟩ := stop_eq_of_afterComponent hi heof
  obtain ⟨last, hlast, hstop⟩ := hends (.inr hclosed)
  exact ⟨tokens, htext, hi, heof, hclosed, j, last, hread, hlast, hstop⟩

end ThemeColor.Sheet
