import ThemeColor.Color.Component
import ThemeColor.Sheet.Component

/-!
# Runs of complete component values

A component is complete if each of its blocks is closed. The readers of a style sheet keep no
components, only lexemes, and find the end of a block by counting brackets. On the lexemes of
complete components they see the components as they are: each is passed over as a whole
(`pieces_lexemesAll`), and it ends where its last lexeme does (`stop_piece`).
-/

namespace ThemeColor.Component

mutual

/-- The component is complete, where `around` is the bracket that is open around it: a token that is
no bracket, or a block up to the bracket that closes it. Inside of a block a closing bracket of
another kind is an ordinary token. -/
def Complete (around : Option Bracket) : Component → Prop
  | .token l => l.token ≠ .eof ∧ l.token.opens? = none ∧
      ∀ bracket, around = none ∨ around = some bracket → l.token ≠ .closer bracket
  | .block opener body closer => ∃ bracket, opener.token.opens? = some bracket ∧
      closer.token = .closer bracket ∧ CompleteAll (some bracket) body

/-- All of the components are complete. -/
def CompleteAll (around : Option Bracket) : List Component → Prop
  | [] => True
  | c :: cs => Complete around c ∧ CompleteAll around cs

end

/-- The last lexeme. -/
def final : Component → Lexeme
  | .token l => l
  | .block _ _ closer => closer

theorem complete_of_mem {around : Option Bracket} {cs : List Component}
    (h : CompleteAll around cs) {c : Component} (hc : c ∈ cs) : c.Complete around := by
  induction cs with
  | nil => cases hc
  | cons c' cs ih =>
    rcases List.mem_cons.mp hc with rfl | hc
    · exact h.1
    · exact ih h.2 hc

/-- No complete component starts with a closing bracket outside of all blocks. -/
theorem Complete.first_ne_closer {c : Component} (h : c.Complete none) (bracket : Bracket) :
    c.first.token ≠ .closer bracket := by
  cases c with
  | token l => exact h.2.2 bracket (.inl rfl)
  | block opener body closer =>
    obtain ⟨_, hopens, -⟩ := h
    intro heq
    simp [show opener.token = _ from heq, Token.opens?] at hopens

theorem Complete.first_ne_eof {around : Option Bracket} {c : Component} (h : c.Complete around) :
    c.first.token ≠ .eof := by
  cases c with
  | token l => exact h.1
  | block opener body closer =>
    obtain ⟨_, hopens, -⟩ := h
    intro heq
    simp [show opener.token = _ from heq, Token.opens?] at hopens

end ThemeColor.Component

namespace ThemeColor.Sheet

open Component

/-! ## The end of a block -/

mutual

/-- Passing over the inside of a block passes over a complete component in it. -/
theorem afterBlock_lexemes (bracket : Bracket) (rest : List Lexeme) : (c : Component) →
    c.Complete (some bracket) →
      (afterBlock bracket (c.lexemes ++ rest)).1 = (afterBlock bracket rest).1
  | .token l, ⟨heof, hopens, hcloser⟩ => by
    rw [lexemes, List.singleton_append, afterBlock, if_neg (hcloser bracket (.inr rfl)),
      if_neg heof]
    simp [hopens]
  | .block opener body closer, ⟨inner, hopens, hcloser, hbody⟩ => by
    -- What opens a block neither closes the one around it nor ends the text.
    have hne : opener.token ≠ .closer bracket := by
      intro heq
      simp [heq, Token.opens?] at hopens
    have heof : opener.token ≠ .eof := by
      intro heq
      simp [heq, Token.opens?] at hopens
    -- The inner block ends at its own closing bracket; the outer one goes on behind it.
    have hinside : (afterBlock inner (lexemesAll body ++ closer :: rest)).1 = rest := by
      rw [afterBlock_lexemesAll inner (closer :: rest) body hbody, afterBlock, if_pos hcloser]
    rw [lexemes, List.cons_append, List.append_assoc, List.singleton_append, afterBlock,
      if_neg hne, if_neg heof]
    simp only [hopens]
    rw [hinside]

theorem afterBlock_lexemesAll (bracket : Bracket) (rest : List Lexeme) : (cs : List Component) →
    CompleteAll (some bracket) cs →
      (afterBlock bracket (lexemesAll cs ++ rest)).1 = (afterBlock bracket rest).1
  | [], _ => by rw [lexemesAll, List.nil_append]
  | c :: cs, ⟨hc, hcs⟩ => by
    rw [lexemesAll, List.append_assoc, afterBlock_lexemes bracket _ c hc,
      afterBlock_lexemesAll bracket rest cs hcs]

end

mutual

/-- Measuring a block passes over a complete component in it. -/
theorem blockEnd_lexemes (bracket : Bracket) (stack : List Bracket) (rest : List Lexeme)
    (last : Nat) : (c : Component) → c.Complete (some bracket) →
      blockEnd last (bracket :: stack) (c.lexemes ++ rest) =
        blockEnd c.final.stop (bracket :: stack) rest
  | .token l, ⟨heof, hopens, hcloser⟩ => by
    rw [lexemes, List.singleton_append, blockEnd, if_neg heof, hopens]
    dsimp only
    rw [if_neg (hcloser bracket (.inr rfl)), final]
  | .block opener body closer, ⟨inner, hopens, hcloser, hbody⟩ => by
    have heof : opener.token ≠ .eof := by
      intro heq
      simp [heq, Token.opens?] at hopens
    rw [lexemes, List.cons_append, List.append_assoc, List.singleton_append, blockEnd,
      if_neg heof, hopens]
    dsimp only
    -- Where the body starts does not matter for where its closing bracket is found.
    obtain ⟨last', hlast⟩ :=
      blockEnd_lexemesAll inner (bracket :: stack) (closer :: rest) opener.stop body hbody
    rw [hlast, blockEnd, hcloser]
    simp [Token.opens?, final]

theorem blockEnd_lexemesAll (bracket : Bracket) (stack : List Bracket) (rest : List Lexeme)
    (last : Nat) : (cs : List Component) → CompleteAll (some bracket) cs →
      ∃ last', blockEnd last (bracket :: stack) (lexemesAll cs ++ rest) =
        blockEnd last' (bracket :: stack) rest
  | [], _ => ⟨last, by rw [lexemesAll, List.nil_append]⟩
  | c :: cs, ⟨hc, hcs⟩ => by
    rw [lexemesAll, List.append_assoc, blockEnd_lexemes bracket stack _ last c hc]
    exact blockEnd_lexemesAll bracket stack rest c.final.stop cs hcs

end

/-! ## Single components -/

variable {around : Option Bracket} {c : Component}

/-- A complete component is passed over as a whole. -/
theorem afterComponent_lexemes (h : c.Complete around) (rest : List Lexeme) :
    (afterComponent c.first (c.lexemes.tail ++ rest)).1 = rest := by
  unfold afterComponent
  cases c with
  | token l => simp [first, lexemes, h.2.1]
  | block opener body closer =>
    obtain ⟨bracket, hopens, hcloser, hbody⟩ := h
    simp only [first, lexemes, hopens, List.tail_cons]
    rw [List.append_assoc, List.singleton_append, afterBlock_lexemesAll bracket _ body hbody,
      afterBlock, if_pos hcloser]

/-- A complete component ends where its last lexeme does. -/
theorem stop_piece (h : c.Complete around) (rest : List Lexeme) :
    Piece.stop ⟨c.first, c.lexemes.tail ++ rest⟩ = c.final.stop := by
  unfold Piece.stop
  cases c with
  | token l => simp [first, final, h.2.1]
  | block opener body closer =>
    obtain ⟨bracket, hopens, hcloser, hbody⟩ := h
    obtain ⟨last, hlast⟩ := blockEnd_lexemesAll bracket [] (closer :: rest) opener.stop body hbody
    simp only [first, final, lexemes, hopens, List.tail_cons, List.append_assoc,
      List.singleton_append, hlast]
    rw [blockEnd, hcloser]
    simp [Token.opens?]

/-! ## Runs of components -/

/-- The components as the readers see them, in front of `rest`. -/
def piecesOf : List Component → (rest : List Lexeme) → List Piece
  | [], _ => []
  | c :: cs, rest => ⟨c.first, c.lexemes.tail ++ (lexemesAll cs ++ rest)⟩ :: piecesOf cs rest

theorem pieces_cons {stop : Token → Bool} {l : Lexeme} (h : stop l.token = false)
    (after : List Lexeme) :
    (pieces stop (l :: after)).1 = ⟨l, after⟩ :: (pieces stop (afterComponent l after).1).1 ∧
      (pieces stop (l :: after)).2.1 = (pieces stop (afterComponent l after).1).2.1 := by
  rw [pieces, if_neg (by simp [h])]
  exact ⟨rfl, rfl⟩

/-- Complete components in front of a token that ends them are split off as they are. -/
theorem pieces_lexemesAll {stop : Token → Bool} {cs : List Component} {l : Lexeme}
    (hcs : CompleteAll around cs) (hgoesOn : ∀ c ∈ cs, stop c.first.token = false)
    (hl : stop l.token) (after : List Lexeme) :
    (pieces stop (lexemesAll cs ++ l :: after)).1 = piecesOf cs (l :: after) ∧
      (pieces stop (lexemesAll cs ++ l :: after)).2.1 = l :: after := by
  induction cs with
  | nil =>
    rw [lexemesAll, List.nil_append, pieces, if_pos hl]
    exact ⟨rfl, rfl⟩
  | cons c cs ih =>
    obtain ⟨hc, hcs⟩ := hcs
    obtain ⟨hfirst, hgoesOn⟩ := List.forall_mem_cons.mp hgoesOn
    obtain ⟨ihPieces, ihRest⟩ := ih hcs hgoesOn
    -- The first piece is the whole component, so the next one starts behind it.
    obtain ⟨hpieces, hrest⟩ := pieces_cons hfirst (c.lexemes.tail ++ (lexemesAll cs ++ l :: after))
    rw [afterComponent_lexemes hc] at hpieces hrest
    rw [lexemesAll, List.append_assoc, lexemes_eq_cons, List.cons_append, hpieces, hrest, piecesOf,
      ihPieces]
    exact ⟨rfl, ihRest⟩

/-- Complete components in front of a token that ends them are passed over. -/
theorem skip_lexemesAll {stop : Token → Bool} {cs : List Component} {l : Lexeme}
    (hcs : CompleteAll around cs) (hgoesOn : ∀ c ∈ cs, stop c.first.token = false)
    (hl : stop l.token) (after : List Lexeme) :
    (skip stop (lexemesAll cs ++ l :: after)).1 = l :: after :=
  (pieces_lexemesAll hcs hgoesOn hl after).2

end ThemeColor.Sheet
