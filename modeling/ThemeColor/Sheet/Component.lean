import ThemeColor.Token.Lexeme

/-!
# Component values of a style sheet

A component value is a single token, or a whole block from an opening bracket to the bracket that
closes it. Brackets need not match here: a closing bracket of another kind is an ordinary token, and
the end of the text closes every block.
-/

namespace ThemeColor

/-- What is left of some lexemes. -/
abbrev Rest (input : List Lexeme) := { rest : List Lexeme // rest.length ≤ input.length }

/-- Nothing has been passed over. -/
abbrev Rest.all (input : List Lexeme) : Rest input := ⟨input, Nat.le_refl _⟩

/-- The first lexeme has been passed over. -/
abbrev Rest.tail (l : Lexeme) (after : List Lexeme) : Rest (l :: after) := ⟨after, Nat.le_succ _⟩

namespace Sheet

/-- Passes over the inside of a block and its closing bracket. -/
def afterBlock (bracket : Bracket) (input : List Lexeme) : Rest input :=
  match input with
  | [] => .all []
  | l :: after =>
    if l.token = .closer bracket then .tail l after
    else if l.token = .eof then .all (l :: after)
    else
      match l.token.opens? with
      | none =>
        let rest := afterBlock bracket after
        ⟨rest.1, Nat.le_succ_of_le rest.2⟩
      | some inner =>
        let inside := afterBlock inner after
        let rest := afterBlock bracket inside.1
        ⟨rest.1, Nat.le_succ_of_le (Nat.le_trans rest.2 inside.2)⟩
termination_by input.length
decreasing_by
  · simp
  · simp
  · exact Nat.lt_succ_of_le inside.2

/-- Passes over the component value that starts with a lexeme; `after` are the lexemes after it. -/
def afterComponent (first : Lexeme) (after : List Lexeme) : Rest after :=
  match first.token.opens? with
  | none => .all after
  | some bracket => afterBlock bracket after

/-- A component value: its first lexeme and all lexemes after that one. -/
structure Piece where
  /-- The first lexeme. -/
  first : Lexeme
  /-- The lexemes after it. -/
  after : List Lexeme
  deriving Repr

/-- Splits off component values up to a token that satisfies `stop`. -/
def pieces (stop : Token → Bool) (input : List Lexeme) : List Piece × Rest input :=
  match input with
  | [] => ([], .all [])
  | l :: after =>
    if stop l.token then ([], .all (l :: after))
    else
      let rest := afterComponent l after
      let (more, last) := pieces stop rest.1
      (⟨l, after⟩ :: more, ⟨last.1, Nat.le_succ_of_le (Nat.le_trans last.2 rest.2)⟩)
termination_by input.length
decreasing_by
  exact Nat.lt_succ_of_le rest.2

/-- Passes over component values up to a token that satisfies `stop`. -/
def skip (stop : Token → Bool) (input : List Lexeme) : Rest input := (pieces stop input).2

/-- The byte position after a block, found by keeping the open brackets on a stack. `last` is the
position after the token before. -/
def blockEnd (last : Nat) (stack : List Bracket) : List Lexeme → Nat
  | [] => last
  | l :: rest =>
    if l.token = .eof then l.start
    else
      match l.token.opens? with
      | some bracket => blockEnd l.stop (bracket :: stack) rest
      | none =>
        match stack with
        | [] => last
        | top :: below =>
          if l.token = .closer top then
            if below.isEmpty then l.stop else blockEnd l.stop below rest
          else blockEnd l.stop (top :: below) rest

/-- The byte position after the component value. -/
def Piece.stop (p : Piece) : Nat :=
  match p.first.token.opens? with
  | none => p.first.stop
  | some bracket => blockEnd p.first.stop [bracket] p.after

end Sheet

end ThemeColor
