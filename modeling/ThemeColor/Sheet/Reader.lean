import ThemeColor.Sheet.Parse

/-!
# Reading on

A reader holds lexemes and the number of those that were passed over. Each call reads on from there:
rules up to the end of the text, or declarations up to a closing brace or the end of the text.
-/

namespace ThemeColor.Sheet

/-- What a reader is asked to read. -/
inductive Call where
  /-- Rules. -/
  | rules
  /-- Declarations. -/
  | declarations
  deriving DecidableEq, Repr

/-- What a reader has read. -/
inductive Found where
  /-- Rules. -/
  | rules (rules : List Rule)
  /-- Declarations. -/
  | declarations (declarations : List Declaration)
  deriving Repr

/-- Some lexemes that are read in one call after another. -/
structure Reader where
  /-- All lexemes. -/
  lexemes : List Lexeme
  /-- The number of lexemes that were passed over. -/
  position : Nat
  /-- There are no more lexemes to pass over than there are. -/
  position_le : position ≤ lexemes.length
  deriving Repr

namespace Reader

theorem start_le (lexemes : List Lexeme) : 0 ≤ lexemes.length := Nat.zero_le _

/-- A reader that has read nothing yet. -/
def ofLexemes (lexemes : List Lexeme) : Reader := ⟨lexemes, 0, start_le lexemes⟩

/-- The lexemes that are left. -/
def pending (r : Reader) : List Lexeme := r.lexemes.drop r.position

/-- The reader when as many lexemes are left as in `rest`. -/
def moveTo (r : Reader) (rest : List Lexeme) : Reader :=
  ⟨r.lexemes, r.lexemes.length - rest.length, Nat.sub_le _ _⟩

/-- Reads on. -/
def call (r : Reader) : Call → Found × Reader
  | .rules =>
    let (rules, rest) := Sheet.rules true r.pending
    (.rules rules, r.moveTo rest.1)
  | .declarations =>
    let (declarations, rest) := Sheet.declarations r.pending
    (.declarations declarations, r.moveTo rest.1)

/-- Reads on in one call after another. -/
def run (r : Reader) : List Call → List Found × Reader
  | [] => ([], r)
  | c :: calls =>
    let (found, next) := r.call c
    let (more, last) := next.run calls
    (found :: more, last)

end Reader

end ThemeColor.Sheet
