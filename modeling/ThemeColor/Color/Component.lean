import ThemeColor.Token.Lexeme
import ThemeColor.Color.Error
import ThemeColor.Text.Blank

/-!
# Component values

Tokens with their brackets matched: a component is a single token or a whole block from an opening
bracket, or a function, to its closing bracket. `Component.forest` matches all brackets of a list of
lexemes and `Component.closeBlock` those of one block. Both refuse blocks that nest too deep and
quoted texts without a closing quote.
-/

namespace ThemeColor

open Text

/-- A token or a block. -/
inductive Component where
  /-- A token that is no bracket. -/
  | token (lexeme : Lexeme)
  /-- A block with its inside. -/
  | block (opener : Lexeme) (body : List Component) (closer : Lexeme)
  deriving Repr

namespace Component

/-- The first lexeme. -/
def first : Component → Lexeme
  | .token lexeme => lexeme
  | .block opener _ _ => opener

/-- The byte position of the first character. -/
def start (c : Component) : Nat := c.first.start

mutual

/-- The lexemes of the component. -/
def lexemes : Component → List Lexeme
  | .token lexeme => [lexeme]
  | .block opener body closer => opener :: (lexemesAll body ++ [closer])

/-- The lexemes of some neighbouring components. -/
def lexemesAll : List Component → List Lexeme
  | [] => []
  | c :: cs => lexemes c ++ lexemesAll cs

end

theorem lexemes_eq_cons (c : Component) : c.lexemes = c.first :: c.lexemes.tail := by
  cases c <;> rfl

/-- The text of some neighbouring components, with the comments between them. -/
def textAll (cs : List Component) : String := String.ofList (Lexeme.join (lexemesAll cs))

/-- The token, if the component is a single one. -/
def token? : Component → Option Token
  | .token lexeme => some lexeme.token
  | .block _ _ _ => none

/-- Whether the component is a run of blank characters. -/
def isWhitespace (c : Component) : Bool := c.token?.any Token.isWhitespace

/-- Whether the component is the given token. -/
def isToken (t : Token) (c : Component) : Bool := c.token? == some t

/-- The error of a lexeme that is out of place. -/
def unexpectedLexeme (l : Lexeme) (place : Place) : ColorError :=
  .malformed l.start (.unexpected (String.ofList l.text) place)

/-- The error of a component that is out of place; it shows the first lexeme only. -/
def unexpected (c : Component) (place : Place) : ColorError := unexpectedLexeme c.first place

/-- Whether a quoted text ends with its own quote, which no backslash escapes. -/
def endsWithQuote : List Char → Bool
  | [] => false
  | quote :: rest =>
    rest.getLast? = some quote &&
      (rest.dropLast.reverse.takeWhile (· = '\\')).length % 2 = 0

/-- Whether the lexeme is no quoted text that lacks its closing quote. -/
def isTerminated (l : Lexeme) : Bool :=
  match l.token with
  | .badString => false
  | .string _ => endsWithQuote l.text
  | _ => true

/-- A block whose closing bracket is still to come. -/
structure Frame where
  /-- The function or opening bracket. -/
  opener : Lexeme
  /-- The bracket that closes it. -/
  bracket : Bracket
  /-- The components read so far, the last one first. -/
  parts : List Component

/-- Reads on until the block of `outer` is closed. The innermost open block is `top`, and `below`
are the blocks around it. -/
def closeBlock (outer : Lexeme) (top : Frame) (below : List Frame) :
    List Lexeme → Except ColorError (Component × List Lexeme)
  | [] => .error (.malformed outer.start (.unclosed (String.ofList outer.text)))
  | l :: rest =>
    match l.token.opens?, l.token.closes? with
    | some bracket, _ =>
      if nestingLimit ≤ below.length + 1 then .error .tooDeep
      else closeBlock outer ⟨l, bracket, []⟩ (top :: below) rest
    | none, some bracket =>
      if bracket = top.bracket then
        let block := Component.block top.opener top.parts.reverse l
        match below with
        | [] => .ok (block, rest)
        | next :: below => closeBlock outer { next with parts := block :: next.parts } below rest
      else .error (unexpectedLexeme l .insideBlock)
    | none, none =>
      if isTerminated l then
        closeBlock outer { top with parts := .token l :: top.parts } below rest
      else .error (.malformed l.start .unterminatedString)

/-- Reads the block that a function or opening bracket starts. -/
def readBlock (opener : Lexeme) (bracket : Bracket) (rest : List Lexeme) :
    Except ColorError (Component × List Lexeme) :=
  closeBlock opener ⟨opener, bracket, []⟩ [] rest

theorem length_of_closeBlock {outer : Lexeme} {top : Frame} {below : List Frame}
    {input : List Lexeme} {c : Component} {after : List Lexeme}
    (h : closeBlock outer top below input = .ok (c, after)) : after.length < input.length := by
  induction input generalizing top below with
  | nil => simp [closeBlock] at h
  | cons l rest ih =>
    rw [closeBlock] at h
    split at h
    · split at h
      · cases h
      · have := ih h
        simp only [List.length_cons]; omega
    · split at h
      · dsimp only at h
        split at h
        · cases h; simp
        · have := ih h
          simp only [List.length_cons]; omega
      · cases h
    · split at h
      · have := ih h
        simp only [List.length_cons]; omega
      · cases h

theorem length_of_readBlock {opener : Lexeme} {bracket : Bracket} {input : List Lexeme}
    {c : Component}
    {after : List Lexeme} (h : readBlock opener bracket input = .ok (c, after)) :
    after.length < input.length :=
  length_of_closeBlock h

/-- Matches all brackets. -/
def forest (input : List Lexeme) : Except ColorError (List Component) :=
  match input with
  | [] => .ok []
  | l :: rest =>
    match l.token.opens?, l.token.closes? with
    | some bracket, _ =>
      match _h : readBlock l bracket rest with
      | .ok (c, after) => (forest after).map (c :: ·)
      | .error e => .error e
    | none, some _ => .error (unexpectedLexeme l .outsideBlocks)
    | none, none =>
      if isTerminated l then (forest rest).map (.token l :: ·)
      else .error (.malformed l.start .unterminatedString)
termination_by input.length
decreasing_by
  · have := length_of_readBlock _h
    simp only [List.length_cons]; omega
  · simp

end Component

/-- Some neighbouring components and the byte position of what follows them. -/
structure Segment where
  /-- The components. -/
  parts : List Component
  /-- The byte position of the token after them. -/
  stop : Nat
  deriving Repr

namespace Segment

/-- The byte position of the first component, or of what follows if there is none. -/
def start (s : Segment) : Nat := (s.parts.head?.map Component.start).getD s.stop

/-- The text of the components, with the comments between them. -/
def text (s : Segment) : String := Component.textAll s.parts

/-- The first components as a segment, followed by the others. -/
def before (parts after : List Component) (stop : Nat) : Segment :=
  ⟨parts, (after.head?.map Component.start).getD stop⟩

/-- The segment without blank tokens at both ends. -/
def trim (s : Segment) : Segment :=
  let parts := s.parts.dropWhile Component.isWhitespace
  let kept := dropEndWhile Component.isWhitespace parts
  before kept (parts.drop kept.length) s.stop

/-- The parts of a segment between the components that satisfy `p`. -/
def splitOn (p : Component → Bool) (stop : Nat) : List Component → List Segment
  | [] => [⟨[], stop⟩]
  | c :: rest =>
    if p c then ⟨[], c.start⟩ :: splitOn p stop rest
    else
      match splitOn p stop rest with
      | [] => [⟨[c], stop⟩]
      | s :: more => { s with parts := c :: s.parts } :: more

/-- The parts of a segment between blank tokens, empty ones left out. -/
def words (s : Segment) : List Segment :=
  (splitOn Component.isWhitespace s.stop s.parts).filter fun piece => !piece.parts.isEmpty

end Segment

end ThemeColor
