import ThemeColor.Color.Component
import ThemeColor.Expr.Fold

/-!
# Numbers in color expressions

A number is a sum of products of values. A value is a numeric token, a sum in parentheses or inside
`calc()`, or one of the functions `min()`, `max()` and `clamp()`. Any other function, and
parentheses around something that is no sum, stay verbatim.
-/

namespace ThemeColor

open Component

namespace Segment

/-- The arguments of a function: the parts between commas, none of them blank. A blank inside has
no arguments. -/
def arguments (inside : Segment) : Except ColorError (List Segment) :=
  let inside := inside.trim
  if inside.parts.isEmpty then .ok []
  else
    (splitOn (isToken .comma) inside.stop inside.parts).mapM fun piece =>
      if piece.trim.parts.isEmpty then .error (.malformed piece.start .emptyArgument)
      else .ok piece.trim

end Segment

namespace NumberGrammar

/-- The operator that a component writes. -/
def operator? (c : Component) : Option Operator :=
  match c.token? with
  | some (.delim '+') => some .add
  | some (.delim '-') => some .sub
  | some (.delim '*') => some .mul
  | some (.delim '/') => some .div
  | _ => none

/-- A first value and any number of operators, each with a value after it. -/
structure Chain where
  /-- The first value. -/
  first : Expr Float
  /-- The operators with their right operands. -/
  rest : List (Operator × Expr Float)

variable (value : Component → Except ColorError (Expr Float)) (stop : Nat)

mutual

/-- Reads a chain from its first value on; `stop` is the position after the components. -/
def readValue : List Component → Except ColorError Chain
  | [] => .error (.malformed stop .expectedNumber)
  | c :: rest =>
    if c.isWhitespace then readValue rest
    else do
      let first ← value c
      let rest ← readOperator rest
      pure ⟨first, rest⟩

/-- Reads the operators of a chain. A number with a written sign needs none: it is added. -/
def readOperator : List Component → Except ColorError (List (Operator × Expr Float))
  | [] => .ok []
  | c :: rest =>
    if c.isWhitespace then readOperator rest
    else
      match operator? c with
      | some op => do
        let chain ← readValue rest
        pure ((op, chain.first) :: chain.rest)
      | none =>
        if c.token?.any Token.isSignedNumber then do
          let operand ← value c
          let rest ← readOperator rest
          pure ((.add, operand) :: rest)
        else .error (c.unexpected .insideNumber)

end

/-- Multiplies and divides first: the first product of a chain and the operators with the products
after them. -/
def products (first : Expr Float) :
    List (Operator × Expr Float) → Expr Float × List (Operator × Expr Float)
  | [] => (first, [])
  | (.mul, e) :: rest => products (first.mul e) rest
  | (.div, e) :: rest => products (first.div e) rest
  | (op, e) :: rest =>
    let (product, more) := products e rest
    (first, (op, product) :: more)

/-- The value of a chain: a sum of products, from left to right. -/
def Chain.eval (chain : Chain) : Expr Float :=
  let (first, rest) := products chain.first chain.rest
  rest.foldl (fun sum (op, product) => Expr.combine op sum product) first

/-- Reads a number, given how to read one value. -/
def operand (segment : Segment) : Except ColorError (Expr Float) :=
  let segment := segment.trim
  if segment.parts.isEmpty then .error (.malformed segment.stop .expectedNumber)
  else (readValue value segment.stop segment.parts).map Chain.eval

/-- Reads a function of arithmetic, given how to read one value of its arguments. -/
def mathFunction (opener : Lexeme) (name : String) (function : MathFunction) (inside : Segment) :
    Except ColorError (Expr Float) := do
  let args ← inside.arguments
  match function with
  | .clamp =>
    match args with
    | [low, middle, high] =>
      let low ← operand value low
      let middle ← operand value middle
      let high ← operand value high
      pure (.clamp low middle high)
    | _ => throw (.malformed opener.start (.argumentCount name 3 args.length))
  | .min | .max =>
    if args.isEmpty then throw (.malformed opener.start (.needsArgument name))
    let operands ← args.mapM (operand value)
    pure (.apply function operands)

/-- The value of a numeric token. -/
def tokenValue? : Token → Option (Expr Float)
  | .number n => some (.number n.toFloat)
  | .percentage n => some (.percent n.toFloat)
  | .dimension n unit => some (.quantity ⟨n.toFloat, unit⟩)
  | _ => none

/-- Reads one value of a number that may nest `levels` levels. -/
def readComponent : (levels : Nat) → Component → Except ColorError (Expr Float)
  | 0, _ => .error .tooDeep
  | levels + 1, c =>
    match c with
    | .token lexeme =>
      match tokenValue? lexeme.token with
      | some e => .ok e
      | none => .error (c.unexpected .insideNumber)
    | .block opener body closer =>
      let inside : Segment := ⟨body, closer.start⟩
      match opener.token with
      | .opener .paren =>
        match operand (readComponent levels) inside with
        | .ok e => .ok e
        | .error (.malformed _ _) => .ok (.verbatim (textAll [c]))
        | .error e => .error e
      | .function name =>
        if Text.sameIgnoringCase name "calc" then operand (readComponent levels) inside
        else
          match MathFunction.ofName? name with
          | some function => mathFunction (readComponent levels) opener name function inside
          | none => .ok (.verbatim (textAll [c]))
      | _ => .error (c.unexpected .insideNumber)

end NumberGrammar

/-- Reads a number that may nest `levels` levels. -/
def Segment.number (levels : Nat) (segment : Segment) : Except ColorError (Expr Float) :=
  NumberGrammar.operand (NumberGrammar.readComponent levels) segment

end ThemeColor
