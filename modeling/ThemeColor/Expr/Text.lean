import ThemeColor.Expr.Basic
import ThemeColor.Number.Format

/-!
# Text of expressions

An expression is written the way style sheets do: operators bind as usual, with parentheses only
where they are needed, and arithmetic stands inside `calc()`.
-/

namespace ThemeColor

/-- The quantity in a style sheet. Values that are no finite number are written by name inside
`calc()`. -/
def Quantity.text (q : Quantity Float) : String :=
  if q.value.isFinite then Number.compact q.value ++ q.unit
  else
    let constant :=
      if q.value.isNaN then "NaN" else if 0.0 < q.value then "infinity" else "-infinity"
    if q.unit = "" then "calc(" ++ constant ++ ")" else "calc(" ++ constant ++ "*1" ++ q.unit ++ ")"

namespace Operator

/-- How tightly the operator binds. -/
def precedence : Operator → Nat
  | .add | .sub => 1
  | .mul | .div => 2

/-- The operator between its operands. Blanks around `+` and `-` are required. -/
def symbol : Operator → String
  | .add => " + "
  | .sub => " - "
  | .mul => "*"
  | .div => "/"

/-- Whether the right operand must bind more tightly than the operator itself. -/
def isDirected : Operator → Bool
  | .sub | .div => true
  | .add | .mul => false

end Operator

namespace Expr

/-- How tightly the outermost node binds; leaves and calls bind most tightly. -/
def precedence {α : Type} : Expr α → Nat
  | .binary op _ _ => op.precedence
  | _ => 3

/-- The text in parentheses if `wrap` says so. -/
def parenthesized (wrap : Bool) (text : String) : String :=
  if wrap then "(" ++ text ++ ")" else text

/-- Whether the left operand of an operator needs parentheses. -/
def wrapsLeft {α : Type} (op : Operator) (lhs : Expr α) : Bool :=
  lhs.precedence < op.precedence

/-- Whether the right operand of an operator needs parentheses. -/
def wrapsRight {α : Type} (op : Operator) (rhs : Expr α) : Bool :=
  rhs.precedence < op.precedence || (rhs.precedence == op.precedence && op.isDirected)

mutual

/-- The expression as it stands inside `calc()`. -/
def innerText : Expr Float → String
  | .quantity q => q.text
  | .verbatim text => text
  | .binary op lhs rhs =>
    parenthesized (wrapsLeft op lhs) (innerText lhs) ++ op.symbol ++
      parenthesized (wrapsRight op rhs) (innerText rhs)
  | .call function args => function.name ++ "(" ++ argumentsText args ++ ")"

/-- The arguments of a function, separated by commas. -/
def argumentsText : List (Expr Float) → String
  | [] => ""
  | [e] => innerText e
  | e :: es => innerText e ++ ", " ++ argumentsText es

end

/-- The expression in a style sheet. -/
def text (e : Expr Float) : String :=
  match e with
  | .binary _ _ _ => "calc(" ++ innerText e ++ ")"
  | _ => innerText e

end Expr

end ThemeColor
