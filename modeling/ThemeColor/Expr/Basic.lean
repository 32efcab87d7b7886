import ThemeColor.Number.Scalar
import ThemeColor.Text.Casing

/-!
# Arithmetic expressions

The numeric fields of a color are expressions. A field that is known is a quantity; text whose value
only the reader of the style sheet knows, such as a reference to a custom property, stays verbatim,
and arithmetic over it is a tree.
-/

namespace ThemeColor

/-- A number with a unit, which is empty for a plain number. -/
structure Quantity (α : Type) where
  /-- The number. -/
  value : α
  /-- The unit: empty, `%`, `deg` and so on. -/
  unit : String
  deriving DecidableEq, Repr

/-- Whether the quantity is a plain number. -/
def Quantity.isUnitless {α : Type} (q : Quantity α) : Bool := q.unit == ""

/-- The four operators of arithmetic. -/
inductive Operator where
  /-- Addition. -/
  | add
  /-- Subtraction. -/
  | sub
  /-- Multiplication. -/
  | mul
  /-- Division. -/
  | div
  deriving DecidableEq, Repr

/-- The functions of arithmetic. -/
inductive MathFunction where
  /-- The least argument. -/
  | min
  /-- The greatest argument. -/
  | max
  /-- The second argument moved between the first and the third. -/
  | clamp
  deriving DecidableEq, Repr

namespace MathFunction

/-- The name of the function. -/
def name : MathFunction → String
  | .min => "min"
  | .max => "max"
  | .clamp => "clamp"

/-- The function with a name, in any case of the letters. -/
def ofName? (name : String) : Option MathFunction :=
  match Text.asciiLower name with
  | "min" => some .min
  | "max" => some .max
  | "clamp" => some .clamp
  | _ => none

end MathFunction

/-- An expression over scalars of type `α`. -/
inductive Expr (α : Type) where
  /-- A known value. -/
  | quantity (q : Quantity α)
  /-- Text of a style sheet whose value is not known here. -/
  | verbatim (text : String)
  /-- Two expressions joined by an operator. -/
  | binary (op : Operator) (lhs rhs : Expr α)
  /-- A function applied to arguments. -/
  | call (function : MathFunction) (args : List (Expr α))
  deriving Repr

namespace Expr

variable {α : Type}

/-- A plain number. -/
def number (value : α) : Expr α := .quantity ⟨value, ""⟩

/-- A percentage. -/
def percent (value : α) : Expr α := .quantity ⟨value, "%"⟩

/-- A reference to a custom property. -/
def var (property : String) : Expr α := .verbatim ("var(" ++ property ++ ")")

/-- The known value, if the expression is one. -/
def quantity? : Expr α → Option (Quantity α)
  | .quantity q => some q
  | _ => none

/-- The value of a plain number. -/
def number? (e : Expr α) : Option α :=
  (e.quantity?.filter Quantity.isUnitless).map Quantity.value

/-- Whether the expression is a known value. -/
def isLiteral (e : Expr α) : Bool := e.quantity?.isSome

mutual

/-- The number of nodes of the tree. -/
def nodeCount : Expr α → Nat
  | .quantity _ => 1
  | .verbatim _ => 1
  | .binary _ lhs rhs => 1 + nodeCount lhs + nodeCount rhs
  | .call _ args => 1 + nodeCountAll args

/-- The number of nodes of some trees. -/
def nodeCountAll : List (Expr α) → Nat
  | [] => 0
  | e :: es => nodeCount e + nodeCountAll es

end

/-- The unit of a product of operands with the given units, as far as it is known. -/
def productUnit? : (lhs rhs : Option String) → Option String
  | some "", rhs => rhs
  | lhs, some "" => lhs
  | _, _ => none

/-- The unit of a quotient of operands with the given units, as far as it is known. -/
def quotientUnit? : (lhs rhs : Option String) → Option String
  | lhs, some "" => lhs
  | _, _ => none

mutual

/-- The unit of the value, as far as it is known without the value. -/
def unit? : Expr α → Option String
  | .quantity q => some q.unit
  | .verbatim _ => none
  | .binary .add lhs rhs | .binary .sub lhs rhs => (unit? lhs).or (unit? rhs)
  | .binary .mul lhs rhs => productUnit? (unit? lhs) (unit? rhs)
  | .binary .div lhs rhs => quotientUnit? (unit? lhs) (unit? rhs)
  | .call _ args => firstUnit? args

/-- The first known unit of some expressions. -/
def firstUnit? : List (Expr α) → Option String
  | [] => none
  | e :: es => (unit? e).or (firstUnit? es)

end

end Expr

end ThemeColor
