import ThemeColor.Expr.Basic

/-!
# Folding

Constructors that compute what is known. `Expr.add` and its companions return a quantity when both
operands are known and fit together, drop neutral operands, and build a node otherwise.
`Expr.simplify` rebuilds a tree through them.
-/

namespace ThemeColor.Expr

variable {α : Type} [Scalar α]

/-- Whether the expression is a known zero of any unit. -/
def isZero (e : Expr α) : Bool := e.quantity?.any (·.value == 0.0)

/-- Whether the expression is the plain number `value`. -/
def isNumber (e : Expr α) (value : α) : Bool := e.number?.any (· == value)

/-- The sum of two known values of one unit. -/
def addLiterals? (lhs rhs : Expr α) : Option (Expr α) :=
  match lhs, rhs with
  | .quantity a, .quantity b =>
    if a.unit = b.unit then some (.quantity ⟨a.value + b.value, a.unit⟩) else none
  | _, _ => none

/-- The difference of two known values of one unit. -/
def subLiterals? (lhs rhs : Expr α) : Option (Expr α) :=
  match lhs, rhs with
  | .quantity a, .quantity b =>
    if a.unit = b.unit then some (.quantity ⟨a.value - b.value, a.unit⟩) else none
  | _, _ => none

/-- The product of two known values, one of them a plain number. -/
def mulLiterals? (lhs rhs : Expr α) : Option (Expr α) :=
  match lhs, rhs with
  | .quantity a, .quantity b =>
    if a.isUnitless then some (.quantity ⟨a.value * b.value, b.unit⟩)
    else if b.isUnitless then some (.quantity ⟨a.value * b.value, a.unit⟩)
    else none
  | _, _ => none

/-- The quotient of two known values, where the divisor is not zero and is a plain number or has
the unit of the dividend. -/
def divLiterals? (lhs rhs : Expr α) : Option (Expr α) :=
  match lhs, rhs with
  | .quantity a, .quantity b =>
    if b.value == 0.0 then none
    else if b.isUnitless then some (.quantity ⟨a.value / b.value, a.unit⟩)
    else if a.unit = b.unit then some (number (a.value / b.value))
    else none
  | _, _ => none

/-- The node `lhs op rhs`, or `lhs flipped -rhs` if the right operand is a known negative value. -/
def signedNode (op flipped : Operator) (lhs rhs : Expr α) : Expr α :=
  match rhs with
  | .quantity q =>
    if q.value < 0.0 then .binary flipped lhs (.quantity ⟨-q.value, q.unit⟩)
    else .binary op lhs rhs
  | _ => .binary op lhs rhs

/-- The sum. -/
def add (lhs rhs : Expr α) : Expr α :=
  match addLiterals? lhs rhs with
  | some sum => sum
  | none =>
    if rhs.isZero then lhs
    else if lhs.isZero then rhs
    else signedNode .add .sub lhs rhs

/-- The difference. -/
def sub (lhs rhs : Expr α) : Expr α :=
  match subLiterals? lhs rhs with
  | some difference => difference
  | none =>
    if rhs.isZero then lhs
    else signedNode .sub .add lhs rhs

/-- A zero of the unit of `e`, if `factor` is the plain number zero and the unit is known: `0` and
`0%` do not stand for each other. -/
def zeroProduct? (factor e : Expr α) : Option (Expr α) :=
  if factor.isNumber 0.0 then e.unit?.map fun unit => .quantity ⟨0.0, unit⟩ else none

/-- The product. -/
def mul (lhs rhs : Expr α) : Expr α :=
  match mulLiterals? lhs rhs with
  | some product => product
  | none =>
    if lhs.isNumber 1.0 then rhs
    else if rhs.isNumber 1.0 then lhs
    else
      match (zeroProduct? lhs rhs).or (zeroProduct? rhs lhs) with
      | some zero => zero
      | none => .binary .mul lhs rhs

/-- The quotient. Division by a known zero stays a node. -/
def div (lhs rhs : Expr α) : Expr α :=
  match divLiterals? lhs rhs with
  | some quotient => quotient
  | none => if rhs.isNumber 1.0 then lhs else .binary .div lhs rhs

/-- The value moved between two bounds. -/
def clamp (low value high : Expr α) : Expr α :=
  match low, value, high with
  | .quantity lo, .quantity v, .quantity hi =>
    if lo.unit = v.unit ∧ v.unit = hi.unit then
      .quantity ⟨Scalar.clamp lo.value v.value hi.value, v.unit⟩
    else .call .clamp [low, value, high]
  | _, _, _ => .call .clamp [low, value, high]

/-- The first quantity with its value replaced by the best one of all, if all have its unit. -/
def bestOf? (best : α → α → α) : List (Quantity α) → Option (Quantity α)
  | [] => none
  | first :: rest =>
    if rest.all (·.unit = first.unit) then
      some ⟨rest.foldl (fun value q => best value q.value) first.value, first.unit⟩
    else none

/-- The best of the arguments: one argument is itself, and known values of one unit are compared. -/
def compare (function : MathFunction) (best : α → α → α) (args : List (Expr α)) : Expr α :=
  match args with
  | [only] => only
  | _ =>
    match (args.mapM quantity?).bind (bestOf? best) with
    | some q => .quantity q
    | none => .call function args

/-- The least of the arguments. -/
def min (args : List (Expr α)) : Expr α := compare .min Scalar.least args

/-- The greatest of the arguments. -/
def max (args : List (Expr α)) : Expr α := compare .max Scalar.greatest args

/-- A function applied to arguments. -/
def apply (function : MathFunction) (args : List (Expr α)) : Expr α :=
  match function with
  | .min => min args
  | .max => max args
  | .clamp =>
    match args with
    | [low, value, high] => clamp low value high
    | _ => .call .clamp args

/-- Two expressions joined by an operator. -/
def combine (op : Operator) (lhs rhs : Expr α) : Expr α :=
  match op with
  | .add => add lhs rhs
  | .sub => sub lhs rhs
  | .mul => mul lhs rhs
  | .div => div lhs rhs

mutual

/-- The tree rebuilt from its leaves, so that everything known is computed. -/
def simplify : Expr α → Expr α
  | .quantity q => .quantity q
  | .verbatim text => .verbatim text
  | .binary op lhs rhs => combine op (simplify lhs) (simplify rhs)
  | .call function args => apply function (simplifyAll args)

/-- The trees rebuilt from their leaves. -/
def simplifyAll : List (Expr α) → List (Expr α)
  | [] => []
  | e :: es => simplify e :: simplifyAll es

end

end ThemeColor.Expr
