import Mathlib.Algebra.Order.Ring.Rat
import Mathlib.Tactic.NormNum
import ThemeColor.Proofs.FoldingRules

/-!
# Interpretations of expressions

An expression is evaluated from its leaves up once its parts have a meaning (`Meaning.value`).

An expression over the rational numbers leaves three things open: the values of verbatim texts, what
a quotient by zero is, and what a function gives for a number of arguments that it does not take.
An `Interpretation` settles them in any way whatsoever, and then every expression has a value, where
units do not count. Each rule of folding keeps the value under every interpretation
(`Interpretation.value_of_rebuilt`), and so does simplifying (`Interpretation.value_simplify`).
-/

namespace ThemeColor

/-! ## Exact scalars -/

namespace Scalar

theorem rat_zero : (0.0 : Rat) = 0 := by norm_num

theorem rat_one : (1.0 : Rat) = 1 := by norm_num

/-- Between exact numbers `least` is the minimum. -/
theorem least_eq_min (a b : Rat) : least a b = min a b := by
  unfold least
  rw [min_def]
  split
  · rfl
  · rename_i h
    rw [if_pos (le_of_not_ge h)]

/-- Between exact numbers `greatest` is the maximum. -/
theorem greatest_eq_max (a b : Rat) : greatest a b = max a b := by
  unfold greatest
  rw [max_comm, max_def]
  split
  · rfl
  · rename_i h
    rw [if_pos (le_of_not_ge h)]

/-- Between exact numbers `clamp` moves a value between two others. -/
theorem clamp_eq (low value high : Rat) : clamp low value high = max low (min value high) := by
  rw [clamp, greatest_eq_max, least_eq_min]

end Scalar

/-! ## Evaluation -/

/-- What the parts of an expression with scalars in `α` mean in `β`. Units mean nothing. -/
structure Meaning (α β : Type) where
  /-- The meaning of a scalar. -/
  scalar : α → β
  /-- The meaning of a verbatim text. -/
  text : String → β
  /-- The meaning of an operator between what its operands mean. -/
  operator : Operator → β → β → β
  /-- The meaning of a function of what its arguments mean. -/
  function : MathFunction → List β → β

namespace Meaning

variable {α β : Type} (m : Meaning α β)

mutual

/-- The meaning of an expression. -/
def value : Expr α → β
  | .quantity q => m.scalar q.value
  | .verbatim text => m.text text
  | .binary op lhs rhs => m.operator op (value lhs) (value rhs)
  | .call function args => m.function function (values args)

/-- The meanings of some expressions. -/
def values : List (Expr α) → List β
  | [] => []
  | e :: es => value e :: values es

end

/-- The values of expressions are the `Meaning.value` of each. -/
theorem values_eq_map (es : List (Expr α)) : m.values es = es.map m.value := by
  induction es with
  | nil => rw [values, List.map_nil]
  | cons e es ih => rw [values, ih, List.map_cons]

end Meaning

/-! ## Values -/

/-- What an expression leaves open. -/
structure Interpretation where
  /-- The values of verbatim texts. -/
  text : String → Rat
  /-- What a quotient by zero is, for each dividend. -/
  overZero : Rat → Rat
  /-- What a function gives for values of a number that it does not take. -/
  misapplied : MathFunction → List Rat → Rat

namespace Interpretation

open ThemeColor.Expr

variable (i : Interpretation)

/-- The value of an operator between two values. -/
def operator : Operator → Rat → Rat → Rat
  | .add, x, y => x + y
  | .sub, x, y => x - y
  | .mul, x, y => x * y
  | .div, x, y => if y = 0 then i.overZero x else x / y

/-- The value of a function of some values: the least or greatest one of at least one, or the second
of three moved between the others, where the lower end wins. -/
def function : MathFunction → List Rat → Rat
  | .min, x :: xs => xs.foldl Min.min x
  | .max, x :: xs => xs.foldl Max.max x
  | .clamp, [low, x, high] => Max.max low (Min.min x high)
  | function, xs => i.misapplied function xs

/-- The meaning that the interpretation gives to the parts of an expression. -/
def meaning : Meaning Rat Rat where
  scalar x := x
  text := i.text
  operator := i.operator
  function := i.function

/-- The value of an expression. -/
def value : Expr Rat → Rat := i.meaning.value

/-- The values of some expressions. -/
def values : List (Expr Rat) → List Rat := i.meaning.values

variable {i}

@[simp]
theorem value_quantity (q : Quantity Rat) : i.value (.quantity q) = q.value := by
  rw [value, Meaning.value, meaning]

@[simp]
theorem value_verbatim (text : String) : i.value (.verbatim text) = i.text text := by
  rw [value, Meaning.value, meaning]

@[simp]
theorem value_binary (op : Operator) (lhs rhs : Expr Rat) :
    i.value (.binary op lhs rhs) = i.operator op (i.value lhs) (i.value rhs) := by
  rw [value, Meaning.value, meaning]

@[simp]
theorem value_call (function : MathFunction) (args : List (Expr Rat)) :
    i.value (.call function args) = i.function function (i.values args) := by
  rw [value, Meaning.value, values, meaning]

@[simp]
theorem values_nil : i.values [] = [] := by rw [values, Meaning.values]

@[simp]
theorem values_cons (e : Expr Rat) (es : List (Expr Rat)) :
    i.values (e :: es) = i.value e :: i.values es := by
  rw [values, Meaning.values, value]

theorem values_map_quantity (qs : List (Quantity Rat)) :
    i.values (qs.map .quantity) = qs.map Quantity.value := by
  induction qs with
  | nil => rfl
  | cons q qs ih => rw [List.map_cons, values_cons, ih, value_quantity, List.map_cons]

/-- What `isZero` recognizes has the value 0. -/
theorem value_of_isZero {e : Expr Rat} (h : e.isZero) : i.value e = 0 := by
  obtain ⟨q, rfl, hzero⟩ := exists_of_isZero h
  rw [value_quantity, eq_of_beq hzero, Scalar.rat_zero]

/-- What `isNumber` recognizes has the value it asks for. -/
theorem value_of_isNumber {e : Expr Rat} {x : Rat} (h : e.isNumber x) : i.value e = x := by
  obtain ⟨q, rfl, hx⟩ := exists_of_isNumber h
  rw [value_quantity, eq_of_beq hx]

/-! ## Rules keep the value -/

/-- A function that looks for the best one of some values compares them from left to right with
`better?`. -/
theorem function_of_better {function : MathFunction} {better : Rat → Rat → Rat}
    (h : function.better? = some better) (x : Rat) (xs : List Rat) :
    i.function function (x :: xs) = xs.foldl better x := by
  have hleast : (Scalar.least : Rat → Rat → Rat) = Min.min :=
    funext fun a => funext fun b => Scalar.least_eq_min a b
  have hgreatest : (Scalar.greatest : Rat → Rat → Rat) = Max.max :=
    funext fun a => funext fun b => Scalar.greatest_eq_max a b
  cases function with
  | min =>
    cases h
    rw [hleast, Interpretation.function]
  | max =>
    cases h
    rw [hgreatest, Interpretation.function]
  | clamp => cases h

/-- Every rule of `Folds` keeps the value. -/
theorem value_of_folds {e e' : Expr Rat} (h : Folds e e') : i.value e' = i.value e := by
  cases h with
  | add => simp only [value_quantity, value_binary, operator]
  | addZero h => simp only [value_binary, operator, value_of_isZero h, add_zero]
  | zeroAdd h => simp only [value_binary, operator, value_of_isZero h, zero_add]
  | sub => simp only [value_quantity, value_binary, operator]
  | subZero h => simp only [value_binary, operator, value_of_isZero h, sub_zero]
  | numberMul => simp only [value_quantity, value_binary, operator]
  | mulNumber => simp only [value_quantity, value_binary, operator]
  | oneMul h => simp only [value_binary, operator, value_of_isNumber h, Scalar.rat_one, one_mul]
  | mulOne h => simp only [value_binary, operator, value_of_isNumber h, Scalar.rat_one, mul_one]
  -- A factor that is known to be zero makes the product zero, whatever the other one is.
  | zeroMul h =>
    simp only [value_quantity, value_binary, operator, value_of_isNumber h, Scalar.rat_zero,
      zero_mul]
  | mulZero h =>
    simp only [value_quantity, value_binary, operator, value_of_isNumber h, Scalar.rat_zero,
      mul_zero]
  | @divNumber a b hzero =>
    have hne : b.value ≠ 0 := fun h => hzero (by rw [h, Scalar.rat_zero]; rfl)
    exact (if_neg hne).symm
  | @divSame a b hzero =>
    have hne : b.value ≠ 0 := fun h => hzero (by rw [h, Scalar.rat_zero]; rfl)
    exact (if_neg hne).symm
  | divOne h =>
    simp only [value_binary, operator, value_of_isNumber h, Scalar.rat_one, if_neg one_ne_zero,
      div_one]
  | @only function e h =>
    rw [value_call, values_cons, values_nil]
    cases function with
    | min => rfl
    | max => rfl
    | clamp => exact absurd rfl h
  | best hbetter hargs =>
    rw [value_quantity, value_call, hargs, values_map_quantity, List.map_cons,
      function_of_better hbetter, List.foldl_map]
  | clamp => simp [Interpretation.function, Scalar.clamp_eq]

/-- Every rule of `Turns` keeps the value. -/
theorem value_of_turns {e e' : Expr Rat} (h : Turns e e') : i.value e' = i.value e := by
  cases h with
  | @negative op opposite e q hop h =>
    cases op with
    | add =>
      cases hop
      exact sub_neg_eq_add _ _
    | sub =>
      cases hop
      exact (sub_eq_add_neg _ _).symm
    | mul => cases hop
    | div => cases hop

/-- A `Rebuilt` node has the value that it had. -/
theorem value_of_rebuilt {e e' : Expr Rat} (h : Rebuilt e e') : i.value e' = i.value e := by
  cases h with
  | folded h => exact value_of_folds h
  | turned _ h => exact value_of_turns h
  | kept => rfl

/-! ## Folding keeps the value -/

/-- What `combine` makes has the value of the operation. -/
theorem value_combine (op : Operator) (lhs rhs : Expr Rat) :
    i.value (combine op lhs rhs) = i.operator op (i.value lhs) (i.value rhs) := by
  rw [value_of_rebuilt (rebuilt_combine op lhs rhs), value_binary]

/-- What `apply` makes has the value of the function. -/
theorem value_apply (function : MathFunction) (args : List (Expr Rat)) :
    i.value (apply function args) = i.function function (i.values args) := by
  rw [value_of_rebuilt (rebuilt_apply function args), value_call]

mutual

/-- Simplifying with `simplify` keeps the value under every interpretation. -/
theorem value_simplify : ∀ e : Expr Rat, i.value (simplify e) = i.value e
  | .quantity q => by rw [simplify]
  | .verbatim text => by rw [simplify]
  | .binary op lhs rhs => by
    rw [simplify, value_combine, value_simplify lhs, value_simplify rhs, value_binary]
  | .call function args => by
    rw [simplify, value_apply, values_simplifyAll args, value_call]

/-- Simplifying with `simplifyAll` keeps the values under every interpretation. -/
theorem values_simplifyAll : ∀ es : List (Expr Rat), i.values (simplifyAll es) = i.values es
  | [] => by rw [simplifyAll]
  | e :: es => by
    rw [simplifyAll, values_cons, value_simplify e, values_simplifyAll es, values_cons]

end

/-- Folding keeps the value: a simplified expression has the value of the expression, and what a
folding constructor returns has the value of its operation between the values of the operands. -/
theorem value_folded (i : Interpretation) :
    (∀ e, i.value (simplify e) = i.value e) ∧
    (∀ lhs rhs, i.value (add lhs rhs) = i.value lhs + i.value rhs) ∧
    (∀ lhs rhs, i.value (sub lhs rhs) = i.value lhs - i.value rhs) ∧
    (∀ lhs rhs, i.value (mul lhs rhs) = i.value lhs * i.value rhs) ∧
    (∀ lhs rhs, i.value (div lhs rhs) =
      if i.value rhs = 0 then i.overZero (i.value lhs) else i.value lhs / i.value rhs) ∧
    (∀ low x high, i.value (clamp low x high) =
      Max.max (i.value low) (Min.min (i.value x) (i.value high))) ∧
    (∀ args, i.value (min args) = i.function .min (i.values args)) ∧
    (∀ args, i.value (max args) = i.function .max (i.values args)) := by
  refine ⟨value_simplify, fun lhs rhs => ?_, fun lhs rhs => ?_, fun lhs rhs => ?_,
    fun lhs rhs => ?_, fun low x high => ?_, fun args => ?_, fun args => ?_⟩
  · exact value_combine .add lhs rhs
  · exact value_combine .sub lhs rhs
  · exact value_combine .mul lhs rhs
  · exact value_combine .div lhs rhs
  · exact value_apply .clamp [low, x, high]
  · exact value_apply .min args
  · exact value_apply .max args

end Interpretation

end ThemeColor
