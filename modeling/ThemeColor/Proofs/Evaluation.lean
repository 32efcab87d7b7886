import ThemeColor.Color.Hue
import ThemeColor.Color.Blend
import ThemeColor.Proofs.Interpretation

/-!
# The value of an expression

Once every verbatim text has a value, an expression over the rational numbers has one too. Units do
not count, and whatever has no value counts as zero: `Expr.value` is the value under the
interpretation `Interpretation.ofTexts`. Everything that folds a tree keeps its value
(`Expr.value_simplify`), so that the value of a built expression is the built value of its parts.
-/

namespace ThemeColor

/-! ## Values -/

/-- The interpretation in which everything besides the values of verbatim texts counts as zero. -/
def Interpretation.ofTexts (s : String → Rat) : Interpretation where
  text := s
  overZero _ := 0
  misapplied _ _ := 0

/-- Where a quotient by zero counts as zero, `Interpretation.operator` divides as the rational
numbers do. -/
theorem Interpretation.operator_ofTexts_div (s : String → Rat) (x y : Rat) :
    (ofTexts s).operator .div x y = x / y := by
  rw [operator]
  split
  · rename_i hzero
    rw [hzero, div_zero, ofTexts]
  · rfl

namespace Expr

/-- The value of an expression, where `s` gives the values of verbatim texts. -/
def value (s : String → Rat) : Expr Rat → Rat := (Interpretation.ofTexts s).value

/-- The values of some expressions. -/
def values (s : String → Rat) : List (Expr Rat) → List Rat := (Interpretation.ofTexts s).values

variable {s : String → Rat}

@[simp]
theorem value_quantity (q : Quantity Rat) : value s (.quantity q) = q.value :=
  Interpretation.value_quantity q

@[simp]
theorem value_verbatim (text : String) : value s (.verbatim text) = s text :=
  Interpretation.value_verbatim text

@[simp]
theorem value_binary (op : Operator) (lhs rhs : Expr Rat) :
    value s (.binary op lhs rhs) =
      (Interpretation.ofTexts s).operator op (value s lhs) (value s rhs) :=
  Interpretation.value_binary op lhs rhs

@[simp]
theorem value_call (function : MathFunction) (args : List (Expr Rat)) :
    value s (.call function args) = (Interpretation.ofTexts s).function function (values s args) :=
  Interpretation.value_call function args

@[simp]
theorem values_nil : values s [] = [] :=
  Interpretation.values_nil

@[simp]
theorem values_cons (e : Expr Rat) (es : List (Expr Rat)) :
    values s (e :: es) = value s e :: values s es :=
  Interpretation.values_cons e es

@[simp]
theorem value_number (x : Rat) : value s (number x) = x := by rw [number, value_quantity]

@[simp]
theorem value_percent (x : Rat) : value s (percent x) = x := by rw [percent, value_quantity]

/-- What `isNumber` recognizes has the value it asks for. -/
theorem value_of_isNumber {e : Expr Rat} {x : Rat} (h : e.isNumber x) : value s e = x :=
  Interpretation.value_of_isNumber h

/-! ## Folding keeps the value -/

@[simp]
theorem value_add (lhs rhs : Expr Rat) : value s (add lhs rhs) = value s lhs + value s rhs :=
  Interpretation.value_combine .add lhs rhs

@[simp]
theorem value_sub (lhs rhs : Expr Rat) : value s (sub lhs rhs) = value s lhs - value s rhs :=
  Interpretation.value_combine .sub lhs rhs

@[simp]
theorem value_mul (lhs rhs : Expr Rat) : value s (mul lhs rhs) = value s lhs * value s rhs :=
  Interpretation.value_combine .mul lhs rhs

@[simp]
theorem value_div (lhs rhs : Expr Rat) : value s (div lhs rhs) = value s lhs / value s rhs :=
  (Interpretation.value_combine .div lhs rhs).trans (Interpretation.operator_ofTexts_div s _ _)

/-- The value of what `clamp` makes lies between the values of its bounds. -/
@[simp]
theorem value_clamp (low x high : Expr Rat) :
    value s (clamp low x high) = Max.max (value s low) (Min.min (value s x) (value s high)) :=
  Interpretation.value_apply .clamp [low, x, high]

@[simp]
theorem value_min (args : List (Expr Rat)) :
    value s (min args) = (Interpretation.ofTexts s).function .min (values s args) :=
  Interpretation.value_apply .min args

@[simp]
theorem value_max (args : List (Expr Rat)) :
    value s (max args) = (Interpretation.ofTexts s).function .max (values s args) :=
  Interpretation.value_apply .max args

/-- Rebuilding a tree with `simplify` keeps its value. -/
@[simp]
theorem value_simplify (e : Expr Rat) : value s (simplify e) = value s e :=
  Interpretation.value_simplify e

end Expr

end ThemeColor
