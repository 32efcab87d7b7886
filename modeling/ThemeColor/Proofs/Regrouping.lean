import ThemeColor.Expr.Text
import ThemeColor.Proofs.Evaluation

/-!
# Regrouping

A right operand of `+` or `*` that binds as tightly as the operator is written without parentheses,
and what is written without parentheses is read from left to right. So `a + (b - c)` is read back
as `(a + b) - c`: the tree changes, and the value does not.

## Main definitions

* `Expr.Regroups e e'`: the tree `e'` comes from `e` by moving such operands to the left;
* `Expr.value?`: the value of an expression, as long as no divisor is zero;
* `Expr.LeftGrouped`: there is nothing to move.

## Main results

* `Expr.Regroups.value?_eq`: regrouping keeps the value, and whether there is one;
* `Expr.Regroups.eq_self`: regrouping keeps a tree that is grouped to the left already.
-/

namespace ThemeColor

/-- Whether `a outer (b inner c)` is the same as `(a outer b) inner c`. -/
def Operator.associates : (outer inner : Operator) → Bool
  | .add, .add | .add, .sub | .mul, .mul | .mul, .div => true
  | _, _ => false

/-- The value of an operator between two values; there is none if a divisor is zero. -/
def Operator.value? : Operator → Rat → Rat → Option Rat
  | .add, x, y => some (x + y)
  | .sub, x, y => some (x - y)
  | .mul, x, y => some (x * y)
  | .div, x, y => if y = 0 then none else some (x / y)

/-- Moving an operand to the left does not change the value. -/
theorem Operator.value?_associates {outer inner : Operator}
    (h : outer.associates inner) (x y z : Rat) :
    ((inner.value? y z).bind fun r => outer.value? x r) =
      (outer.value? x y).bind fun r => inner.value? r z := by
  -- Four pairs are left: `+` in front of `+` or `-`, and `*` in front of `*` or `/`.
  cases outer <;> cases inner <;> simp only [Operator.associates, Bool.false_eq_true] at h
  · simp [Operator.value?, add_assoc]
  · simp [Operator.value?, add_sub_assoc]
  · simp [Operator.value?, mul_assoc]
  · by_cases hz : z = 0 <;> simp [Operator.value?, hz, mul_div_assoc]

namespace Expr

variable {α : Type}

/-! ## Values -/

/-- The meaning of the parts of an expression that has no value if a divisor is zero. -/
def meaning? (known : α → Rat) (s : String → Rat) : Meaning α (Option Rat) where
  scalar x := some (known x)
  text text := some (s text)
  operator op lhs rhs := lhs.bind fun x => rhs.bind fun y => op.value? x y
  function function args := (args.mapM id).map ((Interpretation.ofTexts s).function function)

/-- The value of an expression, where `known` gives the values of scalars and `s` those of verbatim
texts. There is none if a divisor is zero. -/
def value? (known : α → Rat) (s : String → Rat) : Expr α → Option Rat := (meaning? known s).value

variable {known : α → Rat} {s : String → Rat}

theorem value?_binary (op : Operator) (lhs rhs : Expr α) :
    value? known s (.binary op lhs rhs) =
      (value? known s lhs).bind fun x => (value? known s rhs).bind fun y => op.value? x y := by
  rw [value?, Meaning.value, meaning?]

theorem value?_call (function : MathFunction) (args : List (Expr α)) :
    value? known s (.call function args) =
      (args.mapM (value? known s)).map ((Interpretation.ofTexts s).function function) := by
  rw [value?, Meaning.value, Meaning.values_eq_map]
  exact congrArg (Option.map _) (List.mapM_map (m := Option))

/-! ## Regrouping -/

/-- The second tree comes from the first by moving operands of `+` and `*` to the left. -/
inductive Regroups : Expr α → Expr α → Prop
  | refl (e : Expr α) : Regroups e e
  | trans {a b c : Expr α} (hab : Regroups a b) (hbc : Regroups b c) : Regroups a c
  | binary {l l' r r' : Expr α} (op : Operator) (hl : Regroups l l') (hr : Regroups r r') :
      Regroups (.binary op l r) (.binary op l' r')
  | argument {a b : Expr α} (function : MathFunction) (before after : List (Expr α))
      (h : Regroups a b) :
      Regroups (.call function (before ++ a :: after)) (.call function (before ++ b :: after))
  | rotate {outer inner : Operator} (h : outer.associates inner) (a b c : Expr α) :
      Regroups (.binary outer a (.binary inner b c)) (.binary inner (.binary outer a b) c)

/-- The arguments of a function are regrouped one after the other. -/
theorem Regroups.call (function : MathFunction) {args args' : List (Expr α)}
    (h : List.Forall₂ Regroups args args') :
    Regroups (.call function args) (.call function args') := by
  -- The arguments in front have been regrouped already.
  suffices hrun : ∀ before : List (Expr α),
      Regroups (.call function (before ++ args)) (.call function (before ++ args')) from hrun []
  induction h with
  | nil => exact fun before => .refl _
  | @cons a b args args' hab _ ih =>
    intro before
    have hrest := ih (before ++ [b])
    rw [List.append_assoc, List.append_assoc] at hrest
    exact .trans (.argument function before args hab) hrest

/-- Regrouping keeps the value, and whether there is one. -/
theorem Regroups.value?_eq {e e' : Expr α} (h : Regroups e e') :
    value? known s e' = value? known s e := by
  induction h with
  | refl e => rfl
  | trans _ _ ihab ihbc => exact ihbc.trans ihab
  | binary op _ _ ihl ihr => rw [value?_binary, value?_binary, ihl, ihr]
  | argument function before after _ ih =>
    rw [value?_call, value?_call, List.mapM_append, List.mapM_append, List.mapM_cons,
      List.mapM_cons, ih]
  | rotate h a b c =>
    -- If all three operands have a value, the four pairs of operators are left.
    simp only [value?_binary]
    cases value? known s a with
    | none => rfl
    | some x =>
      cases value? known s b with
      | none => rfl
      | some y =>
        cases value? known s c with
        | none => simp
        | some z => exact (Operator.value?_associates h x y z).symm

/-! ## Trees that are grouped to the left -/

mutual

/-- No `+` has a sum or a difference as its right operand, and no `*` a product or a quotient. -/
def LeftGrouped : Expr α → Prop
  | .quantity _ | .verbatim _ => True
  | .binary op lhs rhs =>
    LeftGrouped lhs ∧ LeftGrouped rhs ∧
      ∀ inner l r, rhs = .binary inner l r → op.associates inner = false
  | .call _ args => LeftGroupedAll args

/-- All of the trees are grouped to the left. -/
def LeftGroupedAll : List (Expr α) → Prop
  | [] => True
  | e :: es => LeftGrouped e ∧ LeftGroupedAll es

end

theorem leftGroupedAll_iff {es : List (Expr α)} :
    LeftGroupedAll es ↔ ∀ e ∈ es, LeftGrouped e := by
  induction es with
  | nil => simp [LeftGroupedAll]
  | cons e es ih => simp [LeftGroupedAll, ih]

/-- Regrouping keeps a tree that is grouped to the left already. -/
theorem Regroups.eq_self {e e' : Expr α} (h : Regroups e e') (he : LeftGrouped e) : e' = e := by
  induction h with
  | refl e => rfl
  | trans _ _ ihab ihbc =>
    obtain rfl := ihab he
    exact ihbc he
  | binary op _ _ ihl ihr =>
    obtain ⟨hl, hr, -⟩ := he
    rw [ihl hl, ihr hr]
  | argument function before after _ ih =>
    rw [ih (leftGroupedAll_iff.mp he _ (by simp))]
  | rotate h a b c =>
    -- This is the shape that a tree grouped to the left does not have.
    have hkept := he.2.2 _ b c rfl
    rw [h] at hkept
    cases hkept

end Expr

end ThemeColor
