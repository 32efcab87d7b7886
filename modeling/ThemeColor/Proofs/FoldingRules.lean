import ThemeColor.Expr.Fold

/-!
# The rules of folding

What the folding constructors do, as rules about single nodes. A node either folds, which makes it
smaller, or it is a sum or difference with a negative value on the right that is turned into the
opposite node, or it stays. The constructors apply a rule whenever there is one, and turn a node
only if it does not fold (`Expr.rebuilt_combine`, `Expr.rebuilt_apply`), so that whatever the rules
keep, simplifying keeps.

## Main definitions

* `Expr.Folds e e'`: the node `e` folds to `e'`;
* `Expr.Turns e e'`: the node `e` is turned into the opposite node `e'`;
* `Expr.Rebuilt e e'`: what the rules make of the node `e`.
-/

namespace ThemeColor

variable {α : Type} [Scalar α]

/-- The operator that takes back what the operator does, for sums and differences. -/
def Operator.opposite? : Operator → Option Operator
  | .add => some .sub
  | .sub => some .add
  | .mul => none
  | .div => none

/-- The better one of two scalars, for the functions that look for the best one. -/
def MathFunction.better? : MathFunction → Option (α → α → α)
  | .min => some Scalar.least
  | .max => some Scalar.greatest
  | .clamp => none

namespace Expr

/-! ## Known values -/

omit [Scalar α] in
theorem eq_quantity_of_quantity? {e : Expr α} {q : Quantity α} (h : e.quantity? = some q) :
    e = .quantity q := by
  cases e with
  | quantity q' => exact congrArg quantity (Option.some.inj h)
  | verbatim text => cases h
  | binary op lhs rhs => cases h
  | call function args => cases h

/-- What `isZero` recognizes is a known value. -/
theorem exists_of_isZero {e : Expr α} (h : e.isZero) :
    ∃ q, e = .quantity q ∧ q.value == 0.0 := by
  obtain ⟨q, hq, hzero⟩ := (Option.any_eq_true _ _).mp h
  exact ⟨q, eq_quantity_of_quantity? hq, hzero⟩

omit [Scalar α] in
/-- `Expr.number?` finds the value of a number without a unit. -/
theorem number?_eq_some_iff {e : Expr α} {x : α} : e.number? = some x ↔ e = number x := by
  constructor
  · intro h
    obtain ⟨⟨x, unit⟩, hq, rfl⟩ := Option.map_eq_some_iff.mp h
    obtain ⟨hq, hunit⟩ := Option.filter_eq_some_iff.mp hq
    obtain rfl : unit = "" := eq_of_beq hunit
    exact eq_quantity_of_quantity? hq
  · rintro rfl
    rfl

/-- What `isNumber` recognizes is a known value. -/
theorem exists_of_isNumber {e : Expr α} {x : α} (h : e.isNumber x) :
    ∃ q, e = .quantity q ∧ q.value == x := by
  obtain ⟨y, hy, hx⟩ := (Option.any_eq_true _ _).mp h
  exact ⟨⟨y, ""⟩, number?_eq_some_iff.mp hy, hx⟩

/-! ## Rules -/

/-- The node `e` folds to `e'`. -/
inductive Folds : (e e' : Expr α) → Prop where
  /-- Known values of one unit are added. -/
  | add {a b : Quantity α} (h : a.unit = b.unit) :
      Folds (.binary .add (.quantity a) (.quantity b)) (.quantity ⟨a.value + b.value, a.unit⟩)
  /-- A known zero of any unit on the right of a sum is dropped. -/
  | addZero {e zero : Expr α} (h : zero.isZero) : Folds (.binary .add e zero) e
  /-- A known zero of any unit on the left of a sum is dropped. -/
  | zeroAdd {zero e : Expr α} (h : zero.isZero) : Folds (.binary .add zero e) e
  /-- Known values of one unit are subtracted. -/
  | sub {a b : Quantity α} (h : a.unit = b.unit) :
      Folds (.binary .sub (.quantity a) (.quantity b)) (.quantity ⟨a.value - b.value, a.unit⟩)
  /-- A known zero of any unit on the right of a difference is dropped. -/
  | subZero {e zero : Expr α} (h : zero.isZero) : Folds (.binary .sub e zero) e
  /-- A plain number times a known value. -/
  | numberMul {a b : Quantity α} (h : a.isUnitless) :
      Folds (.binary .mul (.quantity a) (.quantity b)) (.quantity ⟨a.value * b.value, b.unit⟩)
  /-- A known value times a plain number. -/
  | mulNumber {a b : Quantity α} (h : b.isUnitless) :
      Folds (.binary .mul (.quantity a) (.quantity b)) (.quantity ⟨a.value * b.value, a.unit⟩)
  /-- The factor one is dropped. -/
  | oneMul {one e : Expr α} (h : one.isNumber 1.0) : Folds (.binary .mul one e) e
  /-- The factor one is dropped. -/
  | mulOne {e one : Expr α} (h : one.isNumber 1.0) : Folds (.binary .mul e one) e
  /-- The factor zero makes a zero of the unit of the other factor, if that unit is known. -/
  | zeroMul {zero e : Expr α} {unit : String} (h : zero.isNumber 0.0)
      (hunit : e.unit? = some unit) : Folds (.binary .mul zero e) (.quantity ⟨0.0, unit⟩)
  /-- The factor zero makes a zero of the unit of the other factor, if that unit is known. -/
  | mulZero {e zero : Expr α} {unit : String} (h : zero.isNumber 0.0)
      (hunit : e.unit? = some unit) : Folds (.binary .mul e zero) (.quantity ⟨0.0, unit⟩)
  /-- A known value is divided by a plain number other than zero. -/
  | divNumber {a b : Quantity α} (hzero : ¬ b.value == 0.0) (h : b.isUnitless) :
      Folds (.binary .div (.quantity a) (.quantity b)) (.quantity ⟨a.value / b.value, a.unit⟩)
  /-- The quotient of known values of one unit is a plain number. -/
  | divSame {a b : Quantity α} (hzero : ¬ b.value == 0.0) (h : a.unit = b.unit) :
      Folds (.binary .div (.quantity a) (.quantity b)) (number (a.value / b.value))
  /-- The divisor one is dropped. -/
  | divOne {e one : Expr α} (h : one.isNumber 1.0) : Folds (.binary .div e one) e
  /-- The best of one argument is that argument. -/
  | only {function : MathFunction} {e : Expr α} (h : function ≠ .clamp) :
      Folds (.call function [e]) e
  /-- The best one of known values of one unit. -/
  | best {function : MathFunction} {better : α → α → α} {first : Quantity α}
      {rest : List (Quantity α)} {args : List (Expr α)}
      (hbetter : function.better? = some better) (hargs : args = (first :: rest).map .quantity)
      (h : ∀ q ∈ rest, q.unit = first.unit) :
      Folds (.call function args)
        (.quantity ⟨rest.foldl (fun x q => better x q.value) first.value, first.unit⟩)
  /-- A known value is moved between known bounds of its unit. -/
  | clamp {low x high : Quantity α} (hlow : low.unit = x.unit) (hhigh : x.unit = high.unit) :
      Folds (.call .clamp [.quantity low, .quantity x, .quantity high])
        (.quantity ⟨Scalar.clamp low.value x.value high.value, x.unit⟩)

/-- The sum or difference `e` has a negative value on the right and is turned into the opposite
node `e'`. -/
inductive Turns : (e e' : Expr α) → Prop where
  /-- The operator and the sign are both turned around. -/
  | negative {op opposite : Operator} {e : Expr α} {q : Quantity α}
      (hop : op.opposite? = some opposite) (h : q.value < 0.0) :
      Turns (.binary op e (.quantity q)) (.binary opposite e (.quantity ⟨-q.value, q.unit⟩))

/-- Some rule folds the node. -/
def Foldable (e : Expr α) : Prop := ∃ e', Folds e e'

/-- The node is turned into the opposite one unless it folds. -/
def Turnable (e : Expr α) : Prop := ∃ e', Turns e e'

/-- What the rules make of the node `e`. -/
inductive Rebuilt (e : Expr α) : (e' : Expr α) → Prop where
  /-- The node folds. -/
  | folded {e' : Expr α} (h : Folds e e') : Rebuilt e e'
  /-- The node does not fold and is turned. -/
  | turned {e' : Expr α} (hfold : ¬ Foldable e) (h : Turns e e') : Rebuilt e e'
  /-- No rule applies. -/
  | kept (hfold : ¬ Foldable e) (hturn : ¬ Turnable e) : Rebuilt e e

/-! ## Operators -/

/-- A node that cannot be folded is `Rebuilt` by `signedNode`. -/
theorem rebuilt_signedNode {op opposite : Operator} (hop : op.opposite? = some opposite)
    {lhs rhs : Expr α} (hfold : ¬ Foldable (.binary op lhs rhs)) :
    Rebuilt (.binary op lhs rhs) (signedNode op opposite lhs rhs) := by
  unfold signedNode
  split
  · split
    · exact .turned hfold (.negative hop ‹_›)
    · refine .kept hfold ?_
      rintro ⟨_, ⟨-, h⟩⟩
      contradiction
  · -- Only a known value on the right can be negative.
    rename_i hquantity
    refine .kept hfold ?_
    rintro ⟨_, ⟨-, -⟩⟩
    exact hquantity _ rfl

/-- A sum is `Rebuilt` by `add`. -/
theorem rebuilt_add (lhs rhs : Expr α) : Rebuilt (.binary .add lhs rhs) (add lhs rhs) := by
  unfold add
  rcases hsum : addLiterals? lhs rhs with _ | sum
  · dsimp only
    split
    · exact .folded (.addZero ‹_›)
    · split
      · exact .folded (.zeroAdd ‹_›)
      · -- The sum of known values and both zeros are excluded by the branch.
        refine rebuilt_signedNode rfl ?_
        rintro ⟨_, h⟩
        cases h with
        | add h => simp [addLiterals?, h] at hsum
        | addZero h => contradiction
        | zeroAdd h => contradiction
  · unfold addLiterals? at hsum
    split at hsum
    · split at hsum
      · cases hsum
        exact .folded (.add ‹_›)
      · cases hsum
    · cases hsum

/-- A difference is `Rebuilt` by `sub`. -/
theorem rebuilt_sub (lhs rhs : Expr α) : Rebuilt (.binary .sub lhs rhs) (sub lhs rhs) := by
  unfold sub
  rcases hdifference : subLiterals? lhs rhs with _ | difference
  · dsimp only
    split
    · exact .folded (.subZero ‹_›)
    · -- A zero on the left is no rule of its own: it cannot be dropped from a difference.
      refine rebuilt_signedNode rfl ?_
      rintro ⟨_, h⟩
      cases h with
      | sub h => simp [subLiterals?, h] at hdifference
      | subZero h => contradiction
  · unfold subLiterals? at hdifference
    split at hdifference
    · split at hdifference
      · cases hdifference
        exact .folded (.sub ‹_›)
      · cases hdifference
    · cases hdifference

/-- Products and quotients are never `Turnable`. -/
theorem not_turnable_binary {op : Operator} (hop : op.opposite? = none) (lhs rhs : Expr α) :
    ¬ Turnable (.binary op lhs rhs) := by
  rintro ⟨_, ⟨hsome, -⟩⟩
  rw [hop] at hsome
  cases hsome

/-- A product that `zeroProduct?` knows has a factor 0, and the unit of the other one. -/
theorem zeroProduct?_eq_some {factor e zero : Expr α} (h : zeroProduct? factor e = some zero) :
    factor.isNumber 0.0 ∧ ∃ unit, e.unit? = some unit ∧ zero = .quantity ⟨0.0, unit⟩ := by
  unfold zeroProduct? at h
  split at h
  · obtain ⟨unit, hunit, rfl⟩ := Option.map_eq_some_iff.mp h
    exact ⟨‹_›, unit, hunit, rfl⟩
  · cases h

/-- A product with a factor 0 is known to `zeroProduct?` if the unit of the other one is. -/
theorem zeroProduct?_ne_none {factor e : Expr α} {unit : String} (h : factor.isNumber 0.0)
    (hunit : e.unit? = some unit) : zeroProduct? factor e ≠ none := by
  simp [zeroProduct?, h, hunit]

/-- A product is `Rebuilt` by `mul`. -/
theorem rebuilt_mul (lhs rhs : Expr α) : Rebuilt (.binary .mul lhs rhs) (mul lhs rhs) := by
  unfold mul
  rcases hproduct : mulLiterals? lhs rhs with _ | product
  · dsimp only
    split
    · exact .folded (.oneMul ‹_›)
    · split
      · exact .folded (.mulOne ‹_›)
      · split
        · rename_i zero hzero
          rcases Option.or_eq_some_iff.mp hzero with hzero | ⟨-, hzero⟩
          · obtain ⟨hfactor, unit, hunit, rfl⟩ := zeroProduct?_eq_some hzero
            exact .folded (.zeroMul hfactor hunit)
          · obtain ⟨hfactor, unit, hunit, rfl⟩ := zeroProduct?_eq_some hzero
            exact .folded (.mulZero hfactor hunit)
        · rename_i hzero
          obtain ⟨hleft, hright⟩ := Option.or_eq_none_iff.mp hzero
          refine .kept ?_ (not_turnable_binary rfl lhs rhs)
          rintro ⟨_, h⟩
          cases h with
          | numberMul h => simp [mulLiterals?, h] at hproduct
          | mulNumber h =>
            -- Whichever factor is a plain number, the product of known values is known.
            rw [mulLiterals?, if_pos h] at hproduct
            split at hproduct <;> cases hproduct
          | oneMul h => contradiction
          | mulOne h => contradiction
          | zeroMul h hunit => exact zeroProduct?_ne_none h hunit hleft
          | mulZero h hunit => exact zeroProduct?_ne_none h hunit hright
  · unfold mulLiterals? at hproduct
    split at hproduct
    · split at hproduct
      · cases hproduct
        exact .folded (.numberMul ‹_›)
      · split at hproduct
        · cases hproduct
          exact .folded (.mulNumber ‹_›)
        · cases hproduct
    · cases hproduct

/-- A quotient is `Rebuilt` by `div`. -/
theorem rebuilt_div (lhs rhs : Expr α) : Rebuilt (.binary .div lhs rhs) (div lhs rhs) := by
  unfold div
  rcases hquotient : divLiterals? lhs rhs with _ | quotient
  · dsimp only
    split
    · exact .folded (.divOne ‹_›)
    · refine .kept ?_ (not_turnable_binary rfl lhs rhs)
      rintro ⟨_, h⟩
      cases h with
      | divNumber hzero h => simp [divLiterals?, hzero, h] at hquotient
      | divSame hzero h =>
        rw [divLiterals?, if_neg hzero, if_pos h] at hquotient
        split at hquotient <;> cases hquotient
      | divOne h => contradiction
  · unfold divLiterals? at hquotient
    split at hquotient
    · split at hquotient
      · cases hquotient
      · split at hquotient
        · cases hquotient
          exact .folded (.divNumber ‹_› ‹_›)
        · split at hquotient
          · cases hquotient
            exact .folded (.divSame ‹_› ‹_›)
          · cases hquotient
    · cases hquotient

/-- Joining two expressions with `combine` applies a rule whenever there is one. -/
theorem rebuilt_combine (op : Operator) (lhs rhs : Expr α) :
    Rebuilt (.binary op lhs rhs) (combine op lhs rhs) := by
  cases op with
  | add => exact rebuilt_add lhs rhs
  | sub => exact rebuilt_sub lhs rhs
  | mul => exact rebuilt_mul lhs rhs
  | div => exact rebuilt_div lhs rhs

/-! ## Functions -/

/-- Calls are never `Turnable`. -/
theorem not_turnable_call (function : MathFunction) (args : List (Expr α)) :
    ¬ Turnable (.call function args) := by
  rintro ⟨_, ⟨⟩⟩

omit [Scalar α] in
theorem mapM_quantity?_eq_some_iff {args : List (Expr α)} {qs : List (Quantity α)} :
    args.mapM quantity? = some qs ↔ args = qs.map .quantity := by
  induction args generalizing qs with
  | nil => cases qs <;> simp
  | cons e args ih =>
    rw [List.mapM_cons]
    constructor
    · intro h
      obtain ⟨q, hq, h⟩ := Option.bind_eq_some_iff.mp h
      obtain ⟨more, hmore, h⟩ := Option.bind_eq_some_iff.mp h
      cases h
      rw [ih.mp hmore, List.map_cons, eq_quantity_of_quantity? hq]
    · intro h
      cases qs with
      | nil => cases h
      | cons q qs =>
        obtain ⟨rfl, hargs⟩ := List.cons.inj h
        rw [ih.mpr hargs]
        rfl

omit [Scalar α] in
/-- The best one of some values is known to `bestOf?` if they have one unit. -/
theorem bestOf?_eq_some_iff {best : α → α → α} {qs : List (Quantity α)} {q : Quantity α} :
    bestOf? best qs = some q ↔ ∃ first rest, qs = first :: rest ∧
      (∀ p ∈ rest, p.unit = first.unit) ∧
      q = ⟨rest.foldl (fun x p => best x p.value) first.value, first.unit⟩ := by
  constructor
  · intro h
    cases qs with
    | nil => cases h
    | cons first rest =>
      rw [bestOf?] at h
      split at h
      · rename_i hunits
        cases h
        exact ⟨first, rest, rfl, by simpa using hunits, rfl⟩
      · cases h
  · rintro ⟨first, rest, rfl, hunits, rfl⟩
    rw [bestOf?, if_pos (by simpa using hunits)]

/-- A call that looks for the best value is `Rebuilt` by `compare`. -/
theorem rebuilt_compare {function : MathFunction} {better : α → α → α}
    (hbetter : function.better? = some better) (args : List (Expr α)) :
    Rebuilt (.call function args) (compare function better args) := by
  have hclamp : function ≠ .clamp := by
    rintro rfl
    cases hbetter
  unfold compare
  split
  · exact .folded (.only hclamp)
  · rename_i honly
    -- With more than one argument, or none, only known values of one unit fold.
    rcases hbest : (args.mapM quantity?).bind (bestOf? better) with _ | q
    · refine .kept ?_ (not_turnable_call function args)
      rintro ⟨e, h⟩
      cases h with
      | only => exact honly e rfl
      | clamp => exact hclamp rfl
      | best hbetter' hargs hunits =>
        obtain rfl := Option.some.inj (hbetter.symm.trans hbetter')
        rw [mapM_quantity?_eq_some_iff.mpr hargs, Option.bind_some,
          bestOf?_eq_some_iff.mpr ⟨_, _, rfl, hunits, rfl⟩] at hbest
        cases hbest
    · obtain ⟨qs, hqs, hq⟩ := Option.bind_eq_some_iff.mp hbest
      obtain ⟨first, rest, rfl, hunits, rfl⟩ := bestOf?_eq_some_iff.mp hq
      exact .folded (.best hbetter (mapM_quantity?_eq_some_iff.mp hqs) hunits)

/-- A call with bounds is `Rebuilt` by `clamp`. -/
theorem rebuilt_clamp (low x high : Expr α) :
    Rebuilt (.call .clamp [low, x, high]) (clamp low x high) := by
  unfold clamp
  split
  · split
    · rename_i hunits
      exact .folded (.clamp hunits.1 hunits.2)
    · rename_i hunits
      refine .kept ?_ (not_turnable_call _ _)
      rintro ⟨_, h⟩
      cases h with
      | best hbetter => cases hbetter
      | clamp hlow hhigh => exact hunits ⟨hlow, hhigh⟩
  · rename_i hquantities
    refine .kept ?_ (not_turnable_call _ _)
    rintro ⟨_, h⟩
    cases h with
    | best hbetter => cases hbetter
    | clamp => exact hquantities _ _ _ rfl rfl rfl

/-- Applying a function with `apply` applies a rule whenever there is one. -/
theorem rebuilt_apply (function : MathFunction) (args : List (Expr α)) :
    Rebuilt (.call function args) (apply function args) := by
  unfold apply
  split
  · exact rebuilt_compare rfl args
  · exact rebuilt_compare rfl args
  · split
    · exact rebuilt_clamp _ _ _
    · rename_i hthree
      refine .kept ?_ (not_turnable_call _ _)
      rintro ⟨_, h⟩
      cases h with
      | only h => exact h rfl
      | best hbetter => cases hbetter
      | clamp => exact hthree _ _ _ rfl

theorem simplifyAll_eq_map (es : List (Expr α)) : simplifyAll es = es.map simplify := by
  induction es with
  | nil => rfl
  | cons e es ih => rw [simplifyAll, ih, List.map_cons]

end Expr

end ThemeColor
