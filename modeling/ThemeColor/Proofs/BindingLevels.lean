import Mathlib.Data.List.Forall2
import ThemeColor.Proofs.Grammar
import ThemeColor.Proofs.Regrouping

/-!
# Levels of binding

Components write an expression as a sum, as a product or as a single value. A value is also a
product and a product is also a sum, so these are three levels, numbered as operators bind, and each
operator asks for a level on either side.

Sums and products are read from left to right, so what stands to the left of some components goes
into the tree that is read. Components therefore count as a sum only if they are read back both
alone and behind any other sum and a `+` (`Chained`).

All of this is about expressions whose value is not known. On these no operation computes anything.

## Main results

* `WritesAt.binary`: operands at the levels that an operator asks for are written at its own level;
* `WritesAt.group`: parentheses turn any level into a value;
* `WritesAll.call`: a function of arguments that are written is a value.
-/

namespace ThemeColor

theorem Text.sameIgnoringCase_refl (name : String) : sameIgnoringCase name name :=
  beq_self_eq_true _

/-- How many arguments the function takes. One argument of `min()` or `max()` would be the result
itself. -/
def MathFunction.Admits : MathFunction → Nat → Prop
  | .min, n | .max, n => 2 ≤ n
  | .clamp, n => n = 3

/-- The character of the operator. -/
def Operator.char : Operator → Char
  | .add => '+'
  | .sub => '-'
  | .mul => '*'
  | .div => '/'

/-- The level of a right operand. A directed operator takes none that binds only as tightly as
itself. -/
def Operator.rightLevel (op : Operator) : Nat :=
  if op.isDirected then op.precedence + 1 else op.precedence

/-! ## Operations on unknown values -/

namespace Expr

variable {α : Type} {l r : Expr α}

theorem ne_quantity_of_unknown (h : l.quantity? = none) (q : Quantity α) : l ≠ .quantity q := by
  rintro rfl
  cases h

/-- Unknown values are not compared by `compare`. -/
theorem compare_unknown (function : MathFunction) (best : α → α → α) {args : List (Expr α)}
    (hlength : 2 ≤ args.length) (hargs : ∀ e ∈ args, e.quantity? = none) :
    compare function best args = .call function args := by
  match args, hlength with
  | first :: second :: rest, _ => simp [compare, hargs first (by simp)]

variable [Scalar α]

theorem isZero_of_unknown (h : l.quantity? = none) : l.isZero = false := by
  rw [isZero, h]
  rfl

theorem isNumber_of_unknown (h : l.quantity? = none) (x : α) : l.isNumber x = false := by
  rw [isNumber, number?, h]
  rfl

/-- An operator between unknown values is a node, as `combine` has no rule for them. -/
theorem combine_unknown (op : Operator) (hl : l.quantity? = none) (hr : r.quantity? = none) :
    combine op l r = .binary op l r := by
  have hquantity := ne_quantity_of_unknown hl
  have hquantity' := ne_quantity_of_unknown hr
  cases op with
  | add =>
    simp [combine, add, addLiterals?, signedNode, isZero_of_unknown hl, isZero_of_unknown hr,
      hquantity, hquantity']
  | sub =>
    simp [combine, sub, subLiterals?, signedNode, isZero_of_unknown hr, hquantity, hquantity']
  | mul =>
    simp [combine, mul, mulLiterals?, zeroProduct?, isNumber_of_unknown hl, isNumber_of_unknown hr,
      hquantity]
  | div => simp [combine, div, divLiterals?, isNumber_of_unknown hr, hquantity]

/-- A function of unknown values is a node, as `apply` has no rule for them. -/
theorem apply_unknown {function : MathFunction} {args : List (Expr α)}
    (hlength : function.Admits args.length) (hargs : ∀ e ∈ args, e.quantity? = none) :
    apply function args = .call function args := by
  cases function with
  | min => exact compare_unknown _ _ hlength hargs
  | max => exact compare_unknown _ _ hlength hargs
  | clamp =>
    obtain ⟨low, value, high, rfl⟩ := List.length_eq_three.mp hlength
    simp [apply, clamp, ne_quantity_of_unknown (hargs low (by simp))]

end Expr

namespace Grammar

open Component ThemeColor.Expr

variable {x y mid cs : List Component} {e l r : Expr Float}

/-! ## Operators -/

/-- The components are the operator, perhaps with blanks around it. -/
inductive IsSymbol (op : Operator) : List Component → Prop
  | padded {before after : List Component} {c : Component} (hbefore : Blank before)
      (hc : isToken (.delim op.char) c) (hafter : Blank after) :
      IsSymbol op (before ++ c :: after)

/-- A `Product` goes on with an operand behind an operator of its level. -/
theorem Product.join {op : Operator} (hop : op.precedence = 2) (hx : Product Value x l)
    (hmid : IsSymbol op mid) (hy : Operand Value y r) :
    Product Value (x ++ (mid ++ y)) (combine op l r) := by
  -- The blanks around the operator belong to the operands.
  obtain ⟨hbefore, hc, hafter⟩ := hmid
  rw [List.append_assoc, ← List.append_assoc x, List.cons_append]
  cases op with
  | mul => exact .mul (hx.blankAfter hbefore) hc (hy.blankBefore hafter)
  | div => exact .div (hx.blankAfter hbefore) hc (hy.blankBefore hafter)
  | add => cases hop
  | sub => cases hop

/-- A `Sum` goes on with a product behind an operator of its level. -/
theorem Sum.join {op : Operator} (hop : op.precedence = 1) (hx : Sum Value x l)
    (hmid : IsSymbol op mid) (hy : Product Value y r) :
    Sum Value (x ++ (mid ++ y)) (combine op l r) := by
  obtain ⟨hbefore, hc, hafter⟩ := hmid
  rw [List.append_assoc, ← List.append_assoc x, List.cons_append]
  cases op with
  | add => exact .add (hx.blankAfter hbefore) hc (hy.blankBefore hafter)
  | sub => exact .sub (hx.blankAfter hbefore) hc (hy.blankBefore hafter)
  | mul => cases hop
  | div => cases hop

/-! ## Chains -/

/-- The second expression is the first one up to grouping, and its value is not known. -/
structure Rereads (e e' : Expr Float) : Prop where
  /-- The trees differ in their grouping only. -/
  regroups : Regroups e e'
  /-- The value is not known. -/
  unknown : e'.quantity? = none

/-- A node whose operands `Regroups` relates to others is reread with those. -/
theorem Rereads.binary {l' r' : Expr Float} (op : Operator) (hl : Regroups l l')
    (hr : Regroups r r') : Rereads (.binary op l r) (.binary op l' r') :=
  ⟨.binary op hl hr, rfl⟩

/-- The components are read back as the expression by rules that read from left to right: alone, and
behind whatever these rules have read and the operator `outer`. -/
structure Chained (chain : List Component → Expr Float → Prop) (outer : Operator)
    (cs : List Component) (e : Expr Float) : Prop where
  /-- The components alone are read as the expression. -/
  alone : ∃ e', chain cs e' ∧ Rereads e e'
  /-- Behind an operator they are read as its right operand, up to grouping. -/
  behind : ∀ {x mid : List Component} {a : Expr Float}, chain x a → a.quantity? = none →
    IsSymbol outer mid → ∃ e', chain (x ++ (mid ++ cs)) e' ∧ Rereads (.binary outer a e) e'

/-- A `Chained` text goes on with another operator that binds as tightly. -/
theorem Chained.extend {chain : List Component → Expr Float → Prop} {outer inner : Operator}
    (hop : outer.associates inner) (hl : Chained chain outer x l)
    (hr : ∀ {x : List Component} {a : Expr Float}, chain x a → a.quantity? = none →
      ∃ e', chain (x ++ (mid ++ y)) e' ∧ Rereads (.binary inner a r) e') :
    Chained chain outer (x ++ (mid ++ y)) (.binary inner l r) := by
  constructor
  · obtain ⟨l', hchain, hl'⟩ := hl.alone
    obtain ⟨e', hchain', he'⟩ := hr hchain hl'.unknown
    exact ⟨e', hchain', .trans (.binary inner hl'.regroups (.refl r)) he'.regroups, he'.unknown⟩
  · intro x₀ mid₀ a hx₀ ha hmid₀
    -- The left operand joins what stands in front, and the right one joins both.
    obtain ⟨l', hchain, hl'⟩ := hl.behind hx₀ ha hmid₀
    obtain ⟨e', hchain', he'⟩ := hr hchain hl'.unknown
    have hregroups : Regroups (.binary outer a (.binary inner l r)) e' :=
      .trans (.rotate hop a l r)
        (.trans (.binary inner hl'.regroups (.refl r)) he'.regroups)
    refine ⟨e', ?_, hregroups, he'.unknown⟩
    simpa only [List.append_assoc] using hchain'

/-! ## Levels -/

/-- The components are a single one, with the expression as its value. -/
def WritesValue (cs : List Component) (e : Expr Float) : Prop :=
  ∃ c e', cs = [c] ∧ Value c e' ∧ Rereads e e'

/-- The components write the expression so that an operator of the given precedence may stand on
either side: as a sum, a product or a value. -/
def WritesAt : (level : Nat) → List Component → Expr Float → Prop
  | 0 | 1 => Chained (Sum Value) .add
  | 2 => Chained (Product Value) .mul
  | _ => WritesValue

/-- Components that satisfy `WritesValue` may stand behind an operator of products. -/
theorem WritesValue.joins {op : Operator} (hop : op.precedence = 2) (h : WritesValue cs e)
    {a : Expr Float} (hx : Product Value x a) (ha : a.quantity? = none) (hmid : IsSymbol op mid) :
    ∃ e', Product Value (x ++ (mid ++ cs)) e' ∧ Rereads (.binary op a e) e' := by
  obtain ⟨c, e', rfl, hvalue, he'⟩ := h
  refine ⟨_, Product.join hop hx hmid (.single hvalue), ?_⟩
  rw [combine_unknown op ha he'.unknown]
  exact .binary op (.refl a) he'.regroups

/-- A single value is a `Chained` product. -/
theorem WritesValue.product (h : WritesValue cs e) : Chained (Product Value) .mul cs e := by
  refine ⟨?_, fun hx ha hmid => h.joins rfl hx ha hmid⟩
  obtain ⟨c, e', rfl, hvalue, he'⟩ := h
  exact ⟨e', .operand (.single hvalue), he'⟩

/-- A `Chained` product may stand behind an operator of sums. -/
theorem Chained.joins {op : Operator} (hop : op.precedence = 1)
    (h : Chained (Product Value) .mul cs e) {a : Expr Float} (hx : Sum Value x a)
    (ha : a.quantity? = none) (hmid : IsSymbol op mid) :
    ∃ e', Sum Value (x ++ (mid ++ cs)) e' ∧ Rereads (.binary op a e) e' := by
  obtain ⟨e', hproduct, he'⟩ := h.alone
  refine ⟨_, Sum.join hop hx hmid hproduct, ?_⟩
  rw [combine_unknown op ha he'.unknown]
  exact .binary op (.refl a) he'.regroups

/-- A `Chained` product is a chained sum. -/
theorem Chained.sum (h : Chained (Product Value) .mul cs e) : Chained (Sum Value) .add cs e := by
  refine ⟨?_, fun hx ha hmid => h.joins rfl hx ha hmid⟩
  obtain ⟨e', hproduct, he'⟩ := h.alone
  exact ⟨e', .product hproduct, he'⟩

/-- Components that satisfy `WritesAt` a tighter level may stand where less is asked for. -/
theorem WritesAt.mono {level level' : Nat} (h : WritesAt level cs e) (hle : level' ≤ level) :
    WritesAt level' cs e := by
  match level, level', hle with
  | 0, 0, _ | 1, 0, _ | 1, 1, _ | 2, 2, _ => exact h
  | 2, 0, _ | 2, 1, _ => exact Chained.sum h
  | _ + 3, 0, _ | _ + 3, 1, _ => exact (WritesValue.product h).sum
  | _ + 3, 2, _ => exact WritesValue.product h
  | _ + 3, _ + 3, _ => exact h

/-- Operands at the levels that an operator asks for are written at its own level, as `WritesAt`
says. -/
theorem WritesAt.binary (op : Operator) (hl : WritesAt op.precedence x l) (hmid : IsSymbol op mid)
    (hr : WritesAt op.rightLevel y r) :
    WritesAt op.precedence (x ++ (mid ++ y)) (.binary op l r) := by
  -- `+` and `*` take a right operand of their own level, which goes on with the chain; behind `-`
  -- and `/` it is a single link.
  cases op with
  | add => exact Chained.extend rfl hl fun hx ha => Chained.behind hr hx ha hmid
  | sub => exact Chained.extend rfl hl fun hx ha => Chained.joins rfl hr hx ha hmid
  | mul => exact Chained.extend rfl hl fun hx ha => Chained.behind hr hx ha hmid
  | div => exact Chained.extend rfl hl fun hx ha => WritesValue.joins rfl hr hx ha hmid

/-! ## Blocks -/

variable {opener closer : Lexeme} {body : List Component}

/-- Components that satisfy `WritesAt` any level are read as a `Sum`. -/
theorem WritesAt.exists_sum {level : Nat} (h : WritesAt level cs e) :
    ∃ e', Sum Value cs e' ∧ Rereads e e' :=
  Chained.alone (h.mono (Nat.zero_le level) : WritesAt 0 cs e)

/-- Parentheses turn any level of `WritesAt` into a value. -/
theorem WritesAt.group {level : Nat} (hopener : opener.token = .opener .paren)
    (h : WritesAt level body e) : WritesValue [.block opener body closer] e := by
  obtain ⟨e', hsum, he'⟩ := h.exists_sum
  exact ⟨_, e', rfl, value_block_iff.mpr (.group hopener hsum), he'⟩

/-- The function of calculations turns any level of `WritesAt` into a value. -/
theorem WritesAt.calculation {level : Nat} (hopener : opener.token = .function "calc")
    (h : WritesAt level body e) : WritesValue [.block opener body closer] e := by
  obtain ⟨e', hsum, he'⟩ := h.exists_sum
  have hvalue : BlockValue Value opener body closer e' :=
    .calculation hopener (Text.sameIgnoringCase_refl _) hsum
  exact ⟨_, e', rfl, value_block_iff.mpr hvalue, he'⟩

/-- A reference to a custom property is a value of its own, as `WritesValue` says. -/
theorem writesValue_var (hopener : opener.token = .function "var") :
    WritesValue [.block opener body closer]
      (.verbatim (textAll [.block opener body closer])) := by
  refine ⟨_, _, rfl, value_block_iff.mpr (.verbatimFunction hopener ?_), .refl _, rfl⟩
  decide +kernel

/-- The components write the arguments, with commas between them. -/
def WritesAll (cs : List Component) (es : List (Expr Float)) : Prop :=
  ∃ es', Sums Value cs es' ∧ List.Forall₂ Rereads es es'

/-- One expression is a list of one for `WritesAll`. -/
theorem WritesAt.all {level : Nat} (h : WritesAt level cs e) : WritesAll cs [e] := by
  obtain ⟨e', hsum, he'⟩ := h.exists_sum
  exact ⟨[e'], .one hsum, .cons he' .nil⟩

theorem Sums.blankBefore {value : Component → Expr Float → Prop} {b : List Component}
    {es : List (Expr Float)} (hb : Blank b) (h : Sums value cs es) : Sums value (b ++ cs) es := by
  cases h with
  | one hx => exact .one (hx.blankBefore hb)
  | cons hx hcomma hy =>
    rw [← List.append_assoc]
    exact .cons (hx.blankBefore hb) hcomma hy

/-- Another expression, a comma and blanks may stand in front of what `WritesAll` relates. -/
theorem WritesAll.cons {level : Nat} {comma : Component} {b : List Component}
    {es : List (Expr Float)} (hx : WritesAt level x e) (hcomma : isToken .comma comma)
    (hb : Blank b) (hy : WritesAll y es) : WritesAll (x ++ comma :: (b ++ y)) (e :: es) := by
  obtain ⟨e', hsum, he'⟩ := hx.exists_sum
  obtain ⟨es', hsums, hes'⟩ := hy
  exact ⟨e' :: es', .cons hsum hcomma (hsums.blankBefore hb), .cons he' hes'⟩

/-- The `BlockValue` of a function is what `apply` makes of the sums inside. -/
theorem blockValue_apply {function : MathFunction} {es : List (Expr Float)}
    (hopener : opener.token = .function function.name) (hlength : function.Admits es.length)
    (hbody : Sums Value body es) : BlockValue Value opener body closer (apply function es) := by
  cases function with
  | min => exact .least hopener (Text.sameIgnoringCase_refl _) hbody
  | max => exact .greatest hopener (Text.sameIgnoringCase_refl _) hbody
  | clamp =>
    obtain ⟨low, middle, high, rfl⟩ := List.length_eq_three.mp hlength
    exact .clamp hopener (Text.sameIgnoringCase_refl _) hbody

/-- A function of arguments that `WritesAll` says are written is a value. -/
theorem WritesAll.call {function : MathFunction} {es : List (Expr Float)}
    (hopener : opener.token = .function function.name) (hlength : function.Admits es.length)
    (h : WritesAll body es) : WritesValue [.block opener body closer] (.call function es) := by
  obtain ⟨es', hsums, hes'⟩ := h
  have hlength' : function.Admits es'.length := hes'.length_eq ▸ hlength
  -- Arguments that are read back are unknown, one by one.
  have hunknown : ∀ e ∈ es', e.quantity? = none :=
    ((List.forall₂_and_left _ _).mp (hes'.flip.imp fun _ _ h => ⟨h.unknown, h⟩)).1
  -- The grammar applies the function, and on unknown arguments that is the call itself.
  have hvalue : BlockValue Value opener body closer (apply function es') :=
    blockValue_apply hopener hlength' hsums
  rw [apply_unknown hlength' hunknown] at hvalue
  refine ⟨_, _, rfl, value_block_iff.mpr hvalue, .call function ?_, rfl⟩
  exact hes'.imp fun _ _ h => h.regroups

end Grammar

end ThemeColor
