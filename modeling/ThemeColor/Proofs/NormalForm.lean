import Mathlib.Algebra.Order.BigOperators.Group.List
import Mathlib.Algebra.Order.Ring.Nat
import ThemeColor.Proofs.FoldingRules
import ThemeColor.Proofs.Negation

/-!
# Normal forms

An expression is normal if no rule of folding applies to any of its nodes. These are exactly the
expressions that simplifying leaves alone (`Expr.simplify_eq_self_iff`). One pass of simplifying
nearly makes an expression normal: where a known zero minus a negative value of another unit was
turned into a sum, the zero is left on the left of it (`Expr.IsLeftover`), and the next pass drops
it.

## Main definitions

* `Expr.nodes`: the nodes of an expression, each with all that is below it;
* `Expr.IsNormal`: no rule applies to any node;
* `Expr.IsLeftover`: the sum of a known zero and a known value of another unit;
* `Expr.LosesZero`: a difference that is simplified to such a sum.

## Main results

* `Expr.simplify_eq_self_iff`: simplifying leaves exactly the normal expressions alone;
* `Expr.simplify_simplify_eq_iff`: exactly when a second pass changes nothing.
-/

namespace ThemeColor.Expr

variable {α : Type}

/-! ## Parts and nodes -/

/-- The expressions that stand directly below the root. -/
def parts : Expr α → List (Expr α)
  | .quantity _ => []
  | .verbatim _ => []
  | .binary _ lhs rhs => [lhs, rhs]
  | .call _ args => args

/-- The same root over other parts. -/
def mapParts (f : Expr α → Expr α) : Expr α → Expr α
  | .quantity q => .quantity q
  | .verbatim text => .verbatim text
  | .binary op lhs rhs => .binary op (f lhs) (f rhs)
  | .call function args => .call function (args.map f)

mutual

/-- The nodes of the tree, each with all that is below it. -/
def nodes : Expr α → List (Expr α)
  | .quantity q => [.quantity q]
  | .verbatim text => [.verbatim text]
  | .binary op lhs rhs => .binary op lhs rhs :: (nodes lhs ++ nodes rhs)
  | .call function args => .call function args :: nodesAll args

/-- The nodes of some trees. -/
def nodesAll : List (Expr α) → List (Expr α)
  | [] => []
  | e :: es => nodes e ++ nodesAll es

end

theorem nodesAll_eq_flatMap (es : List (Expr α)) : nodesAll es = es.flatMap nodes := by
  induction es with
  | nil => rfl
  | cons e es ih => rw [nodesAll, ih, List.flatMap_cons]

/-- The `nodes` of an expression are the expression and the nodes of its `parts`. -/
theorem nodes_eq (e : Expr α) : e.nodes = e :: e.parts.flatMap nodes := by
  cases e with
  | quantity q => rfl
  | verbatim text => rfl
  | binary op lhs rhs => simp [nodes, parts]
  | call function args => rw [nodes, nodesAll_eq_flatMap, parts]

theorem mem_nodes_iff {n e : Expr α} : n ∈ e.nodes ↔ n = e ∨ ∃ p ∈ e.parts, n ∈ p.nodes := by
  rw [nodes_eq, List.mem_cons, List.mem_flatMap]

mutual

/-- What carries over from the `parts` to the whole holds of every expression. -/
theorem induction_on_parts {P : Expr α → Prop} (h : ∀ e, (∀ p ∈ e.parts, P p) → P e) :
    ∀ e, P e
  | .quantity q => h _ (by simp [parts])
  | .verbatim text => h _ (by simp [parts])
  | .binary op lhs rhs => h _ (List.forall_mem_cons.mpr ⟨induction_on_parts h lhs,
      List.forall_mem_cons.mpr ⟨induction_on_parts h rhs, by simp⟩⟩)
  | .call function args => h _ (induction_on_parts_all h args)

theorem induction_on_parts_all {P : Expr α → Prop} (h : ∀ e, (∀ p ∈ e.parts, P p) → P e) :
    ∀ es : List (Expr α), ∀ e ∈ es, P e
  | [] => by simp
  | e :: es => List.forall_mem_cons.mpr ⟨induction_on_parts h e, induction_on_parts_all h es⟩

end

/-- Changing the parts with `mapParts` changes nothing exactly if no part changes. -/
theorem mapParts_eq_self_iff {f : Expr α → Expr α} {e : Expr α} :
    e.mapParts f = e ↔ ∀ p ∈ e.parts, f p = p := by
  cases e with
  | quantity q => simp [mapParts, parts]
  | verbatim text => simp [mapParts, parts]
  | binary op lhs rhs => simp [mapParts, parts]
  | call function args =>
    have hmap : args.map f = args.map id ↔ ∀ p ∈ args, f p = p := List.map_inj_left
    rw [List.map_id] at hmap
    simp [mapParts, parts, hmap]

/-- The `parts` behind `mapParts` are the changed parts. -/
theorem parts_mapParts (f : Expr α → Expr α) (e : Expr α) :
    (e.mapParts f).parts = e.parts.map f := by
  cases e <;> rfl

theorem nodeCountAll_eq_sum (es : List (Expr α)) : nodeCountAll es = (es.map nodeCount).sum := by
  induction es with
  | nil => rfl
  | cons e es ih => rw [nodeCountAll, ih, List.map_cons, List.sum_cons]

/-- The `nodeCount` of an expression is that of its parts and one more. -/
theorem nodeCount_eq (e : Expr α) : e.nodeCount = 1 + (e.parts.map nodeCount).sum := by
  cases e with
  | quantity q => rfl
  | verbatim text => rfl
  | binary op lhs rhs => simp [nodeCount, parts, Nat.add_assoc]
  | call function args => rw [nodeCount, nodeCountAll_eq_sum, parts]

/-- A part has fewer nodes than the whole. -/
theorem nodeCount_lt_of_mem_parts {p e : Expr α} (h : p ∈ e.parts) :
    p.nodeCount < e.nodeCount := by
  have hle : p.nodeCount ≤ (e.parts.map nodeCount).sum :=
    List.le_sum_of_mem (List.mem_map_of_mem h)
  rw [nodeCount_eq e]
  omega

/-- Changing the parts with `mapParts` adds no nodes if it adds none to a part. -/
theorem nodeCount_mapParts_le {f : Expr α → Expr α} {e : Expr α}
    (h : ∀ p ∈ e.parts, (f p).nodeCount ≤ p.nodeCount) :
    (e.mapParts f).nodeCount ≤ e.nodeCount := by
  rw [nodeCount_eq (e.mapParts f), nodeCount_eq e, parts_mapParts, List.map_map]
  exact Nat.add_le_add_left (List.sum_le_sum h) 1

/-! ## Rules and parts -/

variable [Scalar α]

/-- A leaf does not fold, as every rule of `Folds` is about a node with parts. -/
theorem Folds.parts_ne_nil {e e' : Expr α} (h : Folds e e') : e.parts ≠ [] := by
  cases h <;> simp_all [parts]

/-- A leaf does not turn, as every rule of `Turns` is about a node with parts. -/
theorem Turns.parts_ne_nil {e e' : Expr α} (h : Turns e e') : e.parts ≠ [] := by
  cases h
  simp [parts]

/-- A node `Folds` to one of its parts or to a known value. -/
theorem Folds.mem_parts_or_exists {e e' : Expr α} (h : Folds e e') :
    e' ∈ e.parts ∨ ∃ q, e' = .quantity q := by
  cases h <;> simp [parts, number]

/-- Every rule of `Folds` makes the tree smaller. -/
theorem Folds.nodeCount_lt {e e' : Expr α} (h : Folds e e') : e'.nodeCount < e.nodeCount := by
  rcases h.mem_parts_or_exists with hmem | ⟨q, rfl⟩
  · exact nodeCount_lt_of_mem_parts hmem
  · obtain ⟨p, hp⟩ := List.exists_mem_of_ne_nil _ h.parts_ne_nil
    have hlt := nodeCount_lt_of_mem_parts hp
    have hpos := nodeCount_eq p
    rw [nodeCount]
    omega

/-- A `Rebuilt` node is no larger than it was. -/
theorem Rebuilt.nodeCount_le {e e' : Expr α} (h : Rebuilt e e') : e'.nodeCount ≤ e.nodeCount := by
  cases h with
  | folded h => exact Nat.le_of_lt h.nodeCount_lt
  | turned _ h =>
    cases h
    exact Nat.le_refl _
  | kept => exact Nat.le_refl _

/-- No rule applies to the node itself. -/
def IsSettled (e : Expr α) : Prop := ¬ Foldable e ∧ ¬ Turnable e

/-- A leaf satisfies `IsSettled`, as the rules are about nodes with parts. -/
theorem isSettled_of_parts_eq_nil {e : Expr α} (h : e.parts = []) : e.IsSettled := by
  constructor
  · rintro ⟨_, hfolds⟩
    exact hfolds.parts_ne_nil h
  · rintro ⟨_, hturns⟩
    exact hturns.parts_ne_nil h

/-- The function `simplify` applies a rule to the root over the simplified parts whenever there is
one. -/
theorem rebuilt_simplify (e : Expr α) : Rebuilt (e.mapParts simplify) (simplify e) := by
  cases e with
  | quantity q =>
    have hleaf := isSettled_of_parts_eq_nil (e := .quantity q) rfl
    rw [simplify]
    exact .kept hleaf.1 hleaf.2
  | verbatim text =>
    have hleaf := isSettled_of_parts_eq_nil (e := (.verbatim text : Expr α)) rfl
    rw [simplify]
    exact .kept hleaf.1 hleaf.2
  | binary op lhs rhs =>
    rw [simplify]
    exact rebuilt_combine op _ _
  | call function args =>
    rw [simplify, simplifyAll_eq_map]
    exact rebuilt_apply function _

/-- The function `simplify` never makes a tree larger. -/
theorem nodeCount_simplify_le (e : Expr α) : (simplify e).nodeCount ≤ e.nodeCount := by
  induction e using induction_on_parts with
  | h e ih => exact (rebuilt_simplify e).nodeCount_le.trans (nodeCount_mapParts_le ih)

/-! ## Normal expressions -/

/-- No rule applies to any node. -/
def IsNormal (e : Expr α) : Prop := ∀ n ∈ e.nodes, n.IsSettled

/-- An expression satisfies `IsNormal` exactly if its root is settled and its parts are normal. -/
theorem isNormal_iff {e : Expr α} : e.IsNormal ↔ e.IsSettled ∧ ∀ p ∈ e.parts, p.IsNormal := by
  constructor
  · intro h
    exact ⟨h e (mem_nodes_iff.mpr (.inl rfl)),
      fun p hp n hn => h n (mem_nodes_iff.mpr (.inr ⟨p, hp, hn⟩))⟩
  · rintro ⟨hsettled, hparts⟩ n hn
    rcases mem_nodes_iff.mp hn with rfl | ⟨p, hp, hn⟩
    · exact hsettled
    · exact hparts p hp n hn

/-- A node that satisfies `IsSettled` is `Rebuilt` as it is. -/
theorem Rebuilt.eq_self {e e' : Expr α} (h : Rebuilt e e') (hsettled : e.IsSettled) : e' = e := by
  cases h with
  | folded h => exact absurd ⟨e', h⟩ hsettled.1
  | turned _ h => exact absurd ⟨e', h⟩ hsettled.2
  | kept => rfl

/-- A normal expression, by `IsNormal`, is left alone by `simplify`. -/
theorem simplify_eq_self {e : Expr α} (h : e.IsNormal) : simplify e = e := by
  induction e using induction_on_parts with
  | h e ih =>
    obtain ⟨hsettled, hparts⟩ := isNormal_iff.mp h
    have hsame := mapParts_eq_self_iff.mpr fun p hp => ih p hp (hparts p hp)
    have hrebuilt := rebuilt_simplify e
    rw [hsame] at hrebuilt
    exact hrebuilt.eq_self hsettled

/-- A node that `Turns` changes its operator, which `mapParts` does not. -/
theorem not_turns_mapParts {f : Expr α → Expr α} (e : Expr α) : ¬ Turns (e.mapParts f) e := by
  intro h
  cases e with
  | quantity q => cases h
  | verbatim text => cases h
  | binary op lhs rhs =>
    rw [mapParts] at h
    generalize f lhs = lhs', f rhs = rhs' at h
    cases h with
    | negative hop => cases op <;> cases hop
  | call function args => cases h

/-- An expression that `simplify` leaves alone satisfies `IsNormal`. -/
theorem isNormal_of_simplify_eq_self {e : Expr α} (h : simplify e = e) : e.IsNormal := by
  induction e using induction_on_parts with
  | h e ih =>
    have hle := nodeCount_mapParts_le fun p (_ : p ∈ e.parts) => nodeCount_simplify_le p
    have hrebuilt := rebuilt_simplify e
    rw [h] at hrebuilt
    generalize hparts : e.mapParts simplify = e' at hrebuilt hle
    -- The root cannot have been folded, which makes it smaller, nor turned: only its parts change.
    cases hrebuilt with
    | folded hfolds => exact absurd hle (Nat.not_le_of_lt hfolds.nodeCount_lt)
    | turned _ hturns => exact absurd (hparts ▸ hturns) (not_turns_mapParts e)
    | kept hfold hturn =>
      exact isNormal_iff.mpr
        ⟨⟨hfold, hturn⟩, fun p hp => ih p hp (mapParts_eq_self_iff.mp hparts p hp)⟩

/-- The function `simplify` leaves exactly the expressions alone that satisfy `IsNormal`. -/
theorem simplify_eq_self_iff {e : Expr α} : simplify e = e ↔ e.IsNormal :=
  ⟨isNormal_of_simplify_eq_self, simplify_eq_self⟩

/-! ## What one pass leaves -/

/-- The sum of a known zero and a known value of another unit. -/
def IsLeftover (e : Expr α) : Prop :=
  ∃ a b, e = .binary .add (.quantity a) (.quantity b) ∧ a.value == 0.0 ∧ a.unit ≠ b.unit

/-- A known zero minus a known negative value of another unit. -/
def IsZeroMinusNegative (e : Expr α) : Prop :=
  ∃ a b, e = .binary .sub (.quantity a) (.quantity b) ∧
    a.value == 0.0 ∧ b.value < 0.0 ∧ a.unit ≠ b.unit

/-- With simplified parts the node is a known zero minus a known negative value of another unit. -/
def LosesZero (e : Expr α) : Prop := (e.mapParts simplify).IsZeroMinusNegative

/-- A leftover sum, by `IsLeftover`, can be folded. -/
theorem IsLeftover.foldable {e : Expr α} (h : e.IsLeftover) : e.Foldable := by
  obtain ⟨a, b, rfl, hzero, -⟩ := h
  exact ⟨_, .zeroAdd hzero⟩

/-- No rule applies to a node that `Turns` has made, except that a zero on the left of a sum may be
left. -/
theorem Turns.isSettled_or {e e' : Expr Float} (hfold : ¬ e.Foldable) (h : Turns e e') :
    e'.IsSettled ∨ (e'.IsLeftover ∧ e.IsZeroMinusNegative) := by
  cases h with
  | @negative op opposite lhs q hop hneg =>
    have hturn : ¬ Turnable (.binary opposite lhs (.quantity ⟨-q.value, q.unit⟩)) := by
      rintro ⟨_, ⟨-, h⟩⟩
      exact Number.neg_not_lt_zero hneg h
    -- Had the turned node known values of one unit, then so had the node before it.
    cases op with
    | add =>
      cases hop
      refine .inl ⟨?_, hturn⟩
      rintro ⟨_, h⟩
      cases h with
      | sub hunit => exact hfold ⟨_, .add hunit⟩
      | subZero hzero => exact Number.neg_ne_zero hneg hzero
    | sub =>
      cases hop
      -- A difference keeps a zero on its left, but the sum it is turned into would drop it.
      by_cases hlhs : lhs.isZero
      · obtain ⟨a, rfl, hzero⟩ := exists_of_isZero hlhs
        have hunit : a.unit ≠ q.unit := fun h => hfold ⟨_, .sub h⟩
        exact .inr ⟨⟨a, _, rfl, hzero, hunit⟩, a, q, rfl, hzero, hneg, hunit⟩
      · refine .inl ⟨?_, hturn⟩
        rintro ⟨_, h⟩
        cases h with
        | add hunit => exact hfold ⟨_, .sub hunit⟩
        | addZero hzero => exact Number.neg_ne_zero hneg hzero
        | zeroAdd hzero => exact hlhs hzero
    | mul => cases hop
    | div => cases hop

/-- The only node of a known value satisfies `IsSettled`. -/
theorem isSettled_of_mem_nodes_quantity {q : Quantity α} {n : Expr α}
    (h : n ∈ (quantity q).nodes) : n.IsSettled := by
  obtain rfl := List.mem_singleton.mp h
  exact isSettled_of_parts_eq_nil rfl

/-- The nodes of a `Rebuilt` node are settled, or come from a part, or the node is a leftover sum.
-/
theorem Rebuilt.isSettled_or {e e' n : Expr Float} (h : Rebuilt e e') (hn : n ∈ e'.nodes) :
    n.IsSettled ∨ (∃ p ∈ e.parts, n ∈ p.nodes) ∨ (n.IsLeftover ∧ e.IsZeroMinusNegative) := by
  cases h with
  | folded h =>
    rcases h.mem_parts_or_exists with hmem | ⟨q, rfl⟩
    · exact .inr (.inl ⟨e', hmem, hn⟩)
    · exact .inl (isSettled_of_mem_nodes_quantity hn)
  | turned hfold h =>
    rcases mem_nodes_iff.mp hn with rfl | ⟨p, hp, hpart⟩
    · exact (h.isSettled_or hfold).imp_right .inr
    · cases h with
      | negative =>
        rcases List.mem_pair.mp hp with rfl | rfl
        · exact .inr (.inl ⟨p, by simp [parts], hpart⟩)
        · exact .inl (isSettled_of_mem_nodes_quantity hpart)
  | kept hfold hturn =>
    rcases mem_nodes_iff.mp hn with rfl | hpart
    · exact .inl ⟨hfold, hturn⟩
    · exact .inr (.inl hpart)

/-- The nodes that one pass of `simplify` leaves are settled, except for leftover sums. -/
theorem isSettled_or_of_mem_nodes_simplify (e : Expr Float) :
    ∀ n ∈ (simplify e).nodes, n.IsSettled ∨ (n.IsLeftover ∧ ∃ m ∈ e.nodes, m.LosesZero) := by
  induction e using induction_on_parts with
  | h e ih =>
    intro n hn
    rcases (rebuilt_simplify e).isSettled_or hn with hsettled | ⟨p, hp, hn⟩ | ⟨hleftover, hloses⟩
    · exact .inl hsettled
    · rw [parts_mapParts] at hp
      obtain ⟨part, hpart, rfl⟩ := List.mem_map.mp hp
      rcases ih part hpart n hn with hsettled | ⟨hleftover, m, hm, hloses⟩
      · exact .inl hsettled
      · exact .inr ⟨hleftover, m, mem_nodes_iff.mpr (.inr ⟨part, hpart, hm⟩), hloses⟩
    · exact .inr ⟨hleftover, e, mem_nodes_iff.mpr (.inl rfl), hloses⟩

/-- Exactly when a second pass changes nothing: one pass has to make the expression normal, that is
to leave no sum of a known zero and a known value of another unit. It does so whenever no difference
of the expression is one of a known zero and a negative value of another unit. -/
theorem simplify_simplify_eq_iff (e : Expr Float) :
    (simplify (simplify e) = simplify e ↔ (simplify e).IsNormal) ∧
    ((simplify e).IsNormal ↔ ∀ n ∈ (simplify e).nodes, ¬ n.IsLeftover) ∧
    ((∀ n ∈ e.nodes, ¬ n.LosesZero) → (simplify e).IsNormal) := by
  have hnodes := isSettled_or_of_mem_nodes_simplify e
  refine ⟨simplify_eq_self_iff, ⟨fun h n hn hleftover => (h n hn).1 hleftover.foldable, ?_⟩, ?_⟩
  · intro h n hn
    exact (hnodes n hn).resolve_right fun hleftover => h n hn hleftover.1
  · intro h n hn
    refine (hnodes n hn).resolve_right ?_
    rintro ⟨-, m, hm, hloses⟩
    exact h m hm hloses

/-- The sum `var(--a) + (0 - 5%)` has a zero on the left of a difference, but nothing is turned. -/
theorem simplify_simplify_eq_iff_difference :
    let e : Expr Float := .binary .add (.var "--a") (.binary .sub (.number 0.0) (.percent 5.0))
    (∀ n ∈ e.nodes, ¬ n.LosesZero) ∧ (simplify e).IsNormal := by
  intro e
  have h : ∀ n ∈ e.nodes, ¬ n.LosesZero := by
    simp only [e, nodes, var, number, percent, List.mem_cons, List.mem_append, List.not_mem_nil,
      or_false]
    rintro n (rfl | rfl | rfl | rfl | rfl) ⟨a, b, h, -, hneg, -⟩
    · cases h
    · cases h
    · cases h
      exact absurd hneg (by decide)
    · cases h
    · cases h
  exact ⟨h, (simplify_simplify_eq_iff e).2.2 h⟩

/-- The difference `0 - -5%` is simplified to `0 + 5%`, and that to `5%`. -/
theorem simplify_simplify_ne_zero_sub :
    simplify (simplify (.binary .sub (.number 0.0) (.percent (-5.0)) : Expr Float)) ≠
      simplify (.binary .sub (.number 0.0) (.percent (-5.0))) := by
  have hfirst : simplify (.binary .sub (.number 0.0) (.percent (-5.0)) : Expr Float) =
      .binary .add (.number 0.0) (.percent 5.0) := by rfl
  have hsecond : simplify (.binary .add (.number 0.0) (.percent 5.0) : Expr Float) =
      .percent 5.0 := by rfl
  rw [hfirst, hsecond]
  intro h
  cases h

end ThemeColor.Expr
