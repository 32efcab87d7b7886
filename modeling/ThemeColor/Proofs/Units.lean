import ThemeColor.Proofs.FoldingRules
import ThemeColor.Proofs.Resolution

/-!
# Units of expressions and colors

The unit of an expression follows from the units of its leaves: a known value has its own unit, and
that of a verbatim text is given by an assignment. Sums and comparisons are of one unit, at most one
factor of a product has a unit, and a divisor has none or that of the dividend. A `UnitRule` may
also let several units count as one.

Folding drops operands, turns signs around, cancels units and replaces a product by a zero of the
unit that the product is known to have. None of this changes the unit, so a color whose fields have
the units of their places is resolved to one whose fields have them.

## Main results

* `Expr.HasUnit.eq_of_unit?`: the unit that is known of an expression is the one that it has;
* `Expr.HasUnit.combine`, `Expr.HasUnit.apply`, `Expr.HasUnit.simplify`: folding keeps units;
* `Palette.Resolves.hasUnits`: so does resolving a color;
* `resolve_hasUnits`: all of it for the common names.
-/

namespace ThemeColor

/-- What the units of the leaves of an expression count as. -/
structure UnitRule where
  /-- What the unit of a verbatim text is taken to be. -/
  text : String → String
  /-- What the unit of a known value counts as. -/
  known : String → String
  /-- Nothing but a plain number counts as a plain number. -/
  known_eq_empty_iff : ∀ {unit}, known unit = "" ↔ unit = ""
  /-- A percentage counts as itself. -/
  known_percent : known "%" = "%"

/-- Each known value has its own unit, and `unitOf` gives the units of verbatim texts. -/
def UnitRule.own (unitOf : String → String) : UnitRule where
  text := unitOf
  known := id
  known_eq_empty_iff := Iff.rfl
  known_percent := rfl

/-- No rule knows the empty unit as another one. -/
theorem UnitRule.known_empty (rule : UnitRule) : rule.known "" = "" :=
  rule.known_eq_empty_iff.mpr rfl

/-- A quantity without a unit is one whose unit is `known` as none, under every `UnitRule`. -/
theorem UnitRule.isUnitless_iff (rule : UnitRule) {α : Type} {q : Quantity α} :
    q.isUnitless ↔ rule.known q.unit = "" := by
  rw [Quantity.isUnitless, beq_iff_eq, rule.known_eq_empty_iff]

namespace Expr

variable {α : Type}

/-- The expression has the unit, going by the rule for its leaves. -/
inductive HasUnit (rule : UnitRule) : Expr α → (unit : String) → Prop
  | quantity (q : Quantity α) : HasUnit rule (.quantity q) (rule.known q.unit)
  | verbatim (text : String) : HasUnit rule (.verbatim text) (rule.text text)
  | sum {lhs rhs : Expr α} {unit : String} (hl : HasUnit rule lhs unit)
      (hr : HasUnit rule rhs unit) : HasUnit rule (.binary .add lhs rhs) unit
  | difference {lhs rhs : Expr α} {unit : String} (hl : HasUnit rule lhs unit)
      (hr : HasUnit rule rhs unit) : HasUnit rule (.binary .sub lhs rhs) unit
  | timesNumber {lhs rhs : Expr α} {unit : String} (hl : HasUnit rule lhs unit)
      (hr : HasUnit rule rhs "") : HasUnit rule (.binary .mul lhs rhs) unit
  | numberTimes {lhs rhs : Expr α} {unit : String} (hl : HasUnit rule lhs "")
      (hr : HasUnit rule rhs unit) : HasUnit rule (.binary .mul lhs rhs) unit
  | overNumber {lhs rhs : Expr α} {unit : String} (hl : HasUnit rule lhs unit)
      (hr : HasUnit rule rhs "") : HasUnit rule (.binary .div lhs rhs) unit
  | ratio {lhs rhs : Expr α} {unit : String} (hl : HasUnit rule lhs unit)
      (hr : HasUnit rule rhs unit) : HasUnit rule (.binary .div lhs rhs) ""
  | call {function : MathFunction} {args : List (Expr α)} {unit : String} (hne : args ≠ [])
      (hargs : ∀ e ∈ args, HasUnit rule e unit) : HasUnit rule (.call function args) unit

variable {rule : UnitRule} {e lhs rhs : Expr α} {unit : String}

/-- A quantity `HasUnit` what its unit is `known` as. -/
theorem hasUnit_quantity_iff {q : Quantity α} :
    HasUnit rule (.quantity q) unit ↔ rule.known q.unit = unit := by
  constructor
  · rintro ⟨⟩
    rfl
  · rintro rfl
    exact .quantity q

/-- Another value keeps what a quantity `HasUnit`. -/
theorem HasUnit.withValue {q : Quantity α} (h : HasUnit rule (.quantity q) unit) (x : α) :
    HasUnit rule (.quantity ⟨x, q.unit⟩) unit := by
  rw [hasUnit_quantity_iff] at h ⊢
  exact h

/-- A `number` has no unit. -/
theorem hasUnit_number (x : α) : (number x).HasUnit rule "" :=
  hasUnit_quantity_iff.mpr rule.known_empty

/-- A `percent` has the unit `%`. -/
theorem hasUnit_percent (x : α) : (percent x).HasUnit rule "%" :=
  hasUnit_quantity_iff.mpr rule.known_percent

/-! ## The unit that is known -/

/-- The unit that `firstUnit?` finds is known of one of the expressions. -/
theorem exists_of_firstUnit? {es : List (Expr α)} (h : firstUnit? es = some unit) :
    ∃ e ∈ es, e.unit? = some unit := by
  induction es with
  | nil =>
    rw [firstUnit?] at h
    cases h
  | cons e es ih =>
    rw [firstUnit?] at h
    rcases Option.or_eq_some_iff.mp h with h | ⟨-, h⟩
    · exact ⟨e, List.mem_cons_self, h⟩
    · obtain ⟨e', he', h⟩ := ih h
      exact ⟨e', List.mem_cons_of_mem e he', h⟩

/-- The unit that `unit?` knows of an expression is the one that it has. -/
theorem HasUnit.eq_of_unit? (h : HasUnit rule e unit) {known : String}
    (hknown : e.unit? = some known) : rule.known known = unit := by
  induction h generalizing known with
  | quantity q =>
    rw [unit?] at hknown
    cases hknown
    rfl
  | verbatim text =>
    rw [unit?] at hknown
    cases hknown
  | sum _ _ ihl ihr | difference _ _ ihl ihr =>
    rw [unit?] at hknown
    rcases Option.or_eq_some_iff.mp hknown with hknown | ⟨-, hknown⟩
    · exact ihl hknown
    · exact ihr hknown
  | timesNumber _ _ ihl ihr =>
    rw [unit?] at hknown
    unfold productUnit? at hknown
    split at hknown
    · rename_i hl
      -- Both factors count as plain numbers here.
      exact (ihr hknown).trans (rule.known_empty.symm.trans (ihl hl))
    · exact ihl hknown
    · cases hknown
  | numberTimes _ _ ihl ihr =>
    rw [unit?] at hknown
    unfold productUnit? at hknown
    split at hknown
    · exact ihr hknown
    · rename_i hr _
      exact (ihl hknown).trans (rule.known_empty.symm.trans (ihr hr))
    · cases hknown
  | overNumber _ _ ihl ihr =>
    rw [unit?] at hknown
    unfold quotientUnit? at hknown
    split at hknown
    · exact ihl hknown
    · cases hknown
  | ratio _ _ ihl ihr =>
    rw [unit?] at hknown
    unfold quotientUnit? at hknown
    split at hknown
    · rename_i hr
      -- A divisor without a unit has that of the dividend.
      exact (ihl hknown).trans ((ihr hr).symm.trans rule.known_empty)
    · cases hknown
  | call _ _ ih =>
    rw [unit?] at hknown
    obtain ⟨e, he, hknown⟩ := exists_of_firstUnit? hknown
    exact ih e he hknown

/-! ## Folding -/

variable [Scalar α]

/-- What `isNumber` tells to be a number has no unit. -/
theorem HasUnit.eq_of_isNumber {x : α} (h : HasUnit rule e unit) (hx : e.isNumber x) :
    unit = "" := by
  obtain ⟨y, hy, -⟩ := (Option.any_eq_true _ _).mp hx
  rw [number?_eq_some_iff.mp hy, number, hasUnit_quantity_iff] at h
  exact h.symm.trans rule.known_empty

omit [Scalar α] in
/-- Where one factor is a plain number, the other one has the unit of the product. -/
theorem HasUnit.exists_of_product (h : HasUnit rule (.binary .mul lhs rhs) unit) :
    ∃ left right, HasUnit rule lhs left ∧ HasUnit rule rhs right ∧
      (left = "" → right = unit) ∧ (right = "" → left = unit) := by
  cases h with
  | timesNumber hl hr => exact ⟨_, _, hl, hr, Eq.symm, fun _ => rfl⟩
  | numberTimes hl hr => exact ⟨_, _, hl, hr, fun _ => rfl, Eq.symm⟩

omit [Scalar α] in
/-- A quotient by a plain number has the unit of the dividend, and any other one has none. -/
theorem HasUnit.exists_of_quotient (h : HasUnit rule (.binary .div lhs rhs) unit) :
    ∃ left right, HasUnit rule lhs left ∧ HasUnit rule rhs right ∧
      (right = "" → left = unit) ∧ (right ≠ "" → unit = "") := by
  cases h with
  | overNumber hl hr => exact ⟨_, _, hl, hr, fun _ => rfl, fun hne => absurd rfl hne⟩
  | ratio hl hr => exact ⟨_, _, hl, hr, id, fun _ => rfl⟩

omit [Scalar α] in
/-- A quantity that `isUnitless` has no unit. -/
theorem HasUnit.eq_of_isUnitless {q : Quantity α} (h : HasUnit rule (.quantity q) unit)
    (hq : q.isUnitless) : unit = "" :=
  (hasUnit_quantity_iff.mp h).symm.trans (rule.isUnitless_iff.mp hq)

omit [Scalar α] in
/-- The quotient of known values of one unit has none. -/
theorem HasUnit.eq_empty_of_ratio {a b : Quantity α}
    (h : HasUnit rule (.binary .div (.quantity a) (.quantity b)) unit) (hsame : a.unit = b.unit) :
    unit = "" := by
  obtain ⟨left, right, hl, hr, hnumber, hratio⟩ := h.exists_of_quotient
  rw [hasUnit_quantity_iff] at hl hr
  have hleft : left = right := by rw [← hl, ← hr, hsame]
  by_cases hempty : right = ""
  · rw [← hnumber hempty, hleft, hempty]
  · exact hratio hempty

/-- Every rule of `Folds` keeps the unit, one case for each rule. -/
theorem HasUnit.of_folds {e' : Expr α} (h : HasUnit rule e unit) (hfolds : Folds e e') :
    HasUnit rule e' unit := by
  cases hfolds with
  | add =>
    cases h with
    | sum hl hr => exact hl.withValue _
  | addZero =>
    cases h with
    | sum hl hr => exact hl
  | zeroAdd =>
    cases h with
    | sum hl hr => exact hr
  | sub =>
    cases h with
    | difference hl hr => exact hl.withValue _
  | subZero =>
    cases h with
    | difference hl hr => exact hl
  -- A factor without a unit leaves that of the other factor.
  | numberMul hunitless =>
    obtain ⟨_, _, hl, hr, hright, -⟩ := h.exists_of_product
    exact hright (hl.eq_of_isUnitless hunitless) ▸ hr.withValue _
  | mulNumber hunitless =>
    obtain ⟨_, _, hl, hr, -, hleft⟩ := h.exists_of_product
    exact hleft (hr.eq_of_isUnitless hunitless) ▸ hl.withValue _
  | oneMul hone =>
    obtain ⟨_, _, hl, hr, hright, -⟩ := h.exists_of_product
    exact hright (hl.eq_of_isNumber hone) ▸ hr
  | mulOne hone =>
    obtain ⟨_, _, hl, hr, -, hleft⟩ := h.exists_of_product
    exact hleft (hr.eq_of_isNumber hone) ▸ hl
  | zeroMul hzero hunit =>
    obtain ⟨_, _, hl, hr, hright, -⟩ := h.exists_of_product
    rw [hasUnit_quantity_iff, ← hright (hl.eq_of_isNumber hzero)]
    exact hr.eq_of_unit? hunit
  | mulZero hzero hunit =>
    obtain ⟨_, _, hl, hr, -, hleft⟩ := h.exists_of_product
    rw [hasUnit_quantity_iff, ← hleft (hr.eq_of_isNumber hzero)]
    exact hl.eq_of_unit? hunit
  | divNumber _ hunitless =>
    obtain ⟨_, _, hl, hr, hnumber, -⟩ := h.exists_of_quotient
    exact hnumber (hr.eq_of_isUnitless hunitless) ▸ hl.withValue _
  | divSame _ hsame =>
    rw [h.eq_empty_of_ratio hsame]
    exact hasUnit_number _
  | divOne hone =>
    obtain ⟨_, _, hl, hr, hnumber, -⟩ := h.exists_of_quotient
    exact hnumber (hr.eq_of_isNumber hone) ▸ hl
  | only =>
    cases h with
    | call hne hargs => exact hargs _ List.mem_cons_self
  -- The best one takes the unit of the first one.
  | best _ hargs =>
    subst hargs
    cases h with
    | call hne hargs => exact (hargs _ List.mem_cons_self).withValue _
  | clamp =>
    cases h with
    | call hne hargs => exact (hargs _ (List.mem_cons_of_mem _ List.mem_cons_self)).withValue _

/-- Rebuilding a node with `Rebuilt` keeps its unit. -/
theorem HasUnit.of_rebuilt {e' : Expr α} (h : HasUnit rule e unit) (hrebuilt : Rebuilt e e') :
    HasUnit rule e' unit := by
  cases hrebuilt with
  | folded hfolds => exact h.of_folds hfolds
  | turned _ hturns =>
    cases hturns with
    | @negative op opposite e q hop =>
      cases op with
      | add =>
        cases hop
        cases h with
        | sum hl hr => exact .difference hl (hr.withValue _)
      | sub =>
        cases hop
        cases h with
        | difference hl hr => exact .sum hl (hr.withValue _)
      | mul => cases hop
      | div => cases hop
  | kept => exact h

/-- Joining two expressions with `Expr.combine` keeps the unit of the node. -/
theorem HasUnit.combine {op : Operator} (h : HasUnit rule (.binary op lhs rhs) unit) :
    HasUnit rule (combine op lhs rhs) unit :=
  h.of_rebuilt (rebuilt_combine op lhs rhs)

/-- Applying a function with `Expr.apply` keeps the unit of the call. -/
theorem HasUnit.apply {function : MathFunction} {args : List (Expr α)}
    (h : HasUnit rule (.call function args) unit) :
    HasUnit rule (apply function args) unit :=
  h.of_rebuilt (rebuilt_apply function args)

/-- The sum that `Expr.add` makes has the unit of its terms. -/
theorem HasUnit.add (hl : HasUnit rule lhs unit) (hr : HasUnit rule rhs unit) :
    HasUnit rule (add lhs rhs) unit :=
  (HasUnit.sum hl hr).combine

/-- The difference that `Expr.sub` makes has the unit of its terms. -/
theorem HasUnit.sub (hl : HasUnit rule lhs unit) (hr : HasUnit rule rhs unit) :
    HasUnit rule (sub lhs rhs) unit :=
  (HasUnit.difference hl hr).combine

/-- The product that `Expr.mul` makes has the unit of the product node. -/
theorem HasUnit.mul (h : HasUnit rule (.binary .mul lhs rhs) unit) :
    HasUnit rule (mul lhs rhs) unit :=
  h.combine

/-- The quotient that `Expr.div` makes has the unit of the quotient node. -/
theorem HasUnit.div (h : HasUnit rule (.binary .div lhs rhs) unit) :
    HasUnit rule (div lhs rhs) unit :=
  h.combine

/-- What `Expr.clamp` makes has the unit of its three arguments. -/
theorem HasUnit.clamp {low high : Expr α} (hlow : HasUnit rule low unit)
    (he : HasUnit rule e unit) (hhigh : HasUnit rule high unit) :
    HasUnit rule (clamp low e high) unit := by
  have hcall : HasUnit rule (.call .clamp [low, e, high]) unit :=
    .call (by simp) (by simp [hlow, he, hhigh])
  exact hcall.apply

/-- Simplifying with `Expr.simplify` keeps the unit. -/
theorem HasUnit.simplify (h : HasUnit rule e unit) : HasUnit rule e.simplify unit := by
  induction h with
  | quantity q =>
    rw [Expr.simplify]
    exact .quantity q
  | verbatim text =>
    rw [Expr.simplify]
    exact .verbatim text
  | sum _ _ ihl ihr =>
    rw [Expr.simplify]
    exact ihl.add ihr
  | difference _ _ ihl ihr =>
    rw [Expr.simplify]
    exact ihl.sub ihr
  | timesNumber _ _ ihl ihr =>
    rw [Expr.simplify]
    exact (HasUnit.timesNumber ihl ihr).mul
  | numberTimes _ _ ihl ihr =>
    rw [Expr.simplify]
    exact (HasUnit.numberTimes ihl ihr).mul
  | overNumber _ _ ihl ihr =>
    rw [Expr.simplify]
    exact (HasUnit.overNumber ihl ihr).div
  | ratio _ _ ihl ihr =>
    rw [Expr.simplify]
    exact (HasUnit.ratio ihl ihr).div
  | call hne _ ih =>
    rw [Expr.simplify, simplifyAll_eq_map]
    refine HasUnit.apply (.call ?_ fun e he => ?_)
    · rwa [Ne, List.map_eq_nil_iff]
    · obtain ⟨e', he', rfl⟩ := List.mem_map.mp he
      exact ih e' he'

/-- Multiplying by something without a unit keeps the unit. -/
theorem HasUnit.mulNumber (hl : HasUnit rule lhs unit) (hr : HasUnit rule rhs "") :
    HasUnit rule (Expr.mul lhs rhs) unit :=
  (HasUnit.timesNumber hl hr).mul

/-- Dividing by something without a unit keeps the unit. -/
theorem HasUnit.divNumber (hl : HasUnit rule lhs unit) (hr : HasUnit rule rhs "") :
    HasUnit rule (Expr.div lhs rhs) unit :=
  (HasUnit.overNumber hl hr).div

/-- A mean that `Expr.lerp` makes has the unit of its two ends. -/
theorem HasUnit.lerp {t : Expr α} (hl : HasUnit rule lhs unit) (hr : HasUnit rule rhs unit)
    (ht : HasUnit rule t "") : HasUnit rule (Expr.lerp lhs rhs t) unit :=
  hl.add ((hr.sub hl).mulNumber ht)

end Expr

/-! ## Colors -/

section Colors

variable {α : Type}

/-- The channels and the opacity are plain numbers. -/
structure Rgb.HasUnits (rule : UnitRule) (c : Rgb α) : Prop where
  /-- The red channel. -/
  red : c.red.HasUnit rule ""
  /-- The green channel. -/
  green : c.green.HasUnit rule ""
  /-- The blue channel. -/
  blue : c.blue.HasUnit rule ""
  /-- The opacity. -/
  alpha : c.alpha.HasUnit rule ""

/-- The hue has one of the units of an angle, saturation and lightness are percentages, and the
opacity is a plain number. -/
structure Hsl.HasUnits (rule : UnitRule) (angle : String → Prop) (c : Hsl α) : Prop where
  /-- The hue. -/
  hue : ∃ unit, angle unit ∧ c.hue.HasUnit rule unit
  /-- The saturation. -/
  saturation : c.saturation.HasUnit rule "%"
  /-- The lightness. -/
  lightness : c.lightness.HasUnit rule "%"
  /-- The opacity. -/
  alpha : c.alpha.HasUnit rule ""

/-- All fields have the units of their places, factors are plain numbers, and so are the properties
of defined colors. -/
def Color.HasUnits (rule : UnitRule) (angle : String → Prop) : Color α → Prop
  | .rgb color => color.HasUnits rule
  | .hsl color => color.HasUnits rule angle
  | .mix a b factor => HasUnits rule angle a ∧ HasUnits rule angle b ∧ factor.HasUnit rule ""
  | .shade color factor | .alpha color factor =>
    HasUnits rule angle color ∧ factor.HasUnit rule ""
  | .lighter color | .darker color => HasUnits rule angle color
  | .defined name =>
    ∀ names, ChannelNames.ofIdentifier name = .ok names →
      ∀ text ∈ names.references, rule.text text = ""
  | .named _ | .dynamic _ => True

/-- All fields have the units of their places. -/
def Canonical.HasUnits (rule : UnitRule) (angle : String → Prop) : Canonical α → Prop
  | .rgb color => color.HasUnits rule
  | .hsl color => color.HasUnits rule angle
  | .dynamic _ => True

end Colors

variable {α : Type} [Scalar α] {rule : UnitRule} {angle : String → Prop}

open ThemeColor.Expr

/-- The opacity that `fadeAlpha` makes has no unit. -/
theorem fadeAlpha_hasUnit {alpha factor : Expr α} (halpha : alpha.HasUnit rule "")
    (hfactor : factor.HasUnit rule "") : (fadeAlpha alpha factor).HasUnit rule "" :=
  ((hasUnit_number _).clamp (halpha.mulNumber hfactor) (hasUnit_number _)).simplify

namespace Rgb.HasUnits

variable {a b : Rgb α} {t : Expr α}

/-- Simplifying the fields of a color keeps that it `HasUnits`. -/
theorem simplify (h : a.HasUnits rule) : a.simplify.HasUnits rule :=
  ⟨h.red.simplify, h.green.simplify, h.blue.simplify, h.alpha.simplify⟩

/-- A mixture of colors that `HasUnits` has them too. -/
theorem mix (ha : a.HasUnits rule) (hb : b.HasUnits rule) (ht : t.HasUnit rule "") :
    (a.mix b t).HasUnits rule := by
  have halpha := ha.alpha.lerp hb.alpha ht
  -- All three channels are mixed in the same way, weighted by opacities that are plain numbers.
  have hchannel {x y : Expr α} (hx : x.HasUnit rule "") (hy : y.HasUnit rule "") :
      HasUnit rule (if (Expr.lerp a.alpha b.alpha t).isNumber 0.0 then number 0.0
        else mixChannel x y a.alpha b.alpha (Expr.lerp a.alpha b.alpha t) t) "" := by
    split
    · exact hasUnit_number _
    · have hweighted := (hx.mulNumber ha.alpha).lerp (hy.mulNumber hb.alpha) ht
      exact (hweighted.divNumber halpha).simplify
  exact ⟨hchannel ha.red hb.red, hchannel ha.green hb.green, hchannel ha.blue hb.blue,
    halpha.simplify⟩

/-- A faded color `HasUnits` if the color does. -/
theorem fade (h : a.HasUnits rule) (ht : t.HasUnit rule "") : (a.fade t).HasUnits rule :=
  ⟨h.red, h.green, h.blue, fadeAlpha_hasUnit h.alpha ht⟩

end Rgb.HasUnits

/-! ## The conversion to hue, saturation and lightness -/

namespace Hue

/-- A `selector` has no unit. -/
theorem selector_hasUnit {x : Expr α} (slope : α) (hx : x.HasUnit rule "") :
    (selector x slope).HasUnit rule "" :=
  (hasUnit_number _).clamp (hx.mulNumber (hasUnit_number _)) (hasUnit_number _)

/-- A `negation` of a selector has no unit. -/
theorem negation_hasUnit {x : Expr α} (hx : x.HasUnit rule "") :
    (negation x).HasUnit rule "" :=
  (hasUnit_number _).sub hx

/-- All channels and what they have in common are plain numbers. -/
structure Channels.Unitless (rule : UnitRule) (c : Channels α) : Prop where
  /-- The red channel. -/
  red : c.red.HasUnit rule ""
  /-- The green channel. -/
  green : c.green.HasUnit rule ""
  /-- The blue channel. -/
  blue : c.blue.HasUnit rule ""
  /-- The greatest channel. -/
  greatest : c.greatest.HasUnit rule ""
  /-- The least channel. -/
  least : c.least.HasUnit rule ""

namespace Channels.Unitless

variable {c : Channels α}

/-- The `Channels` of a color that `HasUnits` are without units, and so is all that is computed from
them. -/
theorem ofRgb {color : Rgb α} (h : color.HasUnits rule) :
    (Channels.ofRgb color).Unitless rule := by
  have hred := h.red.divNumber (hasUnit_number (255.0 : α))
  have hgreen := h.green.divNumber (hasUnit_number (255.0 : α))
  have hblue := h.blue.divNumber (hasUnit_number (255.0 : α))
  have hall : ∀ e ∈ [div color.red (number 255.0), div color.green (number 255.0),
      div color.blue (number 255.0)], HasUnit rule e "" := by
    simp [hred, hgreen, hblue]
  have happly (function : MathFunction) : HasUnit rule (apply function _) "" :=
    (HasUnit.call (by simp) hall).apply
  exact ⟨hred, hgreen, hblue, happly .max, happly .min⟩

theorem spread (h : c.Unitless rule) : c.spread.HasUnit rule "" := h.greatest.sub h.least

theorem total (h : c.Unitless rule) : c.total.HasUnit rule "" := h.greatest.add h.least

theorem lightness (h : c.Unitless rule) : c.lightness.HasUnit rule "" :=
  h.total.divNumber (hasUnit_number _)

theorem chromatic (h : c.Unitless rule) : c.chromatic.HasUnit rule "" :=
  selector_hasUnit _ h.spread

theorem saturation (h : c.Unitless rule) : c.saturation.HasUnit rule "" := by
  -- Which of the two divisors counts is decided by selectors, which are plain numbers too.
  have hlight := selector_hasUnit (lightnessSlope (α := α))
    (h.lightness.sub (hasUnit_number (0.5 : α)))
  have hdark := selector_hasUnit (lightnessSlope (α := α))
    (((hasUnit_number (0.5 : α)).sub h.lightness).add (hasUnit_number epsilon))
  have hlightDivisor := hlight.mulNumber
    (((hasUnit_number (2.0 : α)).sub h.total).add (hasUnit_number lightEpsilon))
  exact (h.chromatic.mulNumber h.spread).divNumber
    ((hdark.mulNumber (h.total.add (hasUnit_number epsilon))).add hlightDivisor)

theorem isGreatest (h : c.Unitless rule) {channel : Expr α}
    (hchannel : channel.HasUnit rule "") : (c.isGreatest channel).HasUnit rule "" :=
  selector_hasUnit _ ((hchannel.sub h.greatest).add (hasUnit_number _))

theorem sectors (h : c.Unitless rule) : c.sectors.HasUnit rule "" := by
  have hdivisor := h.spread.add (hasUnit_number (epsilon (α := α)))
  have hred := h.isGreatest h.red
  have hgreen := (h.isGreatest h.green).mulNumber (negation_hasUnit hred)
  have hblue :=
    ((h.isGreatest h.blue).mulNumber (negation_hasUnit hred)).mulNumber (negation_hasUnit hgreen)
  -- One summand for each channel that may be the greatest.
  have hredPart := hred.mulNumber ((h.green.sub h.blue).divNumber hdivisor)
  have hredTurn := hredPart.add
    ((selector_hasUnit (-channelSlope) hredPart).mulNumber (hasUnit_number (6.0 : α)))
  have hgreenPart := hgreen.mulNumber
    ((hasUnit_number (2.0 : α)).add ((h.blue.sub h.red).divNumber hdivisor))
  have hbluePart := hblue.mulNumber
    ((hasUnit_number (4.0 : α)).add ((h.red.sub h.green).divNumber hdivisor))
  exact (hredTurn.add hgreenPart).add hbluePart

theorem hue (h : c.Unitless rule) : c.hue.HasUnit rule "" :=
  (h.chromatic.mulNumber (hasUnit_number _)).mulNumber h.sectors

end Channels.Unitless

end Hue

/-- Converting with `Rgb.toHsl` keeps the units of the places, if a plain number is allowed for the
hue. -/
theorem Rgb.HasUnits.toHsl {c : Rgb α} (hangle : angle "") (h : c.HasUnits rule) :
    c.toHsl.HasUnits rule angle := by
  have hchannels := Hue.Channels.Unitless.ofRgb h
  -- Saturation and lightness are computed as plain numbers and turned into percentages last.
  have hpercent {e : Expr α} (he : e.HasUnit rule "") :
      (Expr.mul e (.percent 100.0)).simplify.HasUnit rule "%" :=
    (HasUnit.numberTimes he (hasUnit_percent _)).mul.simplify
  exact ⟨⟨"", hangle, hchannels.hue.simplify⟩, hpercent hchannels.saturation,
    hpercent hchannels.lightness, h.alpha.simplify⟩

namespace Hsl.HasUnits

variable {c : Hsl α} {t : Expr α}

/-- Simplifying the fields of a color keeps that it `HasUnits`, the hue included. -/
theorem simplify (h : c.HasUnits rule angle) : c.simplify.HasUnits rule angle := by
  obtain ⟨unit, hunit, hhue⟩ := h.hue
  exact ⟨⟨unit, hunit, hhue.simplify⟩, h.saturation.simplify, h.lightness.simplify,
    h.alpha.simplify⟩

/-- A shaded color `HasUnits` if the color does. -/
theorem shade (h : c.HasUnits rule angle) (ht : t.HasUnit rule "") :
    (c.shade t).HasUnits rule angle := by
  have hscaled {value : Expr α} (hvalue : value.HasUnit rule "%") :
      (Hsl.scalePercentage value t).HasUnit rule "%" :=
    ((hasUnit_percent _).clamp (hvalue.mulNumber ht) (hasUnit_percent _)).simplify
  exact ⟨h.hue, hscaled h.saturation, hscaled h.lightness, h.alpha⟩

/-- A faded color `HasUnits` if the color does, the hue included. -/
theorem fade (h : c.HasUnits rule angle) (ht : t.HasUnit rule "") :
    (c.fade t).HasUnits rule angle :=
  ⟨h.hue, h.saturation, h.lightness, fadeAlpha_hasUnit h.alpha ht⟩

end Hsl.HasUnits

/-! ## Resolution -/

namespace Palette

/-- The fallback colors of the palette have the units of their places. -/
structure HasUnits (rule : UnitRule) (angle : String → Prop) (p : Palette α) : Prop where
  /-- The fallback for red, green and blue. -/
  rgbFallback : p.rgbFallback.HasUnits rule
  /-- The fallback for hue, saturation and lightness. -/
  hslFallback : p.hslFallback.HasUnits rule angle

/-- The color of a `Swatch` has the units of its places. -/
theorem toRgb_hasUnits (swatch : Swatch α) : swatch.toRgb.HasUnits rule :=
  ⟨hasUnit_number _, hasUnit_number _, hasUnit_number _, hasUnit_number _⟩

/-- The colors of `Palette.default` have the units of their places. -/
theorem default_hasUnits (hangle : angle "") :
    HasUnits rule angle (Palette.default : Palette α) where
  rgbFallback := ⟨hasUnit_number _, hasUnit_number _, hasUnit_number _, hasUnit_number _⟩
  hslFallback :=
    ⟨⟨"", hangle, hasUnit_number _⟩, hasUnit_percent _, hasUnit_percent _, hasUnit_number _⟩

variable {p : Palette α} {c r : Canonical α}

omit [Scalar α] in
/-- What an `RgbOperand` takes a color for has the units of its places. -/
theorem RgbOperand.hasUnits {x : Rgb α} (hp : HasUnits rule angle p) (hx : RgbOperand p c x)
    (h : c.HasUnits rule angle) : x.HasUnits rule := by
  cases hx with
  | rgb color => exact h
  | dynamic keyword => exact hp.rgbFallback

/-- What an `HslOperand` takes a color for has the units of its places. -/
theorem HslOperand.hasUnits {x : Hsl α} (hangle : angle "") (hp : HasUnits rule angle p)
    (hx : HslOperand p c x) (h : c.HasUnits rule angle) : x.HasUnits rule angle := by
  cases hx with
  | rgb color => exact Rgb.HasUnits.toHsl hangle h
  | hsl color => exact h
  | dynamic keyword => exact hp.hslFallback

/-- What a `FadeOperand` makes of a color has the units of its places. -/
theorem FadeOperand.hasUnits {t : Expr α} (hp : HasUnits rule angle p)
    (hr : FadeOperand p t c r) (h : c.HasUnits rule angle) (ht : t.HasUnit rule "") :
    r.HasUnits rule angle := by
  cases hr with
  | rgb color => exact Rgb.HasUnits.fade h ht
  | hsl color => exact Hsl.HasUnits.fade h ht
  | dynamic keyword => exact hp.rgbFallback.fade ht

/-- If the parts of a color expression have the units of their places, so have the fields of the
canonical color that it `Resolves` to. -/
theorem Resolves.hasUnits {c : Color α} {r : Canonical α} (hangle : angle "")
    (hp : HasUnits rule angle p) (h : Resolves p c r) (hc : c.HasUnits rule angle) :
    r.HasUnits rule angle := by
  induction h with
  | rgb color => exact Rgb.HasUnits.simplify hc
  | hsl color => exact Hsl.HasUnits.simplify hc
  | dynamic keyword => trivial
  | named hname => exact toRgb_hasUnits _
  | @defined name names hname =>
    -- The channels are references to the properties of the color.
    have hvar {property : String} (h : "var(" ++ property ++ ")" ∈ names.references) :
        (var property : Expr α).HasUnit rule "" :=
      hc names hname _ h ▸ .verbatim _
    refine ⟨hvar ?_, hvar ?_, hvar ?_, hvar ?_⟩ <;>
      simp [ChannelNames.references, ChannelNames.toList]
  | mix ha hx hb hy iha ihb =>
    exact (hx.hasUnits hp (iha hc.1)).mix (hy.hasUnits hp (ihb hc.2.1)) hc.2.2.simplify
  | shade hcolor hx ih => exact (hx.hasUnits hangle hp (ih hc.1)).shade hc.2.simplify
  | lighter hcolor hx ih => exact (hx.hasUnits hangle hp (ih hc)).shade (hasUnit_number _)
  | darker hcolor hx ih => exact (hx.hasUnits hangle hp (ih hc)).shade (hasUnit_number _)
  | alpha hcolor hr ih => exact hr.hasUnits hp (ih hc.1) hc.2.simplify

end Palette

/-- A color that `Color.resolve` resolves keeps the units of its places. -/
theorem Color.HasUnits.of_resolve {c : Color α} {r : Canonical α} (hangle : angle "")
    (hc : c.HasUnits rule angle) (h : c.resolve.1 = .ok r) : r.HasUnits rule angle :=
  (Palette.resolves_of_yields ⟨[], c.resolve.2, Prod.ext h rfl⟩).hasUnits hangle
    (Palette.default_hasUnits hangle) hc

/-- Resolving keeps units, whatever the units of verbatim texts are: if the parts of a color have
the units of their places and the hue has any unit at all, then so it is with the canonical color.
On the way, simplifying and every folding constructor keep the unit that an expression has. -/
theorem resolve_hasUnits (α : Type) [Scalar α] (unitOf : String → String) :
    (∀ (c : Color α) (r : Canonical α), c.resolve.1 = .ok r →
      c.HasUnits (.own unitOf) (fun _ => True) → r.HasUnits (.own unitOf) fun _ => True) ∧
    (∀ (e : Expr α) (unit : String),
      e.HasUnit (.own unitOf) unit → e.simplify.HasUnit (.own unitOf) unit) ∧
    (∀ (op : Operator) (lhs rhs : Expr α) (unit : String),
      (Expr.binary op lhs rhs).HasUnit (.own unitOf) unit →
      (Expr.combine op lhs rhs).HasUnit (.own unitOf) unit) ∧
    (∀ (function : MathFunction) (args : List (Expr α)) (unit : String),
      (Expr.call function args).HasUnit (.own unitOf) unit →
      (Expr.apply function args).HasUnit (.own unitOf) unit) :=
  ⟨fun _ _ h hc => hc.of_resolve trivial h, fun _ _ h => h.simplify, fun _ _ _ _ h => h.combine,
    fun _ _ _ h => h.apply⟩

/-- A turn plus an unknown angle, the greater one of two percentages, and a factor that is a
proportion of two lengths. -/
theorem resolve_hasUnits_shade :
    let unitOf : String → String := fun text =>
      if text = "var(--h)" then "turn" else if text = "var(--p)" then "%" else ""
    let hue : Expr Rat := .binary .add (.quantity ⟨1 / 4, "turn"⟩) (.verbatim "var(--h)")
    let percentages : List (Expr Rat) := [.percent 10, .verbatim "var(--p)"]
    let length (x : Rat) : Expr Rat := .quantity ⟨x, "px"⟩
    let c : Color Rat := .shade
      (.hsl ⟨hue, .call .max percentages, .percent 50, .verbatim "var(--a)"⟩)
      (.binary .div (length 3) (length 2))
    c.HasUnits (.own unitOf) (fun _ => True) ∧
      ∃ r, c.resolve.1 = .ok r ∧ r.HasUnits (.own unitOf) (fun _ => True) ∧
        hue.simplify.HasUnit (.own unitOf) "turn" ∧
        (Expr.combine .div (length 3) (length 2)).HasUnit (.own unitOf) "" ∧
        (Expr.apply .max percentages).HasUnit (.own unitOf) "%" := by
  intro unitOf hue percentages length c
  have hverbatim {text unit : String} (h : unitOf text = unit) :
      (Expr.verbatim text : Expr Rat).HasUnit (.own unitOf) unit := h ▸ .verbatim text
  have hhue : hue.HasUnit (.own unitOf) "turn" := .sum (.quantity _) (hverbatim (by decide))
  have hgreatest : (Expr.call .max percentages).HasUnit (.own unitOf) "%" := by
    have hp : (Expr.verbatim "var(--p)" : Expr Rat).HasUnit (.own unitOf) "%" :=
      hverbatim (by decide)
    exact .call (by simp [percentages]) (by simp [percentages, hp, hasUnit_percent])
  have hratio : (Expr.binary .div (length 3) (length 2)).HasUnit (.own unitOf) "" :=
    .ratio (.quantity _) (.quantity _)
  have hc : c.HasUnits (.own unitOf) (fun _ => True) :=
    ⟨⟨⟨_, trivial, hhue⟩, hgreatest, hasUnit_percent _, hverbatim (by decide)⟩, hratio⟩
  obtain ⟨hresolve, hsimplify, hcombine, happly⟩ := resolve_hasUnits Rat unitOf
  have hsome : c.resolve.1.toOption.isSome := by decide +kernel
  rcases h : c.resolve.1 with e | r
  · rw [h] at hsome
    cases hsome
  · exact ⟨hc, r, rfl, hresolve c r h hc, hsimplify hue _ hhue, hcombine _ _ _ _ hratio,
      happly _ _ _ hgreatest⟩

end ThemeColor
