import ThemeColor.Proofs.FoldingRules
import ThemeColor.Proofs.Resolution

/-!
# Leaves of expressions and colors

Folding, mixing and shading make no new texts and no new units: every leaf of a resolved color comes
from a leaf of the expression, or is a plain number or a percentage.

- `Expr.Leaves` holds an expression to a condition on its verbatim texts and one on its units;
- `LeafRule` is a pair of conditions that plain numbers and percentages meet;
- `Palette.Resolves.obeys`: if the leaves of a color expression obey a rule, so do those of the
  canonical color.
-/

namespace ThemeColor

namespace Expr

variable {α : Type}

mutual

/-- Every verbatim text satisfies `V` and every unit satisfies `U`. -/
def Leaves (V U : String → Prop) : Expr α → Prop
  | .quantity q => U q.unit
  | .verbatim text => V text
  | .binary _ lhs rhs => Leaves V U lhs ∧ Leaves V U rhs
  | .call _ args => LeavesAll V U args

/-- The same of all expressions of a list. -/
def LeavesAll (V U : String → Prop) : List (Expr α) → Prop
  | [] => True
  | e :: es => Leaves V U e ∧ LeavesAll V U es

end

/-- What `LeavesAll` says of a list is said of each expression. -/
theorem leavesAll_iff {V U : String → Prop} {es : List (Expr α)} :
    LeavesAll V U es ↔ ∀ e ∈ es, Leaves V U e := by
  induction es with
  | nil => simp [LeavesAll]
  | cons e es ih => simp [LeavesAll, ih]

variable {V V' V'' U U' U'' : String → Prop}

mutual

/-- What follows for single leaves from two conditions follows for all `Leaves`. -/
theorem Leaves.and (hV : ∀ text, V text → V' text → V'' text)
    (hU : ∀ unit, U unit → U' unit → U'' unit) :
    (e : Expr α) → Leaves V U e → Leaves V' U' e → Leaves V'' U'' e
  | .quantity q, h, h' => hU q.unit h h'
  | .verbatim text, h, h' => hV text h h'
  | .binary _ lhs rhs, h, h' =>
    ⟨Leaves.and hV hU lhs h.1 h'.1, Leaves.and hV hU rhs h.2 h'.2⟩
  | .call _ args, h, h' => LeavesAll.and hV hU args h h'

theorem LeavesAll.and (hV : ∀ text, V text → V' text → V'' text)
    (hU : ∀ unit, U unit → U' unit → U'' unit) :
    (es : List (Expr α)) → LeavesAll V U es → LeavesAll V' U' es → LeavesAll V'' U'' es
  | [], _, _ => trivial
  | e :: es, h, h' => ⟨Leaves.and hV hU e h.1 h'.1, LeavesAll.and hV hU es h.2 h'.2⟩

end

end Expr

/-- What verbatim texts and units may be. Plain numbers and percentages are always allowed. -/
structure LeafRule where
  /-- What a verbatim text may be. -/
  text : String → Prop
  /-- What a unit may be. -/
  unit : String → Prop
  /-- A plain number is allowed. -/
  unitless : unit ""
  /-- A percentage is allowed. -/
  percent : unit "%"

namespace Expr

variable {α : Type} {rule : LeafRule}

/-- Every leaf of the expression is as the rule says. -/
abbrev Obeys (rule : LeafRule) (e : Expr α) : Prop := Leaves rule.text rule.unit e

/-- A `number` obeys every rule, as every rule allows for no unit. -/
theorem obeys_number (x : α) : (number x).Obeys rule := rule.unitless

/-- A `percent` obeys every rule, as every rule allows for `%`. -/
theorem obeys_percent (x : α) : (percent x).Obeys rule := rule.percent

mutual

/-- The unit that `unit?` knows of an expression is the unit of one of its leaves. -/
theorem Obeys.unit? : (e : Expr α) → e.Obeys rule → ∀ {unit}, e.unit? = some unit → rule.unit unit
  | .quantity q, h, unit, hunit => by
    cases hunit
    exact h
  | .binary .add lhs rhs, h, unit, hunit => by
    rcases Option.or_eq_some_iff.mp hunit with hunit | ⟨-, hunit⟩
    · exact Obeys.unit? lhs h.1 hunit
    · exact Obeys.unit? rhs h.2 hunit
  | .binary .sub lhs rhs, h, unit, hunit => by
    rcases Option.or_eq_some_iff.mp hunit with hunit | ⟨-, hunit⟩
    · exact Obeys.unit? lhs h.1 hunit
    · exact Obeys.unit? rhs h.2 hunit
  | .binary .mul lhs rhs, h, unit, hunit => by
    rw [Expr.unit?] at hunit
    -- A product has the unit of the factor that is no plain number.
    unfold productUnit? at hunit
    split at hunit
    · exact Obeys.unit? rhs h.2 hunit
    · exact Obeys.unit? lhs h.1 hunit
    · cases hunit
  | .binary .div lhs rhs, h, unit, hunit => by
    rw [Expr.unit?] at hunit
    unfold quotientUnit? at hunit
    split at hunit
    · exact Obeys.unit? lhs h.1 hunit
    · cases hunit
  | .call _ args, h, unit, hunit => Obeys.firstUnit? args h hunit

/-- The unit that `firstUnit?` finds is the unit of one of the leaves. -/
theorem Obeys.firstUnit? : (es : List (Expr α)) → LeavesAll rule.text rule.unit es →
    ∀ {unit}, firstUnit? es = some unit → rule.unit unit
  | e :: es, h, unit, hunit => by
    rcases Option.or_eq_some_iff.mp hunit with hunit | ⟨-, hunit⟩
    · exact Obeys.unit? e h.1 hunit
    · exact Obeys.firstUnit? es h.2 hunit

end

/-! ## Folding -/

variable [Scalar α] {lhs rhs : Expr α}

/-- Every rule of `Folds` keeps leaves or makes new ones with the unit of an old one. -/
theorem Obeys.of_folds {e e' : Expr α} (h : Folds e e') (he : e.Obeys rule) : e'.Obeys rule := by
  cases h with
  -- The result has the unit of one operand, or is one.
  | add | addZero | sub | subZero | mulNumber | mulOne | divNumber | divOne | only => exact he.1
  | zeroAdd | numberMul | oneMul => exact he.2
  | zeroMul _ hunit => exact Obeys.unit? _ he.2 hunit
  | mulZero _ hunit => exact Obeys.unit? _ he.1 hunit
  | divSame => exact obeys_number _
  | best _ hargs =>
    subst hargs
    exact he.1
  | clamp => exact he.2.1

/-- Rebuilding a node with `Rebuilt` keeps to the rule. -/
theorem Obeys.of_rebuilt {e e' : Expr α} (he : e.Obeys rule) (h : Rebuilt e e') :
    e'.Obeys rule := by
  cases h with
  | folded h => exact of_folds h he
  | turned _ h =>
    cases h with
    | negative => exact he
  | kept => exact he

/-- Joining two expressions with `Expr.combine` keeps to the rule. -/
theorem Obeys.combine (op : Operator) (hl : lhs.Obeys rule) (hr : rhs.Obeys rule) :
    (combine op lhs rhs).Obeys rule :=
  of_rebuilt (e := .binary op lhs rhs) ⟨hl, hr⟩ (rebuilt_combine op lhs rhs)

/-- Applying a function with `Expr.apply` keeps to the rule. -/
theorem Obeys.apply (function : MathFunction) {args : List (Expr α)}
    (h : LeavesAll rule.text rule.unit args) : (apply function args).Obeys rule :=
  of_rebuilt (e := .call function args) h (rebuilt_apply function args)

/-- A sum that `Expr.add` makes obeys the rule of its terms. -/
theorem Obeys.add (hl : lhs.Obeys rule) (hr : rhs.Obeys rule) : (add lhs rhs).Obeys rule :=
  hl.combine .add hr

/-- A difference that `Expr.sub` makes obeys the rule of its terms. -/
theorem Obeys.sub (hl : lhs.Obeys rule) (hr : rhs.Obeys rule) : (sub lhs rhs).Obeys rule :=
  hl.combine .sub hr

/-- A product that `Expr.mul` makes obeys the rule of its factors. -/
theorem Obeys.mul (hl : lhs.Obeys rule) (hr : rhs.Obeys rule) : (mul lhs rhs).Obeys rule :=
  hl.combine .mul hr

/-- A quotient that `Expr.div` makes obeys the rule of its operands. -/
theorem Obeys.div (hl : lhs.Obeys rule) (hr : rhs.Obeys rule) : (div lhs rhs).Obeys rule :=
  hl.combine .div hr

/-- What `Expr.clamp` makes obeys the rule of its three arguments. -/
theorem Obeys.clamp {low e high : Expr α} (hlow : low.Obeys rule) (he : e.Obeys rule)
    (hhigh : high.Obeys rule) : (clamp low e high).Obeys rule := by
  have hargs : LeavesAll rule.text rule.unit [low, e, high] := ⟨hlow, he, hhigh, trivial⟩
  exact Obeys.apply .clamp hargs

mutual

/-- Simplifying with `Expr.simplify` keeps to the rule. -/
theorem Obeys.simplify : (e : Expr α) → e.Obeys rule → e.simplify.Obeys rule
  | .quantity _, h => h
  | .verbatim _, h => h
  | .binary op lhs rhs, h =>
    Obeys.combine op (Obeys.simplify lhs h.1) (Obeys.simplify rhs h.2)
  | .call function args, h => Obeys.apply function (Obeys.simplifyAll args h)

/-- Simplifying expressions with `simplifyAll` keeps to the rule. -/
theorem Obeys.simplifyAll : (es : List (Expr α)) → LeavesAll rule.text rule.unit es →
    LeavesAll rule.text rule.unit (simplifyAll es)
  | [], _ => trivial
  | e :: es, h => ⟨Obeys.simplify e h.1, Obeys.simplifyAll es h.2⟩

end

/-- A mean that `Expr.lerp` makes obeys the rule of its ends and its factor. -/
theorem Obeys.lerp {x y t : Expr α} (hx : x.Obeys rule) (hy : y.Obeys rule) (ht : t.Obeys rule) :
    (lerp x y t).Obeys rule :=
  hx.add ((hy.sub hx).mul ht)

end Expr

/-! ## Colors -/

variable {α : Type}

/-- The condition on the leaves of all four fields. -/
structure Rgb.Leaves (V U : String → Prop) (c : Rgb α) : Prop where
  /-- The red channel. -/
  red : c.red.Leaves V U
  /-- The green channel. -/
  green : c.green.Leaves V U
  /-- The blue channel. -/
  blue : c.blue.Leaves V U
  /-- The opacity. -/
  alpha : c.alpha.Leaves V U

/-- The condition on the leaves of all four fields. -/
structure Hsl.Leaves (V U : String → Prop) (c : Hsl α) : Prop where
  /-- The hue. -/
  hue : c.hue.Leaves V U
  /-- The saturation. -/
  saturation : c.saturation.Leaves V U
  /-- The lightness. -/
  lightness : c.lightness.Leaves V U
  /-- The opacity. -/
  alpha : c.alpha.Leaves V U

/-- Every verbatim text satisfies `V`, every unit `U` and every name of a defined color `N`. -/
def Color.Leaves (V U N : String → Prop) : Color α → Prop
  | .rgb color => color.Leaves V U
  | .hsl color => color.Leaves V U
  | .mix a b factor => Leaves V U N a ∧ Leaves V U N b ∧ factor.Leaves V U
  | .shade color factor | .alpha color factor => Leaves V U N color ∧ factor.Leaves V U
  | .lighter color | .darker color => Leaves V U N color
  | .defined name => N name
  | .named _ | .dynamic _ => True

/-- The condition on the leaves of all fields; a keyword has none. -/
def Canonical.Leaves (V U : String → Prop) : Canonical α → Prop
  | .rgb color => color.Leaves V U
  | .hsl color => color.Leaves V U
  | .dynamic _ => True

/-- What follows for single leaves from two conditions follows for all `Leaves` of a color. -/
theorem Color.Leaves.and {V V' V'' U U' U'' N N' N'' : String → Prop}
    (hV : ∀ text, V text → V' text → V'' text) (hU : ∀ unit, U unit → U' unit → U'' unit)
    (hN : ∀ name, N name → N' name → N'' name) {c : Color α} (h : c.Leaves V U N)
    (h' : c.Leaves V' U' N') : c.Leaves V'' U'' N'' := by
  have hfield {e : Expr α} (h : e.Leaves V U) (h' : e.Leaves V' U') : e.Leaves V'' U'' :=
    Expr.Leaves.and hV hU e h h'
  induction c with
  | rgb color =>
    exact ⟨hfield h.red h'.red, hfield h.green h'.green, hfield h.blue h'.blue,
      hfield h.alpha h'.alpha⟩
  | hsl color =>
    exact ⟨hfield h.hue h'.hue, hfield h.saturation h'.saturation,
      hfield h.lightness h'.lightness, hfield h.alpha h'.alpha⟩
  | mix a b factor iha ihb => exact ⟨iha h.1 h'.1, ihb h.2.1 h'.2.1, hfield h.2.2 h'.2.2⟩
  | shade color factor ih => exact ⟨ih h.1 h'.1, hfield h.2 h'.2⟩
  | alpha color factor ih => exact ⟨ih h.1 h'.1, hfield h.2 h'.2⟩
  | lighter color ih => exact ih h h'
  | darker color ih => exact ih h h'
  | defined name => exact hN name h h'
  | named name => trivial
  | dynamic keyword => trivial

variable [Scalar α] {rule : LeafRule}

open ThemeColor.Expr

/-- An opacity that `fadeAlpha` makes obeys the rule of its parts. -/
theorem fadeAlpha_obeys {alpha factor : Expr α} (halpha : alpha.Obeys rule)
    (hfactor : factor.Obeys rule) : (fadeAlpha alpha factor).Obeys rule :=
  Obeys.simplify _ (Obeys.clamp (obeys_number _) (halpha.mul hfactor) (obeys_number _))

namespace Rgb.Leaves

variable {a b : Rgb α} {t : Expr α}

/-- Simplifying a color keeps to the rule for its `Leaves`. -/
theorem simplify (h : a.Leaves rule.text rule.unit) : a.simplify.Leaves rule.text rule.unit :=
  ⟨Obeys.simplify _ h.red, Obeys.simplify _ h.green, Obeys.simplify _ h.blue,
    Obeys.simplify _ h.alpha⟩

/-- A mixture obeys the rule for `Leaves` that its operands and its factor obey. -/
theorem mix (ha : a.Leaves rule.text rule.unit) (hb : b.Leaves rule.text rule.unit)
    (ht : t.Obeys rule) : (a.mix b t).Leaves rule.text rule.unit := by
  have halpha := Obeys.lerp ha.alpha hb.alpha ht
  have hchannel {x y : Expr α} (hx : x.Obeys rule) (hy : y.Obeys rule) :
      Obeys rule (if (Expr.lerp a.alpha b.alpha t).isNumber 0.0 then number 0.0
        else mixChannel x y a.alpha b.alpha (Expr.lerp a.alpha b.alpha t) t) := by
    split
    · exact obeys_number _
    · exact Obeys.simplify _ ((Obeys.lerp (hx.mul ha.alpha) (hy.mul hb.alpha) ht).div halpha)
  exact ⟨hchannel ha.red hb.red, hchannel ha.green hb.green, hchannel ha.blue hb.blue,
    Obeys.simplify _ halpha⟩

/-- A faded color obeys the rule for `Leaves` that the color and the factor obey. -/
theorem fade (h : a.Leaves rule.text rule.unit) (ht : t.Obeys rule) :
    (a.fade t).Leaves rule.text rule.unit :=
  ⟨h.red, h.green, h.blue, fadeAlpha_obeys h.alpha ht⟩

end Rgb.Leaves

/-! ## The conversion to hue, saturation and lightness -/

namespace Hue

/-- A `selector` obeys the rule of what it selects by. -/
theorem selector_obeys {x : Expr α} (slope : α) (hx : x.Obeys rule) :
    (selector x slope).Obeys rule :=
  Obeys.clamp (obeys_number _) (hx.mul (obeys_number _)) (obeys_number _)

theorem negation_obeys {x : Expr α} (hx : x.Obeys rule) : (negation x).Obeys rule :=
  Obeys.sub (obeys_number _) hx

/-- All channels and what they have in common obey the rule. -/
structure Channels.Obey (rule : LeafRule) (c : Channels α) : Prop where
  /-- The red channel. -/
  red : c.red.Obeys rule
  /-- The green channel. -/
  green : c.green.Obeys rule
  /-- The blue channel. -/
  blue : c.blue.Obeys rule
  /-- The greatest channel. -/
  greatest : c.greatest.Obeys rule
  /-- The least channel. -/
  least : c.least.Obeys rule

namespace Channels.Obey

variable {c : Channels α}

/-- The `Channels` of a color obey the rule that the color obeys. -/
theorem ofRgb {color : Rgb α} (h : color.Leaves rule.text rule.unit) :
    (Channels.ofRgb color).Obey rule := by
  have hred := Obeys.div h.red (obeys_number (255.0 : α))
  have hgreen := Obeys.div h.green (obeys_number (255.0 : α))
  have hblue := Obeys.div h.blue (obeys_number (255.0 : α))
  have hall : LeavesAll rule.text rule.unit [div color.red (number 255.0),
      div color.green (number 255.0), div color.blue (number 255.0)] :=
    ⟨hred, hgreen, hblue, trivial⟩
  exact ⟨hred, hgreen, hblue, Obeys.apply .max hall, Obeys.apply .min hall⟩

theorem spread (h : c.Obey rule) : c.spread.Obeys rule := h.greatest.sub h.least

theorem total (h : c.Obey rule) : c.total.Obeys rule := h.greatest.add h.least

theorem lightness (h : c.Obey rule) : c.lightness.Obeys rule := h.total.div (obeys_number _)

theorem chromatic (h : c.Obey rule) : c.chromatic.Obeys rule := selector_obeys _ h.spread

theorem saturation (h : c.Obey rule) : c.saturation.Obeys rule := by
  have hlight := selector_obeys (lightnessSlope (α := α))
    (h.lightness.sub (obeys_number (0.5 : α)))
  have hdark := selector_obeys (lightnessSlope (α := α))
    ((Obeys.sub (obeys_number (0.5 : α)) h.lightness).add (obeys_number epsilon))
  have hlightDivisor := hlight.mul
    ((Obeys.sub (obeys_number (2.0 : α)) h.total).add (obeys_number lightEpsilon))
  exact (h.chromatic.mul h.spread).div
    ((hdark.mul (h.total.add (obeys_number epsilon))).add hlightDivisor)

theorem isGreatest (h : c.Obey rule) {channel : Expr α} (hchannel : channel.Obeys rule) :
    (c.isGreatest channel).Obeys rule :=
  selector_obeys _ ((hchannel.sub h.greatest).add (obeys_number _))

theorem sectors (h : c.Obey rule) : c.sectors.Obeys rule := by
  have hdivisor := h.spread.add (obeys_number (epsilon (α := α)))
  have hred := h.isGreatest h.red
  have hgreen := (h.isGreatest h.green).mul (negation_obeys hred)
  have hblue := ((h.isGreatest h.blue).mul (negation_obeys hred)).mul (negation_obeys hgreen)
  have hredPart := hred.mul ((h.green.sub h.blue).div hdivisor)
  have hredTurn := hredPart.add
    ((selector_obeys (-channelSlope) hredPart).mul (obeys_number (6.0 : α)))
  have hgreenPart := hgreen.mul
    (Obeys.add (obeys_number (2.0 : α)) ((h.blue.sub h.red).div hdivisor))
  have hbluePart := hblue.mul
    (Obeys.add (obeys_number (4.0 : α)) ((h.red.sub h.green).div hdivisor))
  exact (hredTurn.add hgreenPart).add hbluePart

theorem hue (h : c.Obey rule) : c.hue.Obeys rule :=
  (h.chromatic.mul (obeys_number _)).mul h.sectors

end Channels.Obey

end Hue

/-- Converting with `Rgb.toHsl` keeps to the rule. -/
theorem Rgb.Leaves.toHsl {c : Rgb α} (h : c.Leaves rule.text rule.unit) :
    c.toHsl.Leaves rule.text rule.unit := by
  have hchannels := Hue.Channels.Obey.ofRgb h
  exact ⟨Obeys.simplify _ hchannels.hue,
    Obeys.simplify _ (hchannels.saturation.mul (obeys_percent _)),
    Obeys.simplify _ (hchannels.lightness.mul (obeys_percent _)), Obeys.simplify _ h.alpha⟩

namespace Hsl.Leaves

variable {c : Hsl α} {t : Expr α}

/-- Simplifying a color by hue keeps to the rule for its `Leaves`. -/
theorem simplify (h : c.Leaves rule.text rule.unit) : c.simplify.Leaves rule.text rule.unit :=
  ⟨Obeys.simplify _ h.hue, Obeys.simplify _ h.saturation, Obeys.simplify _ h.lightness,
    Obeys.simplify _ h.alpha⟩

/-- A shaded color obeys the rule for `Leaves` that the color and the factor obey. -/
theorem shade (h : c.Leaves rule.text rule.unit) (ht : t.Obeys rule) :
    (c.shade t).Leaves rule.text rule.unit := by
  have hscaled {value : Expr α} (hvalue : value.Obeys rule) :
      (Hsl.scalePercentage value t).Obeys rule :=
    Obeys.simplify _ (Obeys.clamp (obeys_percent _) (hvalue.mul ht) (obeys_percent _))
  exact ⟨h.hue, hscaled h.saturation, hscaled h.lightness, h.alpha⟩

/-- Fading a color by hue keeps to the rule for its `Leaves`. -/
theorem fade (h : c.Leaves rule.text rule.unit) (ht : t.Obeys rule) :
    (c.fade t).Leaves rule.text rule.unit :=
  ⟨h.hue, h.saturation, h.lightness, fadeAlpha_obeys h.alpha ht⟩

end Hsl.Leaves

/-! ## Resolution -/

namespace Palette

/-- The fallback colors of the palette obey the rule. -/
structure Obeys (rule : LeafRule) (p : Palette α) : Prop where
  /-- The fallback for red, green and blue. -/
  rgbFallback : p.rgbFallback.Leaves rule.text rule.unit
  /-- The fallback for hue, saturation and lightness. -/
  hslFallback : p.hslFallback.Leaves rule.text rule.unit

/-- The leaves of the color of a `Swatch` are plain numbers. -/
theorem toRgb_leaves (swatch : Swatch α) : swatch.toRgb.Leaves rule.text rule.unit :=
  ⟨obeys_number _, obeys_number _, obeys_number _, obeys_number _⟩

/-- The colors of `Palette.default` have plain numbers and percentages as leaves. -/
theorem default_obeys : Obeys rule (Palette.default : Palette α) where
  rgbFallback := ⟨obeys_number _, obeys_number _, obeys_number _, obeys_number _⟩
  hslFallback := ⟨obeys_number _, obeys_percent _, obeys_percent _, obeys_number _⟩

variable {p : Palette α} {c r : Canonical α}

omit [Scalar α] in
/-- What an `RgbOperand` takes a color for obeys the rule of the color. -/
theorem RgbOperand.leaves {x : Rgb α} (hp : Obeys rule p) (hx : RgbOperand p c x)
    (h : c.Leaves rule.text rule.unit) : x.Leaves rule.text rule.unit := by
  cases hx with
  | rgb color => exact h
  | dynamic keyword => exact hp.rgbFallback

/-- What an `HslOperand` takes a color for obeys the rule of the color. -/
theorem HslOperand.leaves {x : Hsl α} (hp : Obeys rule p) (hx : HslOperand p c x)
    (h : c.Leaves rule.text rule.unit) : x.Leaves rule.text rule.unit := by
  cases hx with
  | rgb color => exact Rgb.Leaves.toHsl h
  | hsl color => exact h
  | dynamic keyword => exact hp.hslFallback

/-- What a `FadeOperand` makes of a color obeys the rule of the color and the factor. -/
theorem FadeOperand.leaves {t : Expr α} (hp : Obeys rule p) (hr : FadeOperand p t c r)
    (h : c.Leaves rule.text rule.unit) (ht : t.Obeys rule) : r.Leaves rule.text rule.unit := by
  cases hr with
  | rgb color => exact Rgb.Leaves.fade h ht
  | hsl color => exact Hsl.Leaves.fade h ht
  | dynamic keyword => exact Rgb.Leaves.fade hp.rgbFallback ht

/-- If the leaves of a color expression obey a rule, and the references to the properties of its
defined colors do, then the leaves of the canonical color that it `Resolves` to obey it too. -/
theorem Resolves.obeys {N : String → Prop} {c : Color α} {r : Canonical α} (hp : Obeys rule p)
    (hN : ∀ name names, N name → ChannelNames.ofIdentifier name = .ok names →
      ∀ text ∈ names.references, rule.text text)
    (h : Resolves p c r) (hc : c.Leaves rule.text rule.unit N) :
    r.Leaves rule.text rule.unit := by
  induction h with
  | rgb color => exact Rgb.Leaves.simplify hc
  | hsl color => exact Hsl.Leaves.simplify hc
  | dynamic keyword => trivial
  | named hname => exact toRgb_leaves _
  | @defined name names hname =>
    have htexts := hN name names hc hname
    simp only [ChannelNames.references, ChannelNames.toList, List.map_cons, List.map_nil,
      List.forall_mem_cons] at htexts
    exact ⟨htexts.1, htexts.2.1, htexts.2.2.1, htexts.2.2.2.1⟩
  | mix ha hx hb hy iha ihb =>
    exact (hx.leaves hp (iha hc.1)).mix (hy.leaves hp (ihb hc.2.1)) (Obeys.simplify _ hc.2.2)
  | shade hcolor hx ih => exact (hx.leaves hp (ih hc.1)).shade (Obeys.simplify _ hc.2)
  | lighter hcolor hx ih => exact (hx.leaves hp (ih hc)).shade (obeys_number _)
  | darker hcolor hx ih => exact (hx.leaves hp (ih hc)).shade (obeys_number _)
  | alpha hcolor hr ih => exact hr.leaves hp (ih hc.1) (Obeys.simplify _ hc.2)

end Palette

end ThemeColor
