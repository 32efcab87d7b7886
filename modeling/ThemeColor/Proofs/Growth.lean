import ThemeColor.Proofs.NormalForm
import ThemeColor.Proofs.Outcome

/-!
# How far a color can grow

The size of a color is looked at after each step of resolving it, when the tree of the result has
already been built. No step can make the tree much larger than its operands: folding never adds more
than the node that it is asked for, so the size of a result is bounded by counting the nodes that
its definition asks for, and each of these counts is linear in the sizes of the operands. As the
operands have passed the check, this bounds every color that has not been checked yet.

The bounds of the folding constructors take bounds of the operands, so that the bound of a field is
put together in the same way as the field itself.

## Main definitions

* `Palette.step`: a step of resolving a color, without the checks around it;
* `Color.ceiling`: the number of nodes that a step can reach before its result is checked.

## Main results

* `Rgb.nodeCount_toHsl_le`, `Rgb.nodeCount_mix_le`, `Hsl.nodeCount_shade_le`: single steps;
* `Palette.nodeCount_le_ceiling`: what a step yields stays below the ceiling;
* `Palette.growth_linear`: all of this in one statement.
-/

namespace ThemeColor

variable {α : Type}

/-! ## Folding constructors -/

namespace Expr

theorem nodeCount_number_le {x : α} : (number x).nodeCount ≤ 1 := Nat.le_refl 1

theorem nodeCount_percent_le {x : α} : (percent x).nodeCount ≤ 1 := Nat.le_refl 1

variable [Scalar α] {a b c : Expr α} {k l m : Nat}

/-- Joining two expressions with `Expr.combine` adds at most one node. -/
theorem nodeCount_combine_le (op : Operator) (ha : a.nodeCount ≤ k) (hb : b.nodeCount ≤ l) :
    (combine op a b).nodeCount ≤ k + l + 1 := by
  have h := (rebuilt_combine op a b).nodeCount_le
  rw [nodeCount] at h
  omega

theorem nodeCount_add_le (ha : a.nodeCount ≤ k) (hb : b.nodeCount ≤ l) :
    (add a b).nodeCount ≤ k + l + 1 := nodeCount_combine_le .add ha hb

theorem nodeCount_sub_le (ha : a.nodeCount ≤ k) (hb : b.nodeCount ≤ l) :
    (sub a b).nodeCount ≤ k + l + 1 := nodeCount_combine_le .sub ha hb

theorem nodeCount_mul_le (ha : a.nodeCount ≤ k) (hb : b.nodeCount ≤ l) :
    (mul a b).nodeCount ≤ k + l + 1 := nodeCount_combine_le .mul ha hb

theorem nodeCount_div_le (ha : a.nodeCount ≤ k) (hb : b.nodeCount ≤ l) :
    (div a b).nodeCount ≤ k + l + 1 := nodeCount_combine_le .div ha hb

/-- Applying a function to three arguments with `Expr.apply` adds at most one node. -/
theorem nodeCount_apply_le (function : MathFunction) (ha : a.nodeCount ≤ k) (hb : b.nodeCount ≤ l)
    (hc : c.nodeCount ≤ m) : (apply function [a, b, c]).nodeCount ≤ k + l + m + 1 := by
  have h := (rebuilt_apply function [a, b, c]).nodeCount_le
  simp only [nodeCount, nodeCountAll] at h
  omega

/-- Moving an expression between two others with `Expr.clamp` adds at most one node. -/
theorem nodeCount_clamp_le (ha : a.nodeCount ≤ k) (hb : b.nodeCount ≤ l) (hc : c.nodeCount ≤ m) :
    (clamp a b c).nodeCount ≤ k + l + m + 1 := nodeCount_apply_le .clamp ha hb hc

/-- A mean that `Expr.lerp` makes has its first end twice. -/
theorem nodeCount_lerp_le (ha : a.nodeCount ≤ k) (hb : b.nodeCount ≤ l) (hc : c.nodeCount ≤ m) :
    (lerp a b c).nodeCount ≤ 2 * k + l + m + 3 :=
  (nodeCount_add_le ha (nodeCount_mul_le (nodeCount_sub_le hb ha) hc)).trans (by omega)

end Expr

variable [Scalar α]

/-! ## Conversion to hue, saturation and lightness -/

namespace Hue

open ThemeColor.Expr

variable {x : Expr α} {k : Nat}

/-- A `selector` adds at most five nodes. -/
theorem nodeCount_selector_le {slope : α} (hx : x.nodeCount ≤ k) :
    (selector x slope).nodeCount ≤ k + 5 :=
  (nodeCount_clamp_le nodeCount_number_le (nodeCount_mul_le hx nodeCount_number_le)
    nodeCount_number_le).trans (by omega)

/-- A `negation` of a selector adds at most two nodes. -/
theorem nodeCount_negation_le (hx : x.nodeCount ≤ k) : (negation x).nodeCount ≤ k + 2 :=
  (nodeCount_sub_le nodeCount_number_le hx).trans (by omega)

namespace Channels

/-- The channels of a color have at most `r`, `g` and `b` nodes, and the greatest and the least one
have at most `e` nodes each. -/
structure Bounded (c : Channels α) (r g b e : Nat) : Prop where
  red : c.red.nodeCount ≤ r
  green : c.green.nodeCount ≤ g
  blue : c.blue.nodeCount ≤ b
  greatest : c.greatest.nodeCount ≤ e
  least : c.least.nodeCount ≤ e

/-- Dividing a channel by 255 adds two nodes, and comparing the channels adds one: the bounds that
`Channels.ofRgb` starts with. -/
theorem bounded_ofRgb (c : Rgb α) :
    (ofRgb c).Bounded (c.red.nodeCount + 2) (c.green.nodeCount + 2) (c.blue.nodeCount + 2)
      (c.red.nodeCount + c.green.nodeCount + c.blue.nodeCount + 7) := by
  have hchannel (e : Expr α) : (div e (number 255.0)).nodeCount ≤ e.nodeCount + 2 :=
    nodeCount_div_le (Nat.le_refl _) nodeCount_number_le
  have hextreme (function : MathFunction) :
      (apply function [(ofRgb c).red, (ofRgb c).green, (ofRgb c).blue]).nodeCount ≤
        c.red.nodeCount + c.green.nodeCount + c.blue.nodeCount + 7 :=
    (nodeCount_apply_le function (hchannel _) (hchannel _) (hchannel _)).trans (by omega)
  exact ⟨hchannel _, hchannel _, hchannel _, hextreme .max, hextreme .min⟩

namespace Bounded

variable {c : Channels α} {r g b e : Nat}

/-- The `spread` has the greatest and the least channel in it. -/
theorem spread (h : c.Bounded r g b e) : c.spread.nodeCount ≤ 2 * e + 1 :=
  (nodeCount_sub_le h.greatest h.least).trans (by omega)

theorem total (h : c.Bounded r g b e) : c.total.nodeCount ≤ 2 * e + 1 :=
  (nodeCount_add_le h.greatest h.least).trans (by omega)

/-- The `lightness` is half of the total of the greatest and the least channel. -/
theorem lightness (h : c.Bounded r g b e) : c.lightness.nodeCount ≤ 2 * e + 3 :=
  (nodeCount_div_le h.total nodeCount_number_le).trans (by omega)

theorem chromatic (h : c.Bounded r g b e) : c.chromatic.nodeCount ≤ 2 * e + 6 :=
  nodeCount_selector_le h.spread

/-- In the `saturation` the greatest and the least channel stand twelve times at most. -/
theorem saturation (h : c.Bounded r g b e) : c.saturation.nodeCount ≤ 12 * e + 42 := by
  have hlight {x slope : α} :
      (selector (sub c.lightness (number x)) slope).nodeCount ≤ 2 * e + 10 :=
    (nodeCount_selector_le (nodeCount_sub_le h.lightness nodeCount_number_le)).trans (by omega)
  have hdark {x y slope : α} :
      (selector (add (sub (number x) c.lightness) (number y)) slope).nodeCount ≤ 2 * e + 12 :=
    (nodeCount_selector_le (nodeCount_add_le (nodeCount_sub_le nodeCount_number_le h.lightness)
      nodeCount_number_le)).trans (by omega)
  have hdarkDivisor {x y z slope : α} :
      (mul (selector (add (sub (number x) c.lightness) (number y)) slope)
        (add c.total (number z))).nodeCount ≤ 4 * e + 16 :=
    (nodeCount_mul_le hdark (nodeCount_add_le h.total nodeCount_number_le)).trans (by omega)
  have hlightDivisor {x y z slope : α} :
      (mul (selector (sub c.lightness (number x)) slope)
        (add (sub (number y) c.total) (number z))).nodeCount ≤ 4 * e + 16 :=
    (nodeCount_mul_le hlight (nodeCount_add_le (nodeCount_sub_le nodeCount_number_le h.total)
      nodeCount_number_le)).trans (by omega)
  exact (nodeCount_div_le (nodeCount_mul_le h.chromatic h.spread)
    (nodeCount_add_le hdarkDivisor hlightDivisor)).trans (by omega)

/-- The selector `isGreatest` of a channel looks at the channel once and at the greatest one once.
-/
theorem isGreatest (h : c.Bounded r g b e) {x : Expr α} {k : Nat} (hx : x.nodeCount ≤ k) :
    (c.isGreatest x).nodeCount ≤ k + e + 8 :=
  (nodeCount_selector_le (nodeCount_add_le (nodeCount_sub_le hx h.greatest)
    nodeCount_number_le)).trans (by omega)

theorem redFirst (h : c.Bounded r g b e) : c.redFirst.nodeCount ≤ r + e + 8 := h.isGreatest h.red

/-- The selector `greenFirst` has the one of red in it. -/
theorem greenFirst (h : c.Bounded r g b e) : c.greenFirst.nodeCount ≤ r + g + 2 * e + 19 :=
  (nodeCount_mul_le (h.isGreatest h.green) (nodeCount_negation_le h.redFirst)).trans (by omega)

/-- The selector `blueFirst` has those of red and of green in it. -/
theorem blueFirst (h : c.Bounded r g b e) :
    c.blueFirst.nodeCount ≤ 2 * r + g + b + 4 * e + 41 :=
  (nodeCount_mul_le (nodeCount_mul_le (h.isGreatest h.blue) (nodeCount_negation_le h.redFirst))
    (nodeCount_negation_le h.greenFirst)).trans (by omega)

/-- The difference of two channels in proportion to the spread, as it is used for each sector. -/
theorem slant (h : c.Bounded r g b e) {x y : Expr α} {z : α} {k l : Nat} (hx : x.nodeCount ≤ k)
    (hy : y.nodeCount ≤ l) :
    (div (sub x y) (add c.spread (number z))).nodeCount ≤ k + l + 2 * e + 5 :=
  (nodeCount_div_le (nodeCount_sub_le hx hy)
    (nodeCount_add_le h.spread nodeCount_number_le)).trans (by omega)

/-- What `Channels.sectors` adds up from the three selectors and the three positions. -/
theorem sectors (h : c.Bounded r g b e) :
    c.sectors.nodeCount ≤ 7 * r + 5 * g + 4 * b + 16 * e + 114 := by
  have hred {z : α} : (mul c.redFirst (div (sub c.green c.blue)
      (add c.spread (number z)))).nodeCount ≤ r + g + b + 3 * e + 14 :=
    (nodeCount_mul_le h.redFirst (h.slant h.green h.blue)).trans (by omega)
  have hgreen {y z : α} : (mul c.greenFirst (add (number y) (div (sub c.blue c.red)
      (add c.spread (number z))))).nodeCount ≤ 2 * r + g + b + 4 * e + 27 :=
    (nodeCount_mul_le h.greenFirst (nodeCount_add_le nodeCount_number_le
      (h.slant h.blue h.red))).trans (by omega)
  have hblue {y z : α} : (mul c.blueFirst (add (number y) (div (sub c.red c.green)
      (add c.spread (number z))))).nodeCount ≤ 3 * r + 2 * g + b + 6 * e + 49 :=
    (nodeCount_mul_le h.blueFirst (nodeCount_add_le nodeCount_number_le
      (h.slant h.red h.green))).trans (by omega)
  -- The red part stands in the sum twice: as itself and in the selector that makes it positive.
  exact (nodeCount_add_le (nodeCount_add_le (nodeCount_add_le hred
    (nodeCount_mul_le (nodeCount_selector_le hred) nodeCount_number_le)) hgreen) hblue).trans
      (by omega)

/-- A `hue` is the sectors in degrees, for chromatic colors only. -/
theorem hue (h : c.Bounded r g b e) :
    c.hue.nodeCount ≤ 7 * r + 5 * g + 4 * b + 18 * e + 123 :=
  (nodeCount_mul_le (nodeCount_mul_le h.chromatic nodeCount_number_le) h.sectors).trans (by omega)

end Bounded

end Channels

end Hue

namespace Rgb

open ThemeColor.Expr

/-- The conversion `Rgb.toHsl` grows linearly. -/
theorem nodeCount_toHsl_le (c : Rgb α) : c.toHsl.nodeCount ≤ 39 * c.nodeCount + 428 := by
  have h := Hue.Channels.bounded_ofRgb c
  have hhue := (nodeCount_simplify_le _).trans h.hue
  have hsaturation := (nodeCount_simplify_le _).trans
    (nodeCount_mul_le h.saturation (nodeCount_percent_le (x := (100.0 : α))))
  have hlightness := (nodeCount_simplify_le _).trans
    (nodeCount_mul_le h.lightness (nodeCount_percent_le (x := (100.0 : α))))
  have halpha := nodeCount_simplify_le c.alpha
  simp only [toHsl, Hsl.nodeCount, nodeCount]
  omega

/-- A color that `Rgb.mix` makes grows linearly. The opacities of its operands stand in each
channel. -/
theorem nodeCount_mix_le (a b : Rgb α) (t : Expr α) :
    (a.mix b t).nodeCount ≤
      14 * a.nodeCount + 7 * b.nodeCount + 7 * t.nodeCount + 33 := by
  have halpha : (lerp a.alpha b.alpha t).nodeCount ≤
      2 * a.alpha.nodeCount + b.alpha.nodeCount + t.nodeCount + 3 :=
    nodeCount_lerp_le (Nat.le_refl _) (Nat.le_refl _) (Nat.le_refl _)
  have hchannel (x y : Expr α) :
      (if (lerp a.alpha b.alpha t).isNumber 0.0 then number 0.0
        else mixChannel x y a.alpha b.alpha (lerp a.alpha b.alpha t) t).nodeCount ≤
      2 * x.nodeCount + y.nodeCount + 4 * a.alpha.nodeCount + 2 * b.alpha.nodeCount +
        2 * t.nodeCount + 10 := by
    split
    · exact nodeCount_number_le.trans (by omega)
    · exact (nodeCount_simplify_le _).trans ((nodeCount_div_le (nodeCount_lerp_le
        (nodeCount_mul_le (Nat.le_refl _) (Nat.le_refl _))
        (nodeCount_mul_le (Nat.le_refl _) (Nat.le_refl _)) (Nat.le_refl _)) halpha).trans
          (by omega))
  have hred := hchannel a.red b.red
  have hgreen := hchannel a.green b.green
  have hblue := hchannel a.blue b.blue
  have hmixed := (nodeCount_simplify_le _).trans halpha
  simp only [mix, nodeCount]
  omega

end Rgb

open ThemeColor.Expr

/-- An opacity that `fadeAlpha` makes has its factor once and four nodes more. -/
theorem nodeCount_fadeAlpha_le (alpha factor : Expr α) :
    (fadeAlpha alpha factor).nodeCount ≤ alpha.nodeCount + factor.nodeCount + 4 :=
  (nodeCount_simplify_le _).trans ((nodeCount_clamp_le nodeCount_number_le
    (nodeCount_mul_le (Nat.le_refl _) (Nat.le_refl _)) nodeCount_number_le).trans (by omega))

/-- Fading with `Rgb.fade` changes the opacity only. -/
theorem Rgb.nodeCount_fade_le (c : Rgb α) (factor : Expr α) :
    (c.fade factor).nodeCount ≤ c.nodeCount + factor.nodeCount + 4 := by
  have halpha := nodeCount_fadeAlpha_le c.alpha factor
  simp only [fade, nodeCount]
  omega

namespace Hsl

/-- Fading with `Hsl.fade` changes the opacity only. -/
theorem nodeCount_fade_le (c : Hsl α) (factor : Expr α) :
    (c.fade factor).nodeCount ≤ c.nodeCount + factor.nodeCount + 4 := by
  have halpha := nodeCount_fadeAlpha_le c.alpha factor
  simp only [fade, nodeCount]
  omega

/-- Scaling with `scalePercentage` adds the factor and four nodes. -/
theorem nodeCount_scalePercentage_le (x factor : Expr α) :
    (scalePercentage x factor).nodeCount ≤ x.nodeCount + factor.nodeCount + 4 :=
  (nodeCount_simplify_le _).trans ((nodeCount_clamp_le nodeCount_percent_le
    (nodeCount_mul_le (Nat.le_refl _) (Nat.le_refl _)) nodeCount_percent_le).trans (by omega))

/-- Shading with `Hsl.shade` scales two fields. -/
theorem nodeCount_shade_le (c : Hsl α) (factor : Expr α) :
    (c.shade factor).nodeCount ≤ c.nodeCount + 2 * factor.nodeCount + 8 := by
  have hsaturation := nodeCount_scalePercentage_le c.saturation factor
  have hlightness := nodeCount_scalePercentage_le c.lightness factor
  simp only [shade, nodeCount]
  omega

end Hsl

/-! ## Steps of resolving a color -/

/-- The number of nodes that a step of resolving the color can reach before its result is checked.
Literal colors only shrink; the other bounds are those of operands that have passed the check. A
lighter or darker color is a shaded one whose factor is a single node. -/
def Color.ceiling : Color α → Nat
  | .rgb color => color.nodeCount
  | .hsl color => color.nodeCount
  | .dynamic _ => 0
  | .named _ | .defined _ => 4
  | .mix _ _ factor => 14 * sizeLimit + 7 * sizeLimit + 7 * factor.nodeCount + 33
  | .shade _ factor => 39 * sizeLimit + 436 + 2 * factor.nodeCount
  | .lighter _ | .darker _ => 39 * sizeLimit + 438
  | .alpha _ factor => sizeLimit + factor.nodeCount + 4

/-- Simplifying a color with `Rgb.simplify` does not make it larger. -/
theorem Rgb.nodeCount_simplify_le (c : Rgb α) : c.simplify.nodeCount ≤ c.nodeCount := by
  have hred := Expr.nodeCount_simplify_le c.red
  have hgreen := Expr.nodeCount_simplify_le c.green
  have hblue := Expr.nodeCount_simplify_le c.blue
  have halpha := Expr.nodeCount_simplify_le c.alpha
  simp only [simplify, nodeCount]
  omega

/-- Simplifying a color with `Hsl.simplify` does not make it larger. -/
theorem Hsl.nodeCount_simplify_le (c : Hsl α) : c.simplify.nodeCount ≤ c.nodeCount := by
  have hhue := Expr.nodeCount_simplify_le c.hue
  have hsaturation := Expr.nodeCount_simplify_le c.saturation
  have hlightness := Expr.nodeCount_simplify_le c.lightness
  have halpha := Expr.nodeCount_simplify_le c.alpha
  simp only [simplify, nodeCount]
  omega

namespace Palette

variable {p : Palette α} {c : Color α} {depth : Nat}

/-- A step of resolving a color that stands `depth` levels inside another one, without the checks
around it. -/
def step (p : Palette α) (c : Color α) (depth : Nat) : ResolveM (Canonical α) :=
  match c with
  | .rgb color => pure (.rgb color.simplify)
  | .hsl color => pure (.hsl color.simplify)
  | .dynamic keyword => pure (.dynamic keyword)
  | .named name => .rgb <$> p.lookUp name
  | .defined name => .rgb <$> refer name
  | .mix a b factor => do
    let a ← p.rgbOperand .mix (← p.resolveAt a (depth + 1))
    let b ← p.rgbOperand .mix (← p.resolveAt b (depth + 1))
    pure (.rgb (a.mix b factor.simplify))
  | .shade color factor => do
    let color ← p.hslOperand .shade (← p.resolveAt color (depth + 1))
    pure (.hsl (color.shade factor.simplify))
  | .lighter color => do
    let color ← p.hslOperand .lighter (← p.resolveAt color (depth + 1))
    pure (.hsl (color.shade fixedFactor))
  | .darker color => do
    let color ← p.hslOperand .darker (← p.resolveAt color (depth + 1))
    pure (.hsl (color.shade fixedFactor))
  | .alpha color factor => do
    p.fadeOperand factor.simplify (← p.resolveAt color (depth + 1))

/-- Every step of `resolveAt` is checked for its depth and its size. -/
theorem resolveAt_eq_guarded (p : Palette α) (c : Color α) (depth : Nat) :
    p.resolveAt c depth = guarded depth (p.step c depth) := by
  cases c <;> rfl

/-- The fallback colors would pass the check themselves. -/
structure SmallFallbacks (p : Palette α) : Prop where
  rgb : p.rgbFallback.nodeCount ≤ sizeLimit
  hsl : p.hslFallback.nodeCount ≤ sizeLimit

/-- The colors that `Palette.default` falls back to are small. -/
theorem smallFallbacks_default : (default : Palette α).SmallFallbacks := by
  have hfour : 4 ≤ sizeLimit := by decide
  exact ⟨hfour, hfour⟩

section Operands

variable {r s : Canonical α}

omit [Scalar α] in
/-- What an `RgbOperand` stands for passes the check if the color does. -/
theorem RgbOperand.nodeCount_le (hp : p.SmallFallbacks) {x : Rgb α} (h : RgbOperand p r x)
    (hr : r.nodeCount ≤ sizeLimit) : x.nodeCount ≤ sizeLimit := by
  cases h with
  | rgb color => exact hr
  | dynamic keyword => exact hp.rgb

/-- What an `HslOperand` stands for may have been converted: it is not checked again, but was
checked before the conversion. -/
theorem HslOperand.nodeCount_le (hp : p.SmallFallbacks) {x : Hsl α} (h : HslOperand p r x)
    (hr : r.nodeCount ≤ sizeLimit) : x.nodeCount ≤ 39 * sizeLimit + 428 := by
  have hlimit : sizeLimit ≤ 39 * sizeLimit + 428 := by omega
  cases h with
  | rgb color =>
    have hcolor : color.nodeCount ≤ sizeLimit := hr
    exact color.nodeCount_toHsl_le.trans (by omega)
  | hsl color => exact Nat.le_trans hr hlimit
  | dynamic keyword => exact hp.hsl.trans hlimit

/-- What a `FadeOperand` makes is larger than a checked color by the factor and four nodes. -/
theorem FadeOperand.nodeCount_le (hp : p.SmallFallbacks) {factor : Expr α}
    (h : FadeOperand p factor r s) (hr : r.nodeCount ≤ sizeLimit) :
    s.nodeCount ≤ sizeLimit + factor.nodeCount + 4 := by
  cases h with
  | rgb color =>
    have hcolor : color.nodeCount ≤ sizeLimit := hr
    exact (color.nodeCount_fade_le factor).trans (by omega)
  | hsl color =>
    have hcolor : color.nodeCount ≤ sizeLimit := hr
    exact (color.nodeCount_fade_le factor).trans (by omega)
  | dynamic keyword =>
    have hfallback := hp.rgb
    exact (p.rgbFallback.nodeCount_fade_le factor).trans (by omega)

end Operands

/-- What `hslOperand` has made of an operand when it is used. -/
theorem nodeCount_of_yields_hslOperand (hp : p.SmallFallbacks) {operator : Composite} {x : Hsl α}
    (h : Yields (p.resolveAt c depth >>= p.hslOperand operator) x) :
    x.nodeCount ≤ 39 * sizeLimit + 428 := by
  obtain ⟨r, hr, hx⟩ := exists_of_yields_bind h
  exact (hslOperand_of_yields hx).nodeCount_le hp (nodeCount_of_yields hr)

/-- A shaded color is larger than the operand by the factor, twice, and eight nodes. -/
theorem nodeCount_of_yields_shade (hp : p.SmallFallbacks) {operator : Composite}
    {factor : Expr α} {r : Canonical α}
    (h : Yields (p.resolveAt c depth >>= fun s => p.hslOperand operator s >>= fun color =>
      pure (.hsl (color.shade factor))) r) :
    r.nodeCount ≤ 39 * sizeLimit + 436 + 2 * factor.nodeCount := by
  rw [← bind_assoc] at h
  obtain ⟨x, hx, h⟩ := exists_of_yields_bind h
  obtain rfl := yields_pure_iff.mp h
  have hoperand := nodeCount_of_yields_hslOperand hp hx
  exact (x.nodeCount_shade_le factor).trans (by omega)

/-- What a `step` yields stays below the `ceiling`. -/
theorem nodeCount_le_ceiling (hp : p.SmallFallbacks) {r : Canonical α}
    (h : Yields (p.step c depth) r) : r.nodeCount ≤ c.ceiling := by
  cases c with
  | rgb color =>
    obtain rfl := yields_pure_iff.mp h
    exact color.nodeCount_simplify_le
  | hsl color =>
    obtain rfl := yields_pure_iff.mp h
    exact color.nodeCount_simplify_le
  | dynamic keyword =>
    obtain rfl := yields_pure_iff.mp h
    exact Nat.le_refl 0
  | named name =>
    obtain ⟨color, hcolor, rfl⟩ := exists_of_yields_map h
    unfold lookUp at hcolor
    split at hcolor
    · obtain rfl := yields_pure_iff.mp hcolor
      exact Nat.le_refl 4
    · exact absurd hcolor not_yields_throw
  | defined name =>
    obtain ⟨color, hcolor, rfl⟩ := exists_of_yields_map h
    unfold refer at hcolor
    split at hcolor
    · obtain rfl := yields_pure_iff.mp hcolor
      exact Nat.le_refl 4
    · exact absurd hcolor not_yields_throw
  | mix a b factor =>
    obtain ⟨a', ha, h⟩ := exists_of_yields_bind h
    obtain ⟨x, hx, h⟩ := exists_of_yields_bind h
    obtain ⟨b', hb, h⟩ := exists_of_yields_bind h
    obtain ⟨y, hy, h⟩ := exists_of_yields_bind h
    obtain rfl := yields_pure_iff.mp h
    -- Both operands were checked when they were resolved, so only this step can add to them.
    have hfirst := (rgbOperand_of_yields hx).nodeCount_le hp (nodeCount_of_yields ha)
    have hsecond := (rgbOperand_of_yields hy).nodeCount_le hp (nodeCount_of_yields hb)
    have hfactor := Expr.nodeCount_simplify_le factor
    exact (x.nodeCount_mix_le y factor.simplify).trans (by rw [Color.ceiling]; omega)
  | shade color factor =>
    have hfactor := Expr.nodeCount_simplify_le factor
    exact (nodeCount_of_yields_shade hp h).trans (by rw [Color.ceiling]; omega)
  | lighter color => exact nodeCount_of_yields_shade hp h
  | darker color => exact nodeCount_of_yields_shade hp h
  | alpha color factor =>
    obtain ⟨color', hcolor, h⟩ := exists_of_yields_bind h
    have hfaded := (fadeOperand_of_yields h).nodeCount_le hp (nodeCount_of_yields hcolor)
    have hfactor := Expr.nodeCount_simplify_le factor
    exact hfaded.trans (by rw [Color.ceiling]; omega)

/-- **Resolving grows trees only linearly before it checks their size.** Simplifying never makes a
tree larger, and the conversion and the mixture of colors have linear bounds. Resolving is a step
with a check around it. Its operands have passed their check, so a converted operand has at most
`39 * sizeLimit + 438` nodes, and the result of the step has at most as many as the ceiling says
when it comes to the check. -/
theorem growth_linear (α : Type) [Scalar α] :
    (∀ e : Expr α, e.simplify.nodeCount ≤ e.nodeCount) ∧
    (∀ c : Rgb α, c.toHsl.nodeCount ≤ 39 * c.nodeCount + 438) ∧
    (∀ (a b : Rgb α) (t : Expr α), (a.mix b t).nodeCount ≤
      14 * a.nodeCount + 7 * b.nodeCount + 7 * t.nodeCount + 33) ∧
    ∀ (p : Palette α) (c : Color α) (depth : Nat), p.SmallFallbacks →
      p.resolveAt c depth = guarded depth (p.step c depth) ∧
      (∀ operator x, Yields (p.resolveAt c depth >>= p.hslOperand operator) x →
        x.nodeCount ≤ 39 * sizeLimit + 438) ∧
      ∀ r, Yields (p.step c depth) r → r.nodeCount ≤ c.ceiling := by
  refine ⟨Expr.nodeCount_simplify_le, fun c => c.nodeCount_toHsl_le.trans (by omega),
    Rgb.nodeCount_mix_le, fun p c depth hp => ⟨resolveAt_eq_guarded p c depth, ?_, ?_⟩⟩
  · intro operator x hx
    exact (nodeCount_of_yields_hslOperand hp hx).trans (by omega)
  · intro r hr
    exact nodeCount_le_ceiling hp hr

/-- A color of which nothing is known has 541 nodes when it has been converted, and 551 nodes when
it has been shaded. -/
theorem growth_linear_unknown :
    ∃ (c : Rgb Float) (x : Hsl Float) (r : Canonical Float),
      Yields (default.resolveAt (.rgb c) 1 >>= default.hslOperand .shade) x ∧
      x.nodeCount = 541 ∧ x.nodeCount ≤ 39 * sizeLimit + 438 ∧
      Yields (default.step (.shade (.rgb c) (.var "--t")) 0) r ∧
      r.nodeCount = 551 ∧ r.nodeCount ≤ (Color.shade (.rgb c) (.var "--t")).ceiling := by
  have hgrowth := (growth_linear Float).2.2.2 default
  have hoperand := (hgrowth (.rgb ⟨.var "--r", .var "--g", .var "--b", .var "--a"⟩) 1
    smallFallbacks_default).2.1 .shade _ ⟨[], [], rfl⟩
  have hresult := (hgrowth (.shade (.rgb ⟨.var "--r", .var "--g", .var "--b", .var "--a"⟩)
    (.var "--t")) 0 smallFallbacks_default).2.2 _ ⟨[], [], rfl⟩
  exact ⟨_, _, _, ⟨[], [], rfl⟩, by decide +kernel, hoperand, ⟨[], [], rfl⟩, by decide +kernel,
    hresult⟩

end Palette

end ThemeColor
