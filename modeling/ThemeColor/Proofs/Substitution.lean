import ThemeColor.Proofs.Evaluation
import ThemeColor.Proofs.Resolution

/-!
# Known values and unknown ones

A color whose texts are not known yet is resolved to expressions that are computed later. Here the
outcome is compared with that of the color in which every such text is replaced by its value from
the start, so that everything folds to numbers: field by field both have the same value
(`resolve_substitute_agree`).
-/

namespace ThemeColor

/-! ## Replacing texts by their values -/

namespace Expr

mutual

/-- The expression with every verbatim text replaced by its value. -/
def substitute (s : String → Rat) : Expr Rat → Expr Rat
  | .quantity q => .quantity q
  | .verbatim text => number (s text)
  | .binary op lhs rhs => .binary op (substitute s lhs) (substitute s rhs)
  | .call function args => .call function (substituteAll s args)

/-- The expressions with every verbatim text replaced by its value. -/
def substituteAll (s : String → Rat) : List (Expr Rat) → List (Expr Rat)
  | [] => []
  | e :: es => substitute s e :: substituteAll s es

end

variable {s : String → Rat}

mutual

/-- Replacing texts with `substitute` keeps the value of an expression. -/
@[simp]
theorem value_substitute : ∀ e : Expr Rat, value s (substitute s e) = value s e
  | .quantity q => by rw [substitute]
  | .verbatim text => by rw [substitute, value_number, value_verbatim]
  | .binary op lhs rhs => by
    rw [substitute, value_binary, value_substitute lhs, value_substitute rhs, value_binary]
  | .call function args => by
    rw [substitute, value_call, values_substituteAll args, value_call]

/-- Replacing texts with `substituteAll` keeps the values of expressions. -/
theorem values_substituteAll : ∀ es : List (Expr Rat), values s (substituteAll s es) = values s es
  | [] => by rw [substituteAll]
  | e :: es => by
    rw [substituteAll, values_cons, value_substitute e, values_substituteAll es, values_cons]

end

end Expr

open ThemeColor.Expr

/-- The color with the fields in which every verbatim text is replaced by its value. -/
def Rgb.substitute (s : String → Rat) (c : Rgb Rat) : Rgb Rat :=
  ⟨c.red.substitute s, c.green.substitute s, c.blue.substitute s, c.alpha.substitute s⟩

/-- The color with the fields in which every verbatim text is replaced by its value. -/
def Hsl.substitute (s : String → Rat) (c : Hsl Rat) : Hsl Rat :=
  ⟨c.hue.substitute s, c.saturation.substitute s, c.lightness.substitute s, c.alpha.substitute s⟩

/-- The color that a defined color has when its four custom properties have the values that `s`
gives to the references to them. -/
def ChannelNames.known (s : String → Rat) (names : ChannelNames) : Rgb Rat :=
  ⟨.number (s ("var(" ++ names.red ++ ")")), .number (s ("var(" ++ names.green ++ ")")),
    .number (s ("var(" ++ names.blue ++ ")")), .number (s ("var(" ++ names.alpha ++ ")"))⟩

/-- The color expression with every verbatim text and every defined color replaced by its value. A
name that no custom property can have stays as it is. -/
def Color.substitute (s : String → Rat) : Color Rat → Color Rat
  | .rgb color => .rgb (color.substitute s)
  | .hsl color => .hsl (color.substitute s)
  | .mix a b factor => .mix (a.substitute s) (b.substitute s) (factor.substitute s)
  | .shade color factor => .shade (color.substitute s) (factor.substitute s)
  | .alpha color factor => .alpha (color.substitute s) (factor.substitute s)
  | .lighter color => .lighter (color.substitute s)
  | .darker color => .darker (color.substitute s)
  | .defined name =>
    match ChannelNames.ofIdentifier name with
    | .ok names => .rgb (names.known s)
    | .error _ => .defined name
  | .named name => .named name
  | .dynamic keyword => .dynamic keyword

/-! ## Colors with the same values -/

/-- The fields of the two colors have the same values. -/
structure Rgb.Agree (s : String → Rat) (a b : Rgb Rat) : Prop where
  /-- The red channels agree. -/
  red : value s a.red = value s b.red
  /-- The green channels agree. -/
  green : value s a.green = value s b.green
  /-- The blue channels agree. -/
  blue : value s a.blue = value s b.blue
  /-- The opacities agree. -/
  alpha : value s a.alpha = value s b.alpha

/-- The fields of the two colors have the same values. -/
structure Hsl.Agree (s : String → Rat) (a b : Hsl Rat) : Prop where
  /-- The angles agree. -/
  hue : value s a.hue = value s b.hue
  /-- The saturations agree. -/
  saturation : value s a.saturation = value s b.saturation
  /-- The lightnesses agree. -/
  lightness : value s a.lightness = value s b.lightness
  /-- The opacities agree. -/
  alpha : value s a.alpha = value s b.alpha

/-- The two colors are of one kind, and their fields have the same values. -/
def Canonical.Agree (s : String → Rat) : Canonical Rat → Canonical Rat → Prop
  | .rgb a, .rgb b => a.Agree s b
  | .hsl a, .hsl b => a.Agree s b
  | .dynamic a, .dynamic b => a = b
  | _, _ => False

variable {s : String → Rat}

namespace Rgb.Agree

theorem refl (c : Rgb Rat) : c.Agree s c := ⟨rfl, rfl, rfl, rfl⟩

/-- A simplified color is in `Agree` with the color simplified after its texts are replaced. -/
theorem simplify_substitute (c : Rgb Rat) : c.simplify.Agree s (c.substitute s).simplify := by
  constructor <;> simp [Rgb.simplify, Rgb.substitute]

/-- The value of a channel of a mixture. A mixture that is known to be invisible is black, which is
also what the quotient of `Rgb.mixChannel` by its opacity comes to. -/
theorem value_channel (x y a b alpha t : Expr Rat) :
    value s (if alpha.isNumber 0.0 then number 0.0 else Rgb.mixChannel x y a b alpha t) =
      (value s x * value s a + (value s y * value s b - value s x * value s a) * value s t) /
        value s alpha := by
  split
  · rename_i hzero
    rw [value_number, value_of_isNumber hzero, Scalar.rat_zero, div_zero]
  · simp only [Rgb.mixChannel, Expr.lerp, value_simplify, value_div, value_add, value_mul,
      value_sub]

/-- Mixtures `Agree` if their operands and factors do. -/
theorem mix {a a' b b' : Rgb Rat} {t t' : Expr Rat} (ha : a.Agree s a') (hb : b.Agree s b')
    (ht : value s t = value s t') : (a.mix b t).Agree s (a'.mix b' t') := by
  have halpha :
      value s (Expr.lerp a.alpha b.alpha t) = value s (Expr.lerp a'.alpha b'.alpha t') := by
    simp only [Expr.lerp, value_add, value_mul, value_sub, ha.alpha, hb.alpha, ht]
  constructor
  · simp only [Rgb.mix, value_channel, halpha, ha.red, hb.red, ha.alpha, hb.alpha, ht]
  · simp only [Rgb.mix, value_channel, halpha, ha.green, hb.green, ha.alpha, hb.alpha, ht]
  · simp only [Rgb.mix, value_channel, halpha, ha.blue, hb.blue, ha.alpha, hb.alpha, ht]
  · simp only [Rgb.mix, value_simplify, halpha]

/-- Faded colors `Agree` if the colors and the factors do. -/
theorem fade {a b : Rgb Rat} {t t' : Expr Rat} (h : a.Agree s b) (ht : value s t = value s t') :
    (a.fade t).Agree s (b.fade t') := by
  refine ⟨h.red, h.green, h.blue, ?_⟩
  simp only [Rgb.fade, fadeAlpha, value_simplify, value_clamp, value_mul, value_number, h.alpha, ht]

end Rgb.Agree

/-! ### From red, green and blue to hue, saturation and lightness -/

namespace Hue

/-- The channels of the two colors have the same values. -/
structure Channels.Agree (s : String → Rat) (c d : Channels Rat) : Prop where
  /-- The red channels agree. -/
  red : value s c.red = value s d.red
  /-- The green channels agree. -/
  green : value s c.green = value s d.green
  /-- The blue channels agree. -/
  blue : value s c.blue = value s d.blue
  /-- The greatest channels agree. -/
  greatest : value s c.greatest = value s d.greatest
  /-- The least channels agree. -/
  least : value s c.least = value s d.least

/-- The value of a `selector` is the slope, moved between 0 and 1. -/
@[simp]
theorem value_selector (x : Expr Rat) (slope : Rat) :
    value s (selector x slope) = Max.max 0.0 (Min.min (value s x * slope) 1.0) := by
  simp only [selector, cutOff, value_clamp, value_number, value_mul]

/-- The value of a `negation` is what is missing to 1. -/
@[simp]
theorem value_negation (x : Expr Rat) : value s (negation x) = 1.0 - value s x := by
  rw [negation, value_sub, value_number]

namespace Channels.Agree

variable {c d : Channels Rat}

/-- The `Channels` of colors that agree have the same values. -/
theorem ofRgb {a b : Rgb Rat} (h : a.Agree s b) :
    (Channels.ofRgb a).Agree s (Channels.ofRgb b) := by
  have hred : value s (div a.red (number 255.0)) = value s (div b.red (number 255.0)) := by
    rw [value_div, value_div, h.red]
  have hgreen : value s (div a.green (number 255.0)) = value s (div b.green (number 255.0)) := by
    rw [value_div, value_div, h.green]
  have hblue : value s (div a.blue (number 255.0)) = value s (div b.blue (number 255.0)) := by
    rw [value_div, value_div, h.blue]
  refine ⟨hred, hgreen, hblue, ?_, ?_⟩
  · simp only [Channels.ofRgb, value_max, values_cons, hred, hgreen, hblue]
  · simp only [Channels.ofRgb, value_min, values_cons, hred, hgreen, hblue]

theorem spread (h : c.Agree s d) : value s c.spread = value s d.spread := by
  simp only [Channels.spread, value_sub, h.greatest, h.least]

theorem total (h : c.Agree s d) : value s c.total = value s d.total := by
  simp only [Channels.total, value_add, h.greatest, h.least]

theorem lightness (h : c.Agree s d) : value s c.lightness = value s d.lightness := by
  simp only [Channels.lightness, value_div, h.total]

theorem chromatic (h : c.Agree s d) : value s c.chromatic = value s d.chromatic := by
  simp only [Channels.chromatic, value_selector, h.spread]

theorem saturation (h : c.Agree s d) : value s c.saturation = value s d.saturation := by
  simp only [Channels.saturation, value_div, value_mul, value_add, value_sub, value_number,
    value_selector, h.chromatic, h.spread, h.total, h.lightness]

theorem isGreatest (h : c.Agree s d) {x y : Expr Rat} (hx : value s x = value s y) :
    value s (c.isGreatest x) = value s (d.isGreatest y) := by
  simp only [Channels.isGreatest, value_selector, value_add, value_sub, hx, h.greatest]

theorem sectors (h : c.Agree s d) : value s c.sectors = value s d.sectors := by
  simp only [Channels.sectors, Channels.redFirst, Channels.greenFirst, Channels.blueFirst,
    value_add, value_mul, value_div, value_sub, value_number, value_selector, value_negation,
    h.isGreatest h.red, h.isGreatest h.green, h.isGreatest h.blue, h.spread, h.red, h.green,
    h.blue]

theorem hue (h : c.Agree s d) : value s c.hue = value s d.hue := by
  simp only [Channels.hue, value_mul, h.chromatic, h.sectors]

end Channels.Agree

end Hue

/-- Colors that `Agree` are converted into colors that agree. -/
theorem Rgb.Agree.toHsl {a b : Rgb Rat} (h : a.Agree s b) : a.toHsl.Agree s b.toHsl := by
  have hchannels := Hue.Channels.Agree.ofRgb h
  constructor
  · simp only [Rgb.toHsl, value_simplify, hchannels.hue]
  · simp only [Rgb.toHsl, value_simplify, value_mul, hchannels.saturation]
  · simp only [Rgb.toHsl, value_simplify, value_mul, hchannels.lightness]
  · simp only [Rgb.toHsl, value_simplify, h.alpha]

namespace Hsl.Agree

theorem refl (c : Hsl Rat) : c.Agree s c := ⟨rfl, rfl, rfl, rfl⟩

/-- A simplified color by hue is in `Agree` with the color simplified after its texts are replaced.
-/
theorem simplify_substitute (c : Hsl Rat) : c.simplify.Agree s (c.substitute s).simplify := by
  constructor <;> simp [Hsl.simplify, Hsl.substitute]

/-- Shaded colors `Agree` if the colors and the factors do. -/
theorem shade {a b : Hsl Rat} {t t' : Expr Rat} (h : a.Agree s b) (ht : value s t = value s t') :
    (a.shade t).Agree s (b.shade t') := by
  refine ⟨h.hue, ?_, ?_, h.alpha⟩
  · simp only [Hsl.shade, Hsl.scalePercentage, value_simplify, value_clamp, value_mul,
      value_percent, h.saturation, ht]
  · simp only [Hsl.shade, Hsl.scalePercentage, value_simplify, value_clamp, value_mul,
      value_percent, h.lightness, ht]

/-- Faded colors by hue `Agree` if the colors and the factors do. -/
theorem fade {a b : Hsl Rat} {t t' : Expr Rat} (h : a.Agree s b) (ht : value s t = value s t') :
    (a.fade t).Agree s (b.fade t') := by
  refine ⟨h.hue, h.saturation, h.lightness, ?_⟩
  simp only [Hsl.fade, fadeAlpha, value_simplify, value_clamp, value_mul, value_number, h.alpha, ht]

end Hsl.Agree

/-! ## Operands -/

namespace Palette

variable {p : Palette Rat} {c c' : Canonical Rat}

/-- What an `RgbOperand` takes agreeing colors for agrees. -/
theorem RgbOperand.agree {x y : Rgb Rat} (hx : RgbOperand p c x) (hy : RgbOperand p c' y)
    (h : c.Agree s c') : x.Agree s y := by
  cases hx with
  | rgb color =>
    cases hy with
    | rgb color' => exact h
    | dynamic keyword => exact h.elim
  | dynamic keyword =>
    cases hy with
    | rgb color' => exact h.elim
    | dynamic keyword' => exact .refl _

/-- What an `HslOperand` takes agreeing colors for agrees. -/
theorem HslOperand.agree {x y : Hsl Rat} (hx : HslOperand p c x) (hy : HslOperand p c' y)
    (h : c.Agree s c') : x.Agree s y := by
  cases hx with
  | rgb color =>
    cases hy with
    | rgb color' => exact Rgb.Agree.toHsl h
    | hsl color' => exact h.elim
    | dynamic keyword => exact h.elim
  | hsl color =>
    cases hy with
    | rgb color' => exact h.elim
    | hsl color' => exact h
    | dynamic keyword => exact h.elim
  | dynamic keyword =>
    cases hy with
    | rgb color' => exact h.elim
    | hsl color' => exact h.elim
    | dynamic keyword' => exact .refl _

/-- What a `FadeOperand` makes of agreeing colors and factors agrees. -/
theorem FadeOperand.agree {t t' : Expr Rat} {r r' : Canonical Rat} (hr : FadeOperand p t c r)
    (hr' : FadeOperand p t' c' r') (h : c.Agree s c') (ht : value s t = value s t') :
    r.Agree s r' := by
  cases hr with
  | rgb color =>
    cases hr' with
    | rgb color' => exact Rgb.Agree.fade h ht
    | hsl color' => exact h.elim
    | dynamic keyword => exact h.elim
  | hsl color =>
    cases hr' with
    | rgb color' => exact h.elim
    | hsl color' => exact Hsl.Agree.fade h ht
    | dynamic keyword => exact h.elim
  | dynamic keyword =>
    cases hr' with
    | rgb color' => exact h.elim
    | hsl color' => exact h.elim
    | dynamic keyword' => exact Rgb.Agree.fade (.refl _) ht

/-- What a color `Resolves` to agrees with what it resolves to once its texts are replaced by their
values, for every rule of resolution. -/
theorem Resolves.agree {c : Color Rat} {r r' : Canonical Rat} (h : Resolves p c r)
    (h' : Resolves p (c.substitute s) r') : r.Agree s r' := by
  -- The induction follows the rules of the first run; the second run follows the same ones.
  have hfactor (t : Expr Rat) : value s t.simplify = value s (t.substitute s).simplify := by simp
  induction h generalizing r' with
  | rgb color =>
    cases h' with
    | rgb color' => exact Rgb.Agree.simplify_substitute color
  | hsl color =>
    cases h' with
    | hsl color' => exact Hsl.Agree.simplify_substitute color
  | dynamic keyword =>
    cases h' with
    | dynamic keyword' => rfl
  | named hname =>
    cases h' with
    | named hname' =>
      rw [hname] at hname'
      cases hname'
      exact Rgb.Agree.refl _
  | @defined name names hname =>
    -- A defined color is the one kind that changes: it becomes a color with known channels.
    rw [Color.substitute, hname] at h'
    cases h' with
    | rgb color' =>
      constructor <;> simp [ChannelNames.known, Rgb.simplify, Expr.var]
  | mix ha hx hb hy iha ihb =>
    cases h' with
    | mix ha' hx' hb' hy' =>
      exact Rgb.Agree.mix (hx.agree hx' (iha ha')) (hy.agree hy' (ihb hb')) (hfactor _)
  | shade hc hx ih =>
    cases h' with
    | shade hc' hx' => exact Hsl.Agree.shade (hx.agree hx' (ih hc')) (hfactor _)
  | lighter hc hx ih =>
    cases h' with
    | lighter hc' hx' => exact Hsl.Agree.shade (hx.agree hx' (ih hc')) rfl
  | darker hc hx ih =>
    cases h' with
    | darker hc' hx' => exact Hsl.Agree.shade (hx.agree hx' (ih hc')) rfl
  | alpha hc hr ih =>
    cases h' with
    | alpha hc' hr' => exact hr.agree hr' (ih hc') (hfactor _)

end Palette

/-- **Later values agree with early ones.** Let a color expression come down to `r`, and let it come
down to `r'` when every text in it that is not known, and every defined color, is replaced by the
value that `s` gives it. Then both are colors of one kind, and every field of `r`, evaluated with
the values that `s` gives, has the value of that field of `r'`. This covers all functions of colors
and all ways to fold an expression, and needs no condition on divisors: what the quotient by zero
counts as agrees with the black of an invisible mixture. -/
theorem resolve_substitute_agree {s : String → Rat} {c : Color Rat} {r r' : Canonical Rat}
    (h : c.resolve.1 = .ok r) (h' : (c.substitute s).resolve.1 = .ok r') : r.Agree s r' := by
  have hresolves : Palette.default.Resolves c r :=
    Palette.resolves_of_yields ⟨[], c.resolve.2, Prod.ext h rfl⟩
  have hresolves' : Palette.default.Resolves (c.substitute s) r' :=
    Palette.resolves_of_yields ⟨[], (c.substitute s).resolve.2, Prod.ext h' rfl⟩
  exact hresolves.agree hresolves'

/-- A shade of a mixture of a defined color and a color with an unknown channel. -/
theorem resolve_substitute_agree_shade :
    let s : String → Rat := fun text => text.length
    let c : Color Rat := .shade (.mix (.defined "a") (.rgb ⟨.number 255, .verbatim "var(--x)",
      .number 0, .number 1⟩) (.verbatim "calc(1/4)")) (.number (3 / 2))
    ∃ r r', c.resolve.1 = .ok r ∧ (c.substitute s).resolve.1 = .ok r' ∧ r.Agree s r' := by
  intro s c
  have hsome : c.resolve.1.toOption.isSome := by decide +kernel
  have hsome' : (c.substitute s).resolve.1.toOption.isSome := by decide +kernel
  rcases h : c.resolve.1 with e | r
  · rw [h] at hsome
    cases hsome
  · rcases h' : (c.substitute s).resolve.1 with e | r'
    · rw [h'] at hsome'
      cases hsome'
    · exact ⟨r, r', rfl, rfl, resolve_substitute_agree h h'⟩

end ThemeColor
