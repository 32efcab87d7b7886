import Mathlib.Algebra.Order.Field.Basic
import Mathlib.Tactic.Linarith
import Mathlib.Tactic.FieldSimp
import Mathlib.Tactic.Ring
import ThemeColor.Color.Hue
import ThemeColor.Proofs.Interpretation

/-!
# The textbook conversion

The textbook finds hue, saturation and lightness by cases: which channel is the greatest one,
whether the color is gray, and whether it is light or dark. The conversion of this library computes
all cases and multiplies each by a selector, a steep ramp cut off at 0 and 1, and adds tiny amounts
to divisors. Over exact numbers, and for known channels no two of which nearly agree, the selectors
are exactly 0 or 1, and the tiny amounts change the result by next to nothing
(`Rgb.toHsl_near_textbook`).
-/

namespace ThemeColor

/-! ## Folding of plain numbers -/

namespace Expr

theorem add_number (a b : Rat) : add (number a) (number b) = number (a + b) := rfl

theorem sub_number (a b : Rat) : sub (number a) (number b) = number (a - b) := rfl

theorem mul_number (a b : Rat) : mul (number a) (number b) = number (a * b) := rfl

theorem mul_number_percent (a b : Rat) : mul (number a) (percent b) = percent (a * b) := rfl

/-- Numbers are divided by `Expr.div`, unless the divisor is zero. -/
theorem div_number (a : Rat) {b : Rat} (h : b ≠ 0) :
    div (number a) (number b) = number (a / b) := by
  have hzero : ¬ (b == 0.0) = true := fun hb => h ((eq_of_beq hb).trans Scalar.rat_zero)
  simp only [div, divLiterals?, number, if_neg hzero]
  rfl

/-- Moving a number between two others with `Expr.clamp`; the lower end wins. -/
theorem clamp_number (low x high : Rat) :
    clamp (number low) (number x) (number high) = number (Max.max low (Min.min x high)) := by
  rw [← Scalar.clamp_eq]
  rfl

/-- The greatest of three numbers, as `Expr.max` folds it. -/
theorem max_number (a b c : Rat) :
    max [number a, number b, number c] = number (Max.max (Max.max a b) c) := by
  rw [← Scalar.greatest_eq_max, ← Scalar.greatest_eq_max]
  rfl

/-- The least of three numbers, as `Expr.min` folds it. -/
theorem min_number (a b c : Rat) :
    min [number a, number b, number c] = number (Min.min (Min.min a b) c) := by
  rw [← Scalar.least_eq_min, ← Scalar.least_eq_min]
  rfl

end Expr

namespace Hue

open ThemeColor.Expr

/-! ## The textbook -/

/-- The channel that decides the third of the color wheel. -/
inductive Sector where
  /-- Red is the greatest channel. -/
  | red
  /-- Green is the greatest channel, and red is not. -/
  | green
  /-- Blue alone is the greatest channel. -/
  | blue
  deriving DecidableEq, Repr

namespace Textbook

variable (r g b : Rat)

/-- The greatest channel. -/
def greatest : Rat := Max.max (Max.max r g) b

/-- The least channel. -/
def least : Rat := Min.min (Min.min r g) b

/-- The first greatest channel in the order red, green, blue. -/
def sector : Sector :=
  if r = greatest r g b then .red
  else if g = greatest r g b then .green
  else .blue

/-- The lightness, from 0 to 1. -/
def lightness : Rat := (greatest r g b + least r g b) / 2

/-- The saturation, from 0 to 1. -/
def saturation : Rat :=
  if lightness r g b = 0 ∨ lightness r g b = 1 then 0
  else (greatest r g b - lightness r g b) / Min.min (lightness r g b) (1 - lightness r g b)

/-- The position on the color wheel in sectors of 60 degrees, for a color that is not gray. -/
def position : Rat :=
  match sector r g b with
  | .red => (g - b) / (greatest r g b - least r g b) + if g < b then 6 else 0
  | .green => (b - r) / (greatest r g b - least r g b) + 2
  | .blue => (r - g) / (greatest r g b - least r g b) + 4

/-- The hue in degrees; 0 for a gray color. -/
def hue : Rat := if greatest r g b = least r g b then 0 else 60 * position r g b

variable {r g b}

/-- The `greatest` channel is one of the three. -/
theorem greatest_mem : greatest r g b ∈ [r, g, b] := by
  unfold greatest
  rcases max_choice (Max.max r g) b with h | h
  · rw [h]
    rcases max_choice r g with h | h <;> simp only [h, List.mem_cons, true_or, or_true]
  · simp only [h, List.mem_cons, true_or, or_true]

/-- The `least` channel is one of the three. -/
theorem least_mem : least r g b ∈ [r, g, b] := by
  unfold least
  rcases min_choice (Min.min r g) b with h | h
  · rw [h]
    rcases min_choice r g with h | h <;> simp only [h, List.mem_cons, true_or, or_true]
  · simp only [h, List.mem_cons, true_or, or_true]

/-- No channel is above the `greatest` one. -/
theorem le_greatest {x : Rat} (h : x ∈ [r, g, b]) : x ≤ greatest r g b := by
  unfold greatest
  simp only [List.mem_cons, List.not_mem_nil, or_false] at h
  rcases h with rfl | rfl | rfl <;> simp

/-- No channel is below the `least` one. -/
theorem least_le {x : Rat} (h : x ∈ [r, g, b]) : least r g b ≤ x := by
  unfold least
  simp only [List.mem_cons, List.not_mem_nil, or_false] at h
  rcases h with rfl | rfl | rfl <;> simp

/-- The `sector` is that of the first channel, in the order red, green and blue, that is the
`greatest` one. -/
theorem sector_cases :
    (sector r g b = .red ∧ r = greatest r g b) ∨
    (sector r g b = .green ∧ r ≠ greatest r g b ∧ g = greatest r g b) ∨
    (sector r g b = .blue ∧ r ≠ greatest r g b ∧ g ≠ greatest r g b ∧ b = greatest r g b) := by
  have hmem := greatest_mem (r := r) (g := g) (b := b)
  simp only [List.mem_cons, List.not_mem_nil, or_false] at hmem
  unfold sector
  by_cases hr : r = greatest r g b
  · exact .inl ⟨if_pos hr, hr⟩
  · rw [if_neg hr]
    by_cases hg : g = greatest r g b
    · exact .inr (.inl ⟨if_pos hg, hr, hg⟩)
    · have hb := (hmem.resolve_left (Ne.symm hr)).resolve_left (Ne.symm hg)
      exact .inr (.inr ⟨if_neg hg, hr, hg, hb.symm⟩)

/-- Scaling the channels scales the `greatest` one. -/
theorem greatest_div {top : Rat} (htop : 0 < top) :
    greatest (r / top) (g / top) (b / top) = greatest r g b / top := by
  rw [greatest, max_div_div_right htop.le, max_div_div_right htop.le, greatest]

/-- Scaling the channels scales the `least` one. -/
theorem least_div {top : Rat} (htop : 0 < top) :
    least (r / top) (g / top) (b / top) = least r g b / top := by
  rw [least, min_div_div_right htop.le, min_div_div_right htop.le, least]

/-- Scaling the channels keeps the `sector`. -/
theorem sector_div {top : Rat} (htop : 0 < top) :
    sector (r / top) (g / top) (b / top) = sector r g b := by
  simp only [sector, greatest_div htop, div_left_inj' htop.ne']

end Textbook

open Textbook

/-! ## Clear channels -/

/-- Zero, or at least `margin` away from it. -/
def IsClear (margin x : Rat) : Prop := x = 0 ∨ margin ≤ |x|

/-- Channels from 0 to `top` no two of which nearly agree, with a lightness that is not nearly the
middle one. -/
structure AreClear (top margin r g b : Rat) : Prop where
  /-- The range of the red channel. -/
  red : 0 ≤ r ∧ r ≤ top
  /-- The range of the green channel. -/
  green : 0 ≤ g ∧ g ≤ top
  /-- The range of the blue channel. -/
  blue : 0 ≤ b ∧ b ≤ top
  /-- Red and green agree or are far apart. -/
  redGreen : IsClear margin (r - g)
  /-- Green and blue agree or are far apart. -/
  greenBlue : IsClear margin (g - b)
  /-- Red and blue agree or are far apart. -/
  redBlue : IsClear margin (r - b)
  /-- The lightness is the middle one or far from it. -/
  middle : IsClear margin (greatest r g b + least r g b - top)

/-- A difference is clear in both directions: `IsClear` does not look at the sign. -/
theorem IsClear.swap {margin x y : Rat} (h : IsClear margin (x - y)) : IsClear margin (y - x) := by
  rcases h with h | h
  · exact .inl (by linarith)
  · exact .inr (by rwa [abs_sub_comm])

/-- Scaling a clear difference scales its margin. -/
theorem IsClear.div {margin x top : Rat} (htop : 0 < top) (h : IsClear margin x) :
    IsClear (margin / top) (x / top) := by
  rcases h with h | h
  · exact .inl (by rw [h, zero_div])
  · exact .inr (by rw [abs_div, abs_of_pos htop]; exact div_le_div_of_nonneg_right h htop.le)

namespace AreClear

variable {top margin r g b : Rat}

/-- The differences of channels that `AreClear` are clear. -/
theorem sub (h : AreClear top margin r g b) {x y : Rat} (hx : x ∈ [r, g, b])
    (hy : y ∈ [r, g, b]) : IsClear margin (x - y) := by
  simp only [List.mem_cons, List.not_mem_nil, or_false] at hx hy
  rcases hx with rfl | rfl | rfl <;> rcases hy with rfl | rfl | rfl
  · exact .inl (sub_self _)
  · exact h.redGreen
  · exact h.redBlue
  · exact h.redGreen.swap
  · exact .inl (sub_self _)
  · exact h.greenBlue
  · exact h.redBlue.swap
  · exact h.greenBlue.swap
  · exact .inl (sub_self _)

/-- Channels that `AreClear` are within their range. -/
theorem range (h : AreClear top margin r g b) {x : Rat} (hx : x ∈ [r, g, b]) :
    0 ≤ x ∧ x ≤ top := by
  simp only [List.mem_cons, List.not_mem_nil, or_false] at hx
  rcases hx with rfl | rfl | rfl
  · exact h.red
  · exact h.green
  · exact h.blue

/-- Dividing channels that `AreClear` by the end of their range makes them fractions. -/
theorem div (htop : 0 < top) (h : AreClear top margin r g b) :
    AreClear 1 (margin / top) (r / top) (g / top) (b / top) := by
  have hrange {x : Rat} (hx : 0 ≤ x ∧ x ≤ top) : 0 ≤ x / top ∧ x / top ≤ 1 :=
    ⟨div_nonneg hx.1 htop.le, (div_le_one htop).mpr hx.2⟩
  refine ⟨hrange h.red, hrange h.green, hrange h.blue, ?_, ?_, ?_, ?_⟩
  · rw [← sub_div]
    exact h.redGreen.div htop
  · rw [← sub_div]
    exact h.greenBlue.div htop
  · rw [← sub_div]
    exact h.redBlue.div htop
  · rw [greatest_div htop, least_div htop, ← add_div, ← div_self htop.ne', ← sub_div]
    exact h.middle.div htop

end AreClear

/-! ## Channels that are plain numbers -/

/-- Channels that are known fractions. -/
def Channels.ofNumbers (r g b : Rat) : Channels Rat where
  red := number r
  green := number g
  blue := number b
  greatest := number (Textbook.greatest r g b)
  least := number (Textbook.least r g b)

/-- The `Channels` of a color with known channels are fractions of 255. -/
theorem ofRgb_number (r g b : Rat) (alpha : Expr Rat) :
    Channels.ofRgb ⟨number r, number g, number b, alpha⟩ =
      .ofNumbers (r / 255) (g / 255) (b / 255) := by
  have hbyte : (255.0 : Rat) = 255 := by norm_num
  have hdiv (x : Rat) : Expr.div (number x) (number 255.0) = number (x / 255) := by
    rw [div_number x (by norm_num), hbyte]
  simp only [Channels.ofRgb, hdiv, max_number, min_number, Channels.ofNumbers, greatest, least]

/-- A `selector` of a number is the scaled number, moved between 0 and 1. -/
theorem selector_number (x slope : Rat) :
    selector (number x) slope = number (Max.max 0 (Min.min (x * slope) 1)) := by
  rw [selector, cutOff, mul_number, clamp_number, Scalar.rat_zero, Scalar.rat_one]

/-- A `selector` is 1 if the number is clearly positive. -/
theorem selector_eq_one {x slope : Rat} (h : 1 ≤ x * slope) :
    selector (number x) slope = number 1 := by
  rw [selector_number, min_eq_right h, max_eq_right zero_le_one]

/-- A `selector` is 0 if the number is not positive. -/
theorem selector_eq_zero {x slope : Rat} (h : x * slope ≤ 0) :
    selector (number x) slope = number 0 := by
  rw [selector_number, min_eq_left (h.trans zero_le_one), max_eq_left h]

/-- The `negation` of a selector that is known. -/
theorem negation_number (x : Rat) : negation (number x) = number (1 - x) := by
  rw [negation, sub_number, Scalar.rat_one]

/-- The slopes of the selectors, as exact numbers. -/
theorem slopes : (chromaSlope : Rat) = 10 ^ 100 ∧ (lightnessSlope : Rat) = 10 ^ 30 ∧
    (channelSlope : Rat) = 10 ^ 31 := by
  refine ⟨?_, ?_, ?_⟩
  · norm_num [chromaSlope]
  · norm_num [lightnessSlope]
  · norm_num [channelSlope]

section Fractions

variable {r g b : Rat}

/-- By how much clear fractions differ. -/
def margin : Rat := 1e-6 / 255

/-- The `spread` of known channels. -/
theorem spread_ofNumbers :
    (Channels.ofNumbers r g b).spread = number (greatest r g b - least r g b) := rfl

/-- The `total` of known channels. -/
theorem total_ofNumbers :
    (Channels.ofNumbers r g b).total = number (greatest r g b + least r g b) := rfl

/-- The lightness of known channels is the one of the `Textbook`. -/
theorem lightness_ofNumbers :
    (Channels.ofNumbers r g b).lightness = number (lightness r g b) := by
  have htwo : (2.0 : Rat) = 2 := by norm_num
  rw [Channels.lightness, total_ofNumbers, div_number _ (by norm_num), htwo, lightness]

/-- Channels that `AreClear` are all equal or clearly spread. -/
theorem AreClear.spread (h : AreClear 1 margin r g b) :
    greatest r g b = least r g b ∨ margin ≤ greatest r g b - least r g b := by
  have hle : least r g b ≤ greatest r g b := least_le greatest_mem
  rcases h.sub greatest_mem least_mem with hzero | hfar
  · exact .inl (by linarith)
  · rw [abs_of_nonneg (by linarith)] at hfar
    exact .inr hfar

/-- The selector `chromatic` is 0 for a gray and 1 for every other color. -/
theorem chromatic_ofNumbers (h : AreClear 1 margin r g b) :
    (Channels.ofNumbers r g b).chromatic =
      number (if greatest r g b = least r g b then 0 else 1) := by
  rw [Channels.chromatic, spread_ofNumbers, slopes.1]
  -- The ramp is so steep that the margin is far beyond its end.
  rcases h.spread with hgray | hfar
  · rw [if_pos hgray]
    exact selector_eq_zero (by rw [hgray]; norm_num)
  · have hne : greatest r g b ≠ least r g b := by
      intro heq
      norm_num [heq, margin] at hfar
    rw [if_neg hne]
    refine selector_eq_one ?_
    unfold margin at hfar
    linarith

/-- The selector `isGreatest` of a channel is 1 exactly if the channel is the `greatest` one. -/
theorem isGreatest_ofNumbers (h : AreClear 1 margin r g b) {x : Rat} (hx : x ∈ [r, g, b]) :
    (Channels.ofNumbers r g b).isGreatest (number x) =
      number (if x = greatest r g b then 1 else 0) := by
  have hsum : (Channels.ofNumbers r g b).isGreatest (number x) =
      selector (number (x - greatest r g b + tolerance)) channelSlope := rfl
  have htolerance : (tolerance : Rat) = 1e-9 := rfl
  rw [hsum, slopes.2.2, htolerance]
  have hle := le_greatest hx
  -- The tolerance puts the greatest channel beyond the end of the ramp, and no other one on it.
  rcases h.sub hx greatest_mem with hzero | hfar
  · rw [if_pos (by linarith), hzero]
    exact selector_eq_one (by norm_num)
  · rw [abs_of_nonpos (by linarith)] at hfar
    unfold margin at hfar
    have hne : x ≠ greatest r g b := by
      intro heq
      norm_num [heq] at hfar
    rw [if_neg hne]
    exact selector_eq_zero (by linarith)

/-! ### The selectors of channels -/

/-- The selector `redFirst` is 1 exactly in the red `sector`. -/
theorem redFirst_ofNumbers (h : AreClear 1 margin r g b) :
    (Channels.ofNumbers r g b).redFirst = number (if sector r g b = .red then 1 else 0) := by
  have hred : (Channels.ofNumbers r g b).isGreatest (Channels.ofNumbers r g b).red = _ :=
    isGreatest_ofNumbers h (by simp)
  rw [Channels.redFirst, hred]
  rcases sector_cases (r := r) (g := g) (b := b) with ⟨hs, hr⟩ | ⟨hs, hr, -⟩ | ⟨hs, hr, -⟩
  · rw [hs, if_pos hr, if_pos rfl]
  · rw [hs, if_neg hr, if_neg (by decide)]
  · rw [hs, if_neg hr, if_neg (by decide)]

/-- The selector `greenFirst` is 1 exactly in the green `sector`. -/
theorem greenFirst_ofNumbers (h : AreClear 1 margin r g b) :
    (Channels.ofNumbers r g b).greenFirst = number (if sector r g b = .green then 1 else 0) := by
  have hgreen : (Channels.ofNumbers r g b).isGreatest (Channels.ofNumbers r g b).green = _ :=
    isGreatest_ofNumbers h (by simp)
  rw [Channels.greenFirst, redFirst_ofNumbers h, negation_number, hgreen, mul_number]
  rcases sector_cases (r := r) (g := g) (b := b) with ⟨hs, -⟩ | ⟨hs, -, hg⟩ | ⟨hs, -, hg, -⟩
  · simp [hs]
  · rw [if_pos hg]
    simp [hs]
  · rw [if_neg hg]
    simp [hs]

/-- The selector `blueFirst` is 1 exactly in the blue `sector`. -/
theorem blueFirst_ofNumbers (h : AreClear 1 margin r g b) :
    (Channels.ofNumbers r g b).blueFirst = number (if sector r g b = .blue then 1 else 0) := by
  have hblue : (Channels.ofNumbers r g b).isGreatest (Channels.ofNumbers r g b).blue = _ :=
    isGreatest_ofNumbers h (by simp)
  rw [Channels.blueFirst, redFirst_ofNumbers h, greenFirst_ofNumbers h, negation_number,
    negation_number, hblue, mul_number, mul_number]
  rcases sector_cases (r := r) (g := g) (b := b) with ⟨hs, -⟩ | ⟨hs, -⟩ | ⟨hs, -, -, hb⟩
  · simp [hs]
  · simp [hs]
  · rw [if_pos hb]
    simp [hs]

/-! ### Quotients -/

/-- A tiny amount in the divisor keeps a quotient of magnitudes below 1. -/
theorem abs_div_add_lt_one {x d ε : Rat} (hx : |x| ≤ d) (hε : 0 < ε) : |x / (d + ε)| < 1 := by
  have hd : 0 < d + ε := by linarith [abs_nonneg x]
  rw [abs_div, abs_of_pos hd, div_lt_one hd]
  linarith

/-- A tiny amount that is added to the divisor changes the quotient by next to nothing. -/
theorem abs_div_add_sub_div_le {x d ε m : Rat} (hx : |x| ≤ d) (hm : 0 < m) (hd : m ≤ d)
    (hε : 0 ≤ ε) : |x / (d + ε) - x / d| ≤ ε / m := by
  have hpos : 0 < d := by linarith
  have hsum : 0 < d + ε := by linarith
  -- The quotient loses the share that the tiny amount has in the divisor.
  have hdifference : x / (d + ε) - x / d = -(x / d) * (ε / (d + ε)) := by
    field_simp
    ring
  have hquotient : |x / d| ≤ 1 := by
    rw [abs_div, abs_of_pos hpos]
    exact (div_le_one hpos).mpr hx
  calc |x / (d + ε) - x / d| = |x / d| * (ε / (d + ε)) := by
        rw [hdifference, abs_mul, abs_neg, abs_of_nonneg (div_nonneg hε hsum.le)]
    _ ≤ 1 * (ε / (d + ε)) := mul_le_mul_of_nonneg_right hquotient (div_nonneg hε hsum.le)
    _ ≤ ε / m := by
      rw [one_mul]
      exact div_le_div_of_nonneg_left hε hm (by linarith)

/-- Two channels differ by at most the difference of the `greatest` and the `least` one. -/
theorem abs_sub_le_spread {x y : Rat} (hx : x ∈ [r, g, b]) (hy : y ∈ [r, g, b]) :
    |x - y| ≤ greatest r g b - least r g b := by
  have hxGreatest := le_greatest hx
  have hyGreatest := le_greatest hy
  have hxLeast := least_le hx
  have hyLeast := least_le hy
  rw [abs_le]
  constructor <;> linarith

/-! ### Hue -/

/-- The amount `epsilon` keeps the divisor of a `slant` positive. -/
theorem divisor_pos : 0 < greatest r g b - least r g b + epsilon := by
  have hle : least r g b ≤ greatest r g b := least_le greatest_mem
  have hepsilon : (epsilon : Rat) = 1e-29 := rfl
  rw [hepsilon]
  linarith

/-- The quotient of a difference of channels by the spread, as the conversion computes it. -/
def slant (r g b x y : Rat) : Rat := (x - y) / (greatest r g b - least r g b + epsilon)

/-- A position in the red sector, moved to the end of the color wheel if it is negative, as the
conversion computes it. -/
def wrapped (x : Rat) : Rat := x + Max.max 0 (Min.min (x * -10 ^ 31) 1) * 6

/-- What `Channels.sectors` folds to, as the selectors of the channels are 0 or 1. -/
theorem sectors_eq_number (h : AreClear 1 margin r g b) :
    (Channels.ofNumbers r g b).sectors =
      number (wrapped ((if sector r g b = .red then 1 else 0) * slant r g b g b) +
        (if sector r g b = .green then 1 else 0) * (2 + slant r g b b r) +
        (if sector r g b = .blue then 1 else 0) * (4 + slant r g b r g)) := by
  have htwo : (2.0 : Rat) = 2 := by norm_num
  have hfour : (4.0 : Rat) = 4 := by norm_num
  have hsix : (6.0 : Rat) = 6 := by norm_num
  have hdivisor : greatest r g b - least r g b + epsilon ≠ 0 := divisor_pos.ne'
  rw [Channels.sectors, redFirst_ofNumbers h, greenFirst_ofNumbers h, blueFirst_ofNumbers h,
    spread_ofNumbers, add_number]
  simp only [Channels.ofNumbers, sub_number, div_number _ hdivisor, mul_number, add_number,
    selector_number, slopes.2.2, htwo, hfour, hsix, slant, wrapped]

/-- A `slant` is a position inside of its sector. -/
theorem slant_lt {x y : Rat} (hx : x ∈ [r, g, b]) (hy : y ∈ [r, g, b]) :
    -1 < slant r g b x y ∧ slant r g b x y < 1 :=
  abs_lt.mp (abs_div_add_lt_one (abs_sub_le_spread hx hy) (by norm_num [epsilon]))

/-- A `slant` is next to the exact position in the sector. -/
theorem slant_near {x y : Rat} (hspread : margin ≤ greatest r g b - least r g b)
    (hx : x ∈ [r, g, b]) (hy : y ∈ [r, g, b]) :
    |slant r g b x y - (x - y) / (greatest r g b - least r g b)| ≤ 1e-29 / margin :=
  abs_div_add_sub_div_le (abs_sub_le_spread hx hy) (by norm_num [margin]) hspread
    (by norm_num [epsilon])

/-- A position that is not negative is not `wrapped`. -/
theorem wrapped_of_nonneg {x : Rat} (h : 0 ≤ x) : wrapped x = x := by
  have hle : x * -10 ^ 31 ≤ 0 := by linarith
  rw [wrapped, min_eq_left (hle.trans zero_le_one), max_eq_left hle, zero_mul, add_zero]

/-- A position that is clearly negative is `wrapped` by a full turn. -/
theorem wrapped_of_le {x : Rat} (h : x ≤ -margin / 2) : wrapped x = x + 6 := by
  have hle : 1 ≤ x * -10 ^ 31 := by
    unfold margin at h
    linarith
  rw [wrapped, min_eq_right hle, max_eq_right zero_le_one, one_mul]

/-- A negative `slant` in the red sector is clearly negative. -/
theorem slant_le_of_lt (h : AreClear 1 margin r g b) {x y : Rat} (hx : x ∈ [r, g, b])
    (hy : y ∈ [r, g, b]) (hlt : x < y) : slant r g b x y ≤ -margin / 2 := by
  have hfar : margin ≤ y - x := by
    rcases h.sub hx hy with hzero | hfar
    · linarith
    · rwa [abs_of_neg (by linarith), neg_sub] at hfar
  -- The divisor is at most 2, so that at least half of the margin is left.
  have hwidth : greatest r g b - least r g b + epsilon ≤ 2 := by
    have hgreatest := (h.range greatest_mem).2
    have hleast := (h.range least_mem).1
    have hepsilon : (epsilon : Rat) ≤ 1 := by norm_num [epsilon]
    linarith
  have hhalf : margin / 2 * (greatest r g b - least r g b + epsilon) ≤ margin / 2 * 2 :=
    mul_le_mul_of_nonneg_left hwidth (by norm_num [margin])
  rw [slant, div_le_iff₀ divisor_pos]
  linarith

/-- For channels that `AreClear` and are not all equal, `Channels.sectors` is next to the `position`
of the textbook. -/
theorem sectors_ofNumbers (h : AreClear 1 margin r g b) :
    ∃ x, (Channels.ofNumbers r g b).sectors = number x ∧
      (greatest r g b ≠ least r g b →
        0 ≤ x ∧ x < 6 ∧ |x - position r g b| ≤ 1e-29 / margin) := by
  refine ⟨_, sectors_eq_number h, fun hne => ?_⟩
  have hspread := h.spread.resolve_left hne
  have hred : r ∈ [r, g, b] := by simp
  have hgreen : g ∈ [r, g, b] := by simp
  have hblue : b ∈ [r, g, b] := by simp
  have hwrapped : wrapped 0 = 0 := wrapped_of_nonneg le_rfl
  unfold position
  -- The selectors leave one term, which differs from that of the textbook in its divisor only.
  cases hs : sector r g b with
  | red =>
    have hlt := slant_lt hgreen hblue
    have hnear := slant_near hspread hgreen hblue
    simp only [if_true, reduceCtorEq, if_false, one_mul, zero_mul, add_zero]
    -- Only this sector reaches below zero, where a whole turn is added.
    rcases lt_or_ge g b with hgb | hgb
    · have hle := slant_le_of_lt h hgreen hblue hgb
      have hmargin : 0 < margin := by norm_num [margin]
      rw [wrapped_of_le hle, if_pos hgb, add_sub_add_right_eq_sub]
      exact ⟨by linarith, by linarith, hnear⟩
    · have hnonneg : 0 ≤ slant r g b g b := div_nonneg (by linarith) divisor_pos.le
      rw [wrapped_of_nonneg hnonneg, if_neg (not_lt.mpr hgb), add_zero]
      exact ⟨hnonneg, by linarith, hnear⟩
  | green =>
    have hlt := slant_lt hblue hred
    have hnear := slant_near hspread hblue hred
    simp only [if_true, reduceCtorEq, if_false, one_mul, zero_mul, zero_add, add_zero, hwrapped]
    rw [add_comm 2, add_sub_add_right_eq_sub]
    exact ⟨by linarith, by linarith, hnear⟩
  | blue =>
    have hlt := slant_lt hred hgreen
    have hnear := slant_near hspread hred hgreen
    simp only [if_true, reduceCtorEq, if_false, one_mul, zero_mul, zero_add, add_zero, hwrapped]
    rw [add_comm 4, add_sub_add_right_eq_sub]
    exact ⟨by linarith, by linarith, hnear⟩

/-- For channels that `AreClear`, `Channels.hue` is next to the hue of the `Textbook`, and within a
full turn. -/
theorem hue_ofNumbers (h : AreClear 1 margin r g b) :
    ∃ x, (Channels.ofNumbers r g b).hue = number x ∧ 0 ≤ x ∧ x < 360 ∧
      |x - hue r g b| ≤ 1e-12 := by
  obtain ⟨x, hx, hposition⟩ := sectors_ofNumbers h
  have hsixty : (60.0 : Rat) = 60 := by norm_num
  rw [Channels.hue, chromatic_ofNumbers h, hx, mul_number, mul_number, hsixty]
  refine ⟨_, rfl, ?_⟩
  unfold hue
  by_cases hgray : greatest r g b = least r g b
  · norm_num [hgray]
  · obtain ⟨hnonneg, hlt, hnear⟩ := hposition hgray
    rw [if_neg hgray, if_neg hgray, one_mul, ← mul_sub, abs_mul]
    refine ⟨by linarith, by linarith, ?_⟩
    calc |(60 : Rat)| * |x - position r g b| ≤ 60 * (1e-29 / margin) := by
          rw [abs_of_pos (by norm_num)]
          linarith
      _ ≤ 1e-12 := by norm_num [margin]

/-! ### Saturation -/

/-- The textbook `saturation` of a dark color, in terms of the spread. -/
theorem saturation_of_le (h : greatest r g b + least r g b ≤ 1) :
    saturation r g b = (greatest r g b - least r g b) / (greatest r g b + least r g b) := by
  have hmin : Min.min (lightness r g b) (1 - lightness r g b) = lightness r g b :=
    min_eq_left (by unfold lightness; linarith)
  unfold saturation
  rw [hmin]
  split
  · rename_i hend
    have hzero : greatest r g b + least r g b = 0 := by
      unfold lightness at hend
      rcases hend with hend | hend <;> linarith
    rw [hzero, div_zero]
  · have hspread : greatest r g b - lightness r g b = (greatest r g b - least r g b) / 2 := by
      unfold lightness
      ring
    rw [hspread, lightness, div_div_div_cancel_right₀ two_ne_zero]

/-- The textbook `saturation` of a light color, in terms of the spread. -/
theorem saturation_of_gt (h : 1 < greatest r g b + least r g b) :
    saturation r g b = (greatest r g b - least r g b) / (2 - (greatest r g b + least r g b)) := by
  have hmin : Min.min (lightness r g b) (1 - lightness r g b) = 1 - lightness r g b :=
    min_eq_right (by unfold lightness; linarith)
  unfold saturation
  rw [hmin]
  split
  · rename_i hend
    have hzero : 2 - (greatest r g b + least r g b) = 0 := by
      unfold lightness at hend
      rcases hend with hend | hend <;> linarith
    rw [hzero, div_zero]
  · have hspread : greatest r g b - lightness r g b = (greatest r g b - least r g b) / 2 := by
      unfold lightness
      ring
    have hrest : 1 - lightness r g b = (2 - (greatest r g b + least r g b)) / 2 := by
      unfold lightness
      ring
    rw [hspread, hrest, div_div_div_cancel_right₀ two_ne_zero]

/-- What `Channels.saturation` folds to, as the selector `chromatic` is 0 only where the spread is.
-/
theorem saturation_eq_number (h : AreClear 1 margin r g b) {dark light : Rat}
    (hdark : selector (number (1 / 2 - lightness r g b + epsilon)) lightnessSlope = number dark)
    (hlight : selector (number (lightness r g b - 1 / 2)) lightnessSlope = number light)
    (hdivisor : dark * (greatest r g b + least r g b + epsilon) +
      light * (2 - (greatest r g b + least r g b) + lightEpsilon) ≠ 0) :
    (Channels.ofNumbers r g b).saturation =
      number ((greatest r g b - least r g b) /
        (dark * (greatest r g b + least r g b + epsilon) +
          light * (2 - (greatest r g b + least r g b) + lightEpsilon))) := by
  have hhalf : (0.5 : Rat) = 1 / 2 := by norm_num
  have htwo : (2.0 : Rat) = 2 := by norm_num
  have hchromatic : (if greatest r g b = least r g b then 0 else 1) *
      (greatest r g b - least r g b) = greatest r g b - least r g b := by
    split
    · rename_i hgray
      rw [hgray, sub_self, mul_zero]
    · rw [one_mul]
  simp only [Channels.saturation, lightness_ofNumbers, total_ofNumbers, spread_ofNumbers,
    chromatic_ofNumbers h, sub_number, add_number, hhalf, htwo, hdark, hlight, mul_number,
    hchromatic, div_number _ hdivisor]

/-- The quotient of the spread by the greatest possible one is a fraction and is hardly changed by
a tiny amount in the divisor. -/
theorem spread_div_near {u ε : Rat} (h : AreClear 1 margin r g b)
    (hu : greatest r g b - least r g b ≤ u) (hε : 0 < ε) (hε' : ε ≤ 1e-19) :
    0 ≤ (greatest r g b - least r g b) / (u + ε) ∧
    (greatest r g b - least r g b) / (u + ε) ≤ 1 ∧
    |(greatest r g b - least r g b) / (u + ε) - (greatest r g b - least r g b) / u| ≤ 1e-10 := by
  have hnonneg : 0 ≤ greatest r g b - least r g b := by
    have hle : least r g b ≤ greatest r g b := least_le greatest_mem
    linarith
  have habs : |greatest r g b - least r g b| ≤ u := by rwa [abs_of_nonneg hnonneg]
  refine ⟨div_nonneg hnonneg (by linarith), (abs_lt.mp (abs_div_add_lt_one habs hε)).2.le, ?_⟩
  rcases h.spread with hgray | hfar
  · norm_num [hgray]
  · have hmargin : 0 < margin := by norm_num [margin]
    calc _ ≤ ε / margin := abs_div_add_sub_div_le habs hmargin (hfar.trans hu) hε.le
      _ ≤ 1e-19 / margin := div_le_div_of_nonneg_right hε' hmargin.le
      _ ≤ 1e-10 := by norm_num [margin]

/-- For channels that `AreClear`, `Channels.saturation` is next to the saturation of the `Textbook`,
and a fraction. -/
theorem saturation_ofNumbers (h : AreClear 1 margin r g b) :
    ∃ x, (Channels.ofNumbers r g b).saturation = number x ∧ 0 ≤ x ∧ x ≤ 1 ∧
      |x - saturation r g b| ≤ 1e-10 := by
  have hepsilon : (epsilon : Rat) = 1e-29 := rfl
  have hlightEpsilon : (lightEpsilon : Rat) = 1e-19 := rfl
  have hgreatest := h.range greatest_mem
  have hleast := h.range least_mem
  rcases le_or_gt (greatest r g b + least r g b) 1 with hle | hgt
  · -- At the middle lightness only the tiny amount in its argument makes the dark selector 1.
    have hdark : selector (number (1 / 2 - lightness r g b + epsilon)) lightnessSlope =
        number 1 := by
      rw [slopes.2.1, hepsilon]
      exact selector_eq_one (by unfold lightness; linarith)
    have hlight : selector (number (lightness r g b - 1 / 2)) lightnessSlope = number 0 := by
      rw [slopes.2.1]
      exact selector_eq_zero (by unfold lightness; linarith)
    have hfold := saturation_eq_number h hdark hlight
    simp only [one_mul, zero_mul, add_zero, hepsilon] at hfold
    refine ⟨_, hfold (by linarith), ?_⟩
    rw [saturation_of_le hle]
    exact spread_div_near h (by linarith) (by norm_num) (by norm_num)
  · -- A light color is so by at least the margin, where both ramps have come to their ends.
    have hfar : 1 + margin ≤ greatest r g b + least r g b := by
      rcases h.middle with hmiddle | hmiddle
      · linarith
      · rw [abs_of_pos (by linarith)] at hmiddle
        linarith
    have hdark : selector (number (1 / 2 - lightness r g b + epsilon)) lightnessSlope =
        number 0 := by
      rw [slopes.2.1, hepsilon]
      exact selector_eq_zero (by unfold lightness; unfold margin at hfar; linarith)
    have hlight : selector (number (lightness r g b - 1 / 2)) lightnessSlope = number 1 := by
      rw [slopes.2.1]
      exact selector_eq_one (by unfold lightness; unfold margin at hfar; linarith)
    have hfold := saturation_eq_number h hdark hlight
    simp only [one_mul, zero_mul, zero_add, hlightEpsilon] at hfold
    refine ⟨_, hfold (by linarith), ?_⟩
    rw [saturation_of_gt hgt]
    exact spread_div_near h (by linarith) (by norm_num) (by norm_num)

end Fractions

end Hue

/-- For known channels that are clearly apart or equal, the conversion gives what the textbook
gives: the exact lightness, a hue and a saturation that are next to the exact ones and within their
ranges, and the simplified alpha. Of the three channel selectors exactly that of the first greatest
channel is 1. -/
theorem Rgb.toHsl_near_textbook {r g b : Rat} (h : Hue.AreClear 255 1e-6 r g b)
    (alpha : Expr Rat) :
    (∃ hue saturation : Rat,
      Rgb.toHsl ⟨.number r, .number g, .number b, alpha⟩ =
        ⟨.number hue, .percent saturation,
          .percent (100 * (Hue.Textbook.greatest r g b + Hue.Textbook.least r g b) / 510),
          alpha.simplify⟩ ∧
      (0 ≤ hue ∧ hue < 360 ∧
        |hue - Hue.Textbook.hue (r / 255) (g / 255) (b / 255)| ≤ 1e-12) ∧
      (0 ≤ saturation ∧ saturation ≤ 100 ∧
        |saturation - 100 * Hue.Textbook.saturation (r / 255) (g / 255) (b / 255)| ≤ 1e-8)) ∧
    (let channels := Hue.Channels.ofRgb ⟨.number r, .number g, .number b, alpha⟩
     let selected (sector : Hue.Sector) : Expr Rat :=
      .number (if Hue.Textbook.sector r g b = sector then 1 else 0)
     channels.redFirst = selected .red ∧ channels.greenFirst = selected .green ∧
      channels.blueFirst = selected .blue) := by
  have hbyte : (0 : Rat) < 255 := by norm_num
  have hpercent : (100.0 : Rat) = 100 := by norm_num
  -- As fractions the channels are clear by a margin that is 255 times smaller.
  have hclear : Hue.AreClear 1 Hue.margin (r / 255) (g / 255) (b / 255) := h.div hbyte
  obtain ⟨hue, hhue, hhueRange⟩ := Hue.hue_ofNumbers hclear
  obtain ⟨x, hx, hnonneg, hle, hnear⟩ := Hue.saturation_ofNumbers hclear
  have hlightness : Hue.Textbook.lightness (r / 255) (g / 255) (b / 255) * 100 =
      100 * (Hue.Textbook.greatest r g b + Hue.Textbook.least r g b) / 510 := by
    rw [Hue.Textbook.lightness, Hue.Textbook.greatest_div hbyte, Hue.Textbook.least_div hbyte]
    ring
  refine ⟨⟨hue, x * 100, ?_, hhueRange, by linarith, by linarith, ?_⟩, ?_⟩
  · simp only [Rgb.toHsl, Hue.ofRgb_number, hhue, hx, Hue.lightness_ofNumbers,
      Expr.mul_number_percent, hpercent, hlightness]
    rfl
  · rw [mul_comm x, ← mul_sub, abs_mul, abs_of_pos (by norm_num)]
    linarith
  · simp only [Hue.ofRgb_number, Hue.redFirst_ofNumbers hclear, Hue.greenFirst_ofNumbers hclear,
      Hue.blueFirst_ofNumbers hclear, Hue.Textbook.sector_div hbyte, and_self]

/-- Two greatest channels, and a lightness of exactly one half. -/
theorem Rgb.toHsl_near_textbook_yellow :
    ∃ hue saturation : Rat,
      Rgb.toHsl ⟨.number 255, .number 255, .number 0, .verbatim "a"⟩ =
        ⟨.number hue, .percent saturation, .percent 50, .verbatim "a"⟩ ∧
      |hue - 60| ≤ 1e-12 ∧ |saturation - 100| ≤ 1e-8 := by
  have hgreatest : Hue.Textbook.greatest 255 255 0 = 255 := by norm_num [Hue.Textbook.greatest]
  have hleast : Hue.Textbook.least 255 255 0 = 0 := by norm_num [Hue.Textbook.least]
  have hclear : Hue.AreClear 255 1e-6 255 255 0 :=
    ⟨by decide, by decide, by decide, .inl (sub_self _), .inr (by norm_num), .inr (by norm_num),
      .inl (by norm_num [hgreatest, hleast])⟩
  have hlightness : 100 * (Hue.Textbook.greatest 255 255 0 + Hue.Textbook.least 255 255 0) / 510 =
      50 := by norm_num [hgreatest, hleast]
  have hhue : Hue.Textbook.hue (255 / 255) (255 / 255) (0 / 255) = 60 := by
    norm_num [Hue.Textbook.hue, Hue.Textbook.position, Hue.Textbook.sector, Hue.Textbook.greatest,
      Hue.Textbook.least]
  have hsaturation : 100 * Hue.Textbook.saturation (255 / 255) (255 / 255) (0 / 255) = 100 := by
    norm_num [Hue.Textbook.saturation, Hue.Textbook.lightness, Hue.Textbook.greatest,
      Hue.Textbook.least]
  obtain ⟨⟨hue, saturation, heq, ⟨_, _, hhueNear⟩, _, _, hsaturationNear⟩, _⟩ :=
    Rgb.toHsl_near_textbook hclear (.verbatim "a")
  rw [hlightness] at heq
  rw [hhue] at hhueNear
  rw [hsaturation] at hsaturationNear
  exact ⟨hue, saturation, heq, hhueNear, hsaturationNear⟩

end ThemeColor
