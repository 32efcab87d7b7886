import Mathlib.Tactic.Ring
import ThemeColor.Proofs.Interpretation
import ThemeColor.Proofs.Resolution

/-!
# Mixing by exact values

`Levels.mix` mixes two colors that are given by numbers: the channels are weighted by the opacities
of their colors, and the weights are taken out again. It is symmetric (`Levels.mix_comm`) and gives
the two colors back at its ends (`Levels.mix_zero`, `Levels.mix_one`).

A mixture that is resolved to expressions has the values of that mixture of numbers, unless it is
invisible (`Interpretation.levels_mix`), whatever was folded on the way. So the same laws hold for
it.
-/

namespace ThemeColor

/-! ## Mixing numbers -/

/-- A color by the values of its fields. -/
structure Levels where
  /-- The red channel. -/
  red : Rat
  /-- The green channel. -/
  green : Rat
  /-- The blue channel. -/
  blue : Rat
  /-- The opacity. -/
  alpha : Rat

namespace Levels

/-- The number at `t` of the way from `x` to `y`. -/
def between (x y t : Rat) : Rat := (1 - t) * x + t * y

/-- The way `between` two numbers can be gone from both ends. -/
theorem between_comm (x y t : Rat) : between x y t = between y x (1 - t) := by
  unfold between
  ring

theorem between_zero (x y : Rat) : between x y 0 = x := by
  unfold between
  ring

variable (a b : Levels) (t : Rat)

/-- A channel at `t` of the way from `a` to `b`, weighted by the opacities. -/
def weighted (channel : Levels → Rat) : Rat :=
  between (channel a * a.alpha) (channel b * b.alpha) t

/-- The color at `t` of the way from `a` to `b`. -/
def mix : Levels where
  red := weighted a b t red / between a.alpha b.alpha t
  green := weighted a b t green / between a.alpha b.alpha t
  blue := weighted a b t blue / between a.alpha b.alpha t
  alpha := between a.alpha b.alpha t

/-- The way from one color to another can be gone from both ends: `Levels.mix` is symmetric. -/
theorem mix_comm : a.mix b t = b.mix a (1 - t) := by
  simp only [mix, weighted, between_comm _ _ t]

variable {a b t}

/-- The first color is at the start of the way that `mix` goes, unless it is invisible. -/
theorem mix_zero (h : a.alpha ≠ 0) : a.mix b 0 = a := by
  simp only [mix, weighted, between_zero, mul_div_cancel_right₀ _ h]

/-- The second color is at the end of the way that `mix` goes, unless it is invisible. -/
theorem mix_one (h : b.alpha ≠ 0) : a.mix b 1 = b := by
  rw [mix_comm, sub_self, mix_zero h]

/-- The channels of a `mix` are weighted with the opacities. -/
theorem mix_mul_alpha (h : (a.mix b t).alpha ≠ 0) :
    (a.mix b t).red * (a.mix b t).alpha = weighted a b t red ∧
      (a.mix b t).green * (a.mix b t).alpha = weighted a b t green ∧
      (a.mix b t).blue * (a.mix b t).alpha = weighted a b t blue :=
  ⟨div_mul_cancel₀ _ h, div_mul_cancel₀ _ h, div_mul_cancel₀ _ h⟩

end Levels

/-! ## Mixing expressions -/

theorem Color.exists_yields {c : Color Rat} (h : c.resolve.1.toOption.isSome) :
    ∃ m, Yields (Palette.default.resolve c) m := by
  rcases hr : c.resolve with ⟨e | m, warnings⟩
  · rw [hr] at h
    cases h
  · exact ⟨m, [], warnings, hr⟩

namespace Interpretation

open ThemeColor.Expr

/-- The values of the fields of a color. -/
def levels (i : Interpretation) (c : Rgb Rat) : Levels :=
  ⟨i.value c.red, i.value c.green, i.value c.blue, i.value c.alpha⟩

variable {i : Interpretation}

/-- Simplifying a color keeps its `levels`. -/
theorem levels_simplify (c : Rgb Rat) : i.levels c.simplify = i.levels c := by
  simp only [levels, Rgb.simplify, value_simplify]

theorem value_add (lhs rhs : Expr Rat) : i.value (add lhs rhs) = i.value lhs + i.value rhs :=
  value_combine .add lhs rhs

theorem value_sub (lhs rhs : Expr Rat) : i.value (sub lhs rhs) = i.value lhs - i.value rhs :=
  value_combine .sub lhs rhs

theorem value_mul (lhs rhs : Expr Rat) : i.value (mul lhs rhs) = i.value lhs * i.value rhs :=
  value_combine .mul lhs rhs

theorem value_div {lhs rhs : Expr Rat} (h : i.value rhs ≠ 0) :
    i.value (div lhs rhs) = i.value lhs / i.value rhs :=
  (value_combine .div lhs rhs).trans (if_neg h)

/-- The value of what `lerp` makes lies `between` the values of its ends. -/
theorem value_lerp (x y t : Expr Rat) :
    i.value (lerp x y t) = Levels.between (i.value x) (i.value y) (i.value t) := by
  rw [lerp, value_add, value_mul, value_sub, Levels.between]
  ring

/-- The value of a channel of a mixture that is not invisible. The two cases of such a channel come
down to `Rgb.mixChannel`, because an opacity that is known to be zero has the value zero. -/
theorem value_mixedChannel (x y aAlpha bAlpha alpha t : Expr Rat) (h : i.value alpha ≠ 0) :
    i.value (if alpha.isNumber 0.0 then number 0.0
        else Rgb.mixChannel x y aAlpha bAlpha alpha t) =
      Levels.between (i.value x * i.value aAlpha) (i.value y * i.value bAlpha) (i.value t) /
        i.value alpha := by
  split
  · rename_i hzero
    exact absurd ((value_of_isNumber hzero).trans Scalar.rat_zero) h
  · rw [Rgb.mixChannel, value_simplify, value_div h, value_lerp, value_mul, value_mul]

/-- The opacity of a mixture has the value of the `mix` of the values. -/
theorem alpha_levels_mix (a b : Rgb Rat) (t : Expr Rat) :
    (i.levels (a.mix b t)).alpha = ((i.levels a).mix (i.levels b) (i.value t)).alpha := by
  simp only [levels, Rgb.mix, value_simplify, value_lerp, Levels.mix]

/-- A mixture that is not invisible has the `levels` of the mixture of the values. -/
theorem levels_mix {a b : Rgb Rat} {t : Expr Rat}
    (h : ((i.levels a).mix (i.levels b) (i.value t)).alpha ≠ 0) :
    i.levels (a.mix b t) = (i.levels a).mix (i.levels b) (i.value t) := by
  have halpha : i.value (lerp a.alpha b.alpha t) ≠ 0 := by
    rw [value_lerp]
    exact h
  simp only [levels, Rgb.mix, value_mixedChannel _ _ _ _ _ _ halpha, value_simplify, value_lerp,
    Levels.mix, Levels.weighted]

/-- Two colors are mixed as they are by `Palette.resolve`, up to folding. -/
theorem eq_mix_of_yields {p : Palette Rat} {a b : Rgb Rat} {t : Expr Rat} {m : Canonical Rat}
    (h : Yields (p.resolve (.mix (.rgb a) (.rgb b) t)) m) :
    m = .rgb (a.simplify.mix b.simplify t.simplify) := by
  cases Palette.resolves_of_yields h with
  | mix ha hx hb hy =>
    cases ha
    cases hx
    cases hb
    cases hy
    rfl

/-- What `Palette.resolve` yields for a mixture has the `levels` of the mixture of the values. -/
theorem levels_of_yields_mix {p : Palette Rat} {a b : Rgb Rat} {t : Expr Rat} {m : Canonical Rat}
    (h : Yields (p.resolve (.mix (.rgb a) (.rgb b) t)) m) :
    ∃ c, m = .rgb c ∧
      (i.levels c).alpha = ((i.levels a).mix (i.levels b) (i.value t)).alpha ∧
      (((i.levels a).mix (i.levels b) (i.value t)).alpha ≠ 0 →
        i.levels c = (i.levels a).mix (i.levels b) (i.value t)) := by
  refine ⟨_, eq_mix_of_yields h, ?_, fun halpha => ?_⟩
  · rw [alpha_levels_mix, levels_simplify, levels_simplify, value_simplify]
  · rw [levels_mix, levels_simplify, levels_simplify, value_simplify]
    rwa [levels_simplify, levels_simplify, value_simplify]

/-- **Mixing is symmetric and exact at its ends.** Let every verbatim text have any value, and let
colors with any fields be mixed by any factor. A mixture that is not invisible has the same values
when the colors are exchanged and the factor `t` is replaced by one of value `1 - t`. The factor
zero gives the values of the first color and the factor one those of the second, unless that color
is invisible. The opacity lies between those of the colors, and each channel times the opacity lies
between the channels times their opacities, both at `t` of the way. -/
theorem levels_of_resolve_mix (i : Interpretation) (p : Palette Rat) (a b : Rgb Rat) :
    (∀ t u m n, i.value u = 1 - i.value t →
      Yields (p.resolve (.mix (.rgb a) (.rgb b) t)) m →
      Yields (p.resolve (.mix (.rgb b) (.rgb a) u)) n →
        ∃ c d, m = .rgb c ∧ n = .rgb d ∧ (i.value c.alpha ≠ 0 → i.levels c = i.levels d)) ∧
    (∀ t m, i.value t = 0 → i.value a.alpha ≠ 0 →
      Yields (p.resolve (.mix (.rgb a) (.rgb b) t)) m →
        ∃ c, m = .rgb c ∧ i.levels c = i.levels a) ∧
    (∀ t m, i.value t = 1 → i.value b.alpha ≠ 0 →
      Yields (p.resolve (.mix (.rgb a) (.rgb b) t)) m →
        ∃ c, m = .rgb c ∧ i.levels c = i.levels b) ∧
    (∀ t m, Yields (p.resolve (.mix (.rgb a) (.rgb b) t)) m →
      ∃ c, m = .rgb c ∧
        i.value c.alpha = Levels.between (i.value a.alpha) (i.value b.alpha) (i.value t) ∧
        (i.value c.alpha ≠ 0 → ∀ channel ∈ [Rgb.red, Rgb.green, Rgb.blue],
          i.value (channel c) * i.value c.alpha =
            Levels.between (i.value (channel a) * i.value a.alpha)
              (i.value (channel b) * i.value b.alpha) (i.value t))) := by
  refine ⟨fun t u m n hu hm hn => ?_, fun t m ht halpha hm => ?_, fun t m ht halpha hm => ?_,
    fun t m hm => ?_⟩
  · obtain ⟨c, rfl, hc, hcmix⟩ := levels_of_yields_mix (i := i) hm
    obtain ⟨d, rfl, -, hdmix⟩ := levels_of_yields_mix (i := i) hn
    rw [hu, ← Levels.mix_comm] at hdmix
    refine ⟨c, d, rfl, rfl, fun hvisible => ?_⟩
    have hvisible : ((i.levels a).mix (i.levels b) (i.value t)).alpha ≠ 0 := hc ▸ hvisible
    rw [hcmix hvisible, hdmix hvisible]
  · obtain ⟨c, rfl, -, hcmix⟩ := levels_of_yields_mix (i := i) hm
    rw [ht, Levels.mix_zero halpha] at hcmix
    exact ⟨c, rfl, hcmix halpha⟩
  · obtain ⟨c, rfl, -, hcmix⟩ := levels_of_yields_mix (i := i) hm
    rw [ht, Levels.mix_one halpha] at hcmix
    exact ⟨c, rfl, hcmix halpha⟩
  · obtain ⟨c, rfl, hc, hcmix⟩ := levels_of_yields_mix (i := i) hm
    refine ⟨c, rfl, hc, fun hvisible => ?_⟩
    have hvisible : ((i.levels a).mix (i.levels b) (i.value t)).alpha ≠ 0 := hc ▸ hvisible
    have hmul := Levels.mix_mul_alpha hvisible
    rw [← hcmix hvisible] at hmul
    simp only [List.forall_mem_cons, List.not_mem_nil, false_implies, implies_true, and_true]
    exact hmul

/-- A color whose red and opacity are not known, mixed with an opaque color by a factor that is not
known, and by the factors at the two ends. -/
theorem levels_of_resolve_mix_unknown :
    let i : Interpretation := ⟨fun text => text.length, fun x => x, fun _ _ => 0⟩
    let a : Rgb Rat := ⟨.verbatim "var(--r)", .number 20, .number 30, .verbatim "var(--alpha)"⟩
    let b : Rgb Rat := ⟨.number 255, .percent 50, .number 0, .number 1⟩
    let t : Expr Rat := .verbatim "var(--t)"
    let mixed (a b : Rgb Rat) (t : Expr Rat) (c : Rgb Rat) : Prop :=
      Yields (Palette.default.resolve (.mix (.rgb a) (.rgb b) t)) (.rgb c)
    (∃ c d, mixed a b t c ∧ mixed b a (.binary .sub (.number 1) t) d ∧ i.value c.alpha ≠ 0 ∧
      i.levels c = i.levels d) ∧
    (∃ c, mixed a b (.number 0) c ∧ i.value a.alpha ≠ 0 ∧ i.levels c = i.levels a) ∧
    (∃ c, mixed a b (.number 1) c ∧ i.value b.alpha ≠ 0 ∧ i.levels c = i.levels b) := by
  intro i a b t mixed
  obtain ⟨hcomm, hzero, hone, hmul⟩ := levels_of_resolve_mix i Palette.default a b
  refine ⟨?_, ?_, ?_⟩
  · obtain ⟨m, hm⟩ := Color.exists_yields (c := .mix (.rgb a) (.rgb b) t) (by decide +kernel)
    obtain ⟨n, hn⟩ := Color.exists_yields (c := .mix (.rgb b) (.rgb a) (.binary .sub (.number 1) t))
      (by decide +kernel)
    obtain ⟨c, d, rfl, rfl, heq⟩ := hcomm t _ m n (by decide +kernel) hm hn
    obtain ⟨c', hc', halpha, -⟩ := hmul t _ hm
    cases hc'
    have hvisible : i.value c.alpha ≠ 0 := by
      rw [halpha]
      decide +kernel
    exact ⟨c, d, hm, hn, hvisible, heq hvisible⟩
  · have halpha : i.value a.alpha ≠ 0 := by decide +kernel
    obtain ⟨m, hm⟩ := Color.exists_yields (c := .mix (.rgb a) (.rgb b) (.number 0))
      (by decide +kernel)
    obtain ⟨c, rfl, heq⟩ := hzero _ m (by decide +kernel) halpha hm
    exact ⟨c, hm, halpha, heq⟩
  · have halpha : i.value b.alpha ≠ 0 := by decide +kernel
    obtain ⟨m, hm⟩ := Color.exists_yields (c := .mix (.rgb a) (.rgb b) (.number 1))
      (by decide +kernel)
    obtain ⟨c, rfl, heq⟩ := hone _ m (by decide +kernel) halpha hm
    exact ⟨c, hm, halpha, heq⟩

end Interpretation

end ThemeColor
