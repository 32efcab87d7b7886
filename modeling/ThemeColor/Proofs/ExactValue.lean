import ThemeColor.Number.Format
import ThemeColor.Proofs.Negation

/-!
# The number that a double stands for

`Binary.ofFloat` takes a double apart by its bits. Comparison of doubles goes by the contents that
arithmetic gives to the same bits, and the two agree (`Binary.ofFloat_eq_ofUnpacked`). So whatever
passes a comparison with a bound is finite and stands for a rational number, and a rule that is
stated for a range of doubles is a rule about these numbers.

## Main definitions

* `Binary.value?`: the number that a double stands for;
* `IsRounded`: a number with five decimals that is nearest to another one.

## Main results

* `Binary.ofFloat_eq_ofUnpacked`: two ways to take a double apart;
* `exists_finite_of_abs_lt`: a double below a bound is finite;
* `isRounded_fixedCount`: the count of `10 ^ -5` that is written for a double is its rounded value.
-/

namespace ThemeColor.Number

open Float.Model Float.Model.UnpackedFloat

/-! ## Fields of bits -/

namespace Binary

/-- The contents of a double, from what arithmetic on doubles takes it for. -/
def ofUnpacked : UnpackedFloat → Binary
  | .notANumber => .nan
  | .infinity s => .infinite (s == .negative)
  | .zero s => .finite (s == .negative) 0 leastExponent
  | .finite s m e _ => .finite (s == .negative) m e

section Fields

variable (b : BitVec Format.binary64.numBits)

/-- The bits of `unpackMantissa` are the last ones. -/
theorem toNat_unpackMantissa : (unpackMantissa b).toNat = b.toNat % Nat.pow 2 fractionBits := by
  rw [unpackMantissa_def, BitVec.extractLsb'_toNat, Nat.shiftRight_zero]
  rfl

/-- The bits of `unpackExponent` are the eleven ones in front of those. -/
theorem toNat_unpackExponent :
    (unpackExponent b).toNat = b.toNat / Nat.pow 2 fractionBits % Nat.pow 2 11 := by
  rw [unpackExponent_def, BitVec.extractLsb'_toNat, Nat.shiftRight_eq_div_pow]
  rfl

/-- The bit of `unpackSign` is the first one. -/
theorem isNegative_unpackSign :
    (Sign.ofBitVec (unpackSign b) == .negative) = (b.toNat / Nat.pow 2 63 == 1) := by
  have hsign : (unpackSign b).toNat = b.toNat / Nat.pow 2 63 := by
    rw [unpackSign_def, BitVec.extractLsb'_toNat, Nat.shiftRight_eq_div_pow]
    exact Nat.mod_eq_of_lt (Nat.div_lt_of_lt_mul b.isLt)
  rw [← hsign]
  generalize unpackSign b = s
  revert s
  decide

/-- The implicit bit stands in front of the others. -/
theorem toNat_implicit_append (m : BitVec 52) : (1#1 ++ m).toNat = m.toNat + Nat.pow 2 52 := by
  rw [BitVec.toNat_append, ← Nat.shiftLeft_add_eq_or_of_lt m.isLt, Nat.shiftLeft_eq]
  exact Nat.add_comm _ _

end Fields

/-- Taking a double apart by its bits, as `ofFloat` does, gives what arithmetic on doubles takes it
for. -/
theorem ofFloat_eq_ofUnpacked (x : Float) : ofFloat x = ofUnpacked x.toModel.unpack := by
  have hbits : x.toBits.toNat = x.toModel.toBits.toBitVec.toNat := rfl
  unfold ofFloat Float.Model.unpack UnpackedFloat.unpack
  rw [hbits]
  generalize x.toModel.toBits.toBitVec = b
  dsimp only
  rw [← toNat_unpackMantissa, ← toNat_unpackExponent, ← isNegative_unpackSign]
  -- The same tests of the two fields, once on natural numbers and once on bits.
  split
  · rename_i hones
    rw [if_pos (BitVec.toNat_inj (y := -1#11) |>.mp hones)]
    split
    · rename_i hmantissa
      rw [if_pos (BitVec.toNat_inj (y := 0#52) |>.mp hmantissa), ofUnpacked]
    · rename_i hmantissa
      rw [if_neg (mt (BitVec.toNat_inj (y := 0#52)).mpr hmantissa), ofUnpacked]
  · rename_i hones
    rw [if_neg (mt (BitVec.toNat_inj (y := -1#11)).mpr hones)]
    split
    · rename_i hzero
      rw [if_pos (BitVec.toNat_inj (y := 0#11) |>.mp hzero)]
      split
      · rename_i hmantissa
        rw [hmantissa, ofUnpacked]
        rfl
      · rw [ofUnpacked, hzero]
        rfl
    · rename_i hzero
      rw [if_neg (mt (BitVec.toNat_inj (y := 0#11)).mpr hzero), ofUnpacked, toNat_implicit_append]
      congr 1
      show _ = _ - (((1023 : Nat) : Int) + _)
      unfold leastExponent
      omega

end Binary

/-! ## Magnitudes -/

/-- The bits with a positive sign are unpacked as the magnitude, `UnpackedFloat.abs`. -/
theorem unpack_packComponents_abs (b : BitVec Format.binary64.numBits) :
    UnpackedFloat.unpack .binary64
        (packComponents .binary64 .positive (unpackExponent b) (unpackMantissa b)) =
      (UnpackedFloat.unpack .binary64 b).abs := by
  unfold UnpackedFloat.unpack
  simp only [unpackSign_packComponents, unpackMantissa_packComponents,
    unpackExponent_packComponents, Sign.ofBitVec_toBitVec]
  split
  · split <;> rfl
  · split
    · split <;> rfl
    · rfl

/-- The magnitude of a double is unpacked as the magnitude, `UnpackedFloat.abs`. -/
theorem unpack_abs (x : Float) : x.abs.toModel.unpack = x.toModel.unpack.abs := by
  show UnpackedFloat.unpack .binary64 (UnpackedFloat.pack .binary64
    (UnpackedFloat.unpack .binary64 x.toModel.toBits.toBitVec).abs) = _
  rw [← unpack_packComponents_abs, unpack_pack_unpack, unpack_packComponents_abs]
  rfl

/-- Nothing is greater than infinity, and what is no number is not compared. -/
theorem isFinite_of_abs_lt {u v : UnpackedFloat} (h : u.abs.lt v) : u.isFinite := by
  cases u with
  | notANumber => cases h
  | infinity s =>
    cases v with
    | infinity s' => cases s' <;> cases h
    | notANumber | zero | finite => cases h
  | zero s => rfl
  | finite s m e hm => rfl

/-- A double whose magnitude is below another double is `finite`. -/
theorem exists_finite_of_abs_lt {x y : Float} (h : x.abs < y) :
    ∃ negative mantissa exponent, Binary.ofFloat x = .finite negative mantissa exponent := by
  have hlt : x.toModel.unpack.abs.lt y.toModel.unpack := by
    rw [← unpack_abs]
    exact of_decide_eq_true h
  have hfinite := isFinite_of_abs_lt hlt
  rw [Binary.ofFloat_eq_ofUnpacked]
  cases hx : x.toModel.unpack with
  | notANumber | infinity => rw [hx] at hfinite; cases hfinite
  | zero s => exact ⟨_, _, _, rfl⟩
  | finite s m e hm => exact ⟨_, _, _, rfl⟩

/-- A magnitude that is not below `10 ^ -4` is not zero. -/
theorem abs_ne_zero_of_le {x : Float} (h : 1e-4 ≤ x.abs) : ¬ x.abs == 0.0 := by
  rw [beq_zero_iff]
  rintro ⟨s, hzero⟩
  have hle : (1e-4 : Float).toModel.unpack.le x.abs.toModel.unpack := of_decide_eq_true h
  rw [hzero] at hle
  revert hle
  cases s <;> decide +kernel

/-! ## Values and rounded values -/

/-- The factor that stands for a sign. -/
def signFactor (negative : Bool) : ℚ := if negative then -1 else 1

/-- The number that a double stands for. Infinities and what is no number stand for none. -/
def Binary.value? : Binary → Option ℚ
  | .finite negative mantissa exponent => some (signFactor negative * (mantissa * 2 ^ exponent))
  | .infinite _ => none
  | .nan => none

/-- The number `r` is `v` rounded to five decimals: of the multiples of `10 ^ -5` it is nearest to
`v`, and it is the even one if there are two. -/
def IsRounded (v r : ℚ) : Prop :=
  ∃ n : ℤ, r = n / 10 ^ fixedPlaces ∧ |r - v| ≤ 5e-6 ∧ (|r - v| = 5e-6 → Even n)

theorem pow_fixedPlaces : (10 : ℚ) ^ fixedPlaces = 100000 := by norm_num [fixedPlaces]

/-- A rounded value, by `IsRounded`, is off by half a unit of the last decimal at most. -/
theorem IsRounded.abs_sub_le {v r : ℚ} (h : IsRounded v r) : |r - v| ≤ 5e-6 := by
  obtain ⟨_, _, hnear, _⟩ := h
  exact hnear

/-- Rounding is symmetric: `IsRounded` does not depend on the sign. -/
theorem IsRounded.neg {v r : ℚ} (h : IsRounded v r) : IsRounded (-v) (-r) := by
  obtain ⟨n, rfl, hnear, heven⟩ := h
  have hdistance : |-((n : ℚ) / 10 ^ fixedPlaces) - -v| = |(n : ℚ) / 10 ^ fixedPlaces - v| := by
    rw [neg_sub_neg, abs_sub_comm]
  refine ⟨-n, by push_cast; ring, ?_, ?_⟩
  · rwa [hdistance]
  · rw [hdistance]
    exact fun h => (heven h).neg

theorem IsRounded.le {v r s : ℚ} (hr : IsRounded v r) (hs : IsRounded v s) : r ≤ s := by
  obtain ⟨m, rfl, hm, hmeven⟩ := hr
  obtain ⟨n, rfl, hn, hneven⟩ := hs
  by_contra! hlt
  rw [pow_fixedPlaces] at hm hmeven hn hneven hlt
  rw [div_lt_div_iff_of_pos_right (by norm_num), Int.cast_lt] at hlt
  have hnext : (n : ℚ) + 1 ≤ m := by exact_mod_cast hlt
  obtain ⟨-, hm'⟩ := abs_le.mp hm
  obtain ⟨hn', -⟩ := abs_le.mp hn
  -- Two different multiples can only be nearest if they are neighbours around the middle.
  have habove : (m : ℚ) / 100000 - v = 5e-6 := by linarith
  have hbelow : (n : ℚ) / 100000 - v = -5e-6 := by linarith
  have hneighbour : m = n + 1 := by
    have : (m : ℚ) = n + 1 := by linarith
    exact_mod_cast this
  have heven := hmeven (by rw [habove]; norm_num)
  have heven' := hneven (by rw [hbelow]; norm_num)
  rw [hneighbour, Int.even_add_one] at heven
  exact heven heven'

/-- There is only one value that `IsRounded` allows. -/
theorem IsRounded.unique {v r s : ℚ} (hr : IsRounded v r) (hs : IsRounded v s) : r = s :=
  le_antisymm (hr.le hs) (hs.le hr)

/-- The natural number of `roundHalfEven` is at most one half away, and even if it is exactly one
half away. -/
theorem roundHalfEven_near (n : Nat) {d : Nat} (hd : 0 < d) :
    2 * |((roundHalfEven n d * d : Nat) : ℤ) - n| ≤ d ∧
      (2 * |((roundHalfEven n d * d : Nat) : ℤ) - n| = d → Even (roundHalfEven n d)) := by
  have hdivision := Nat.div_add_mod' n d
  have hremainder := Nat.mod_lt n hd
  rw [abs_eq_max_neg, Nat.even_iff]
  unfold roundHalfEven
  dsimp only
  split
  · omega
  · split
    · rw [Nat.add_mul, Nat.one_mul]
      omega
    · rcases Nat.mod_two_eq_zero_or_one (n / d) with hparity | hparity
      · rw [hparity, Nat.add_zero]
        omega
      · rw [hparity, Nat.add_mul, Nat.one_mul]
        omega

/-- The nearest count of `10 ^ -5` is a rounded value. -/
theorem isRounded_roundHalfEven (n : Nat) {d : Nat} (hd : 0 < d) :
    IsRounded (n / d) (roundHalfEven (n * Nat.pow 10 fixedPlaces) d / 10 ^ fixedPlaces) := by
  have hpos : (0 : ℚ) < d := by exact_mod_cast hd
  obtain ⟨hnear, heven⟩ := roundHalfEven_near (n * Nat.pow 10 fixedPlaces) hd
  generalize roundHalfEven (n * Nat.pow 10 fixedPlaces) d = k at hnear heven ⊢
  have hdistance : |(k : ℚ) / 10 ^ fixedPlaces - n / d| =
      (2 * |((k * d : Nat) : ℤ) - (n * Nat.pow 10 fixedPlaces : Nat)| : ℤ) / d * 5e-6 := by
    have hquotient : (k : ℚ) / 10 ^ fixedPlaces - n / d =
        (((k * d : Nat) : ℤ) - (n * Nat.pow 10 fixedPlaces : Nat) : ℤ) / d * 1e-5 := by
      have hpow : Nat.pow 10 fixedPlaces = 100000 := by decide
      rw [hpow, pow_fixedPlaces]
      push_cast
      field_simp
      ring
    rw [hquotient, abs_mul, abs_div, abs_of_pos hpos, abs_of_pos (by norm_num : (0 : ℚ) < 1e-5)]
    push_cast
    ring
  generalize 2 * |((k * d : Nat) : ℤ) - (n * Nat.pow 10 fixedPlaces : Nat)| = t
    at hnear heven hdistance
  refine ⟨k, by push_cast; rfl, ?_, fun hhalf => ?_⟩
  · have hratio : (t : ℚ) / d ≤ 1 := (div_le_one hpos).mpr (by exact_mod_cast hnear)
    rw [hdistance]
    linarith
  · rw [hdistance] at hhalf
    have hratio : (t : ℚ) / d = 1 := by linarith
    have ht : (t : ℚ) = d := (div_eq_one_iff_eq hpos.ne').mp hratio
    exact_mod_cast heven (by exact_mod_cast ht)

theorem scaled_pos (mantissa : Nat) (exponent : Int) : 0 < (scaled mantissa exponent).2 :=
  Nat.pow_pos (by decide)

/-- The quotient of `scaled` is the exact value. -/
theorem scaled_div (mantissa : Nat) (exponent : Int) :
    ((scaled mantissa exponent).1 : ℚ) / (scaled mantissa exponent).2 =
      mantissa * 2 ^ exponent := by
  have hexponent : exponent = exponent.toNat - (-exponent).toNat := by omega
  have hpow : (2 : ℚ) ^ exponent = 2 ^ exponent.toNat / 2 ^ (-exponent).toNat := by
    conv_lhs => rw [hexponent, zpow_sub₀ (by norm_num), zpow_natCast, zpow_natCast]
  have hnumerator : (scaled mantissa exponent).1 = mantissa * 2 ^ exponent.toNat := rfl
  have hdenominator : (scaled mantissa exponent).2 = 2 ^ (-exponent).toNat := rfl
  rw [hnumerator, hdenominator, hpow]
  push_cast
  ring

/-- The count of `10 ^ -5` that is written for a double is its value, rounded to five decimals. -/
theorem isRounded_fixedCount (negative : Bool) (mantissa : Nat) (exponent : Int) :
    IsRounded (signFactor negative * (mantissa * 2 ^ exponent))
      (signFactor negative * (fixedCount mantissa exponent / 10 ^ fixedPlaces)) := by
  have hmagnitude : IsRounded (mantissa * 2 ^ exponent)
      (fixedCount mantissa exponent / 10 ^ fixedPlaces) := by
    rw [← scaled_div]
    exact isRounded_roundHalfEven _ (scaled_pos mantissa exponent)
  cases negative with
  | false => simpa [signFactor] using hmagnitude
  | true => simpa [signFactor] using hmagnitude.neg

end ThemeColor.Number
