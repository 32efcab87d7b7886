import ThemeColor.Proofs.ExactValue
import ThemeColor.Token.Numeral

/-!
# The double nearest to a number

`Numeral.toFloat` puts a decimal number together from its digits and a power of ten, by one product
or quotient if both are doubles, and otherwise exactly before rounding once. Both ways end in
`roundWithAccuracy`, which drops bits of a mantissa and keeps two residual bits of what it drops.
The invariant of the dropping is `Locates`: the mantissa and the two bits tell where the exact
number lies. So the rounded mantissa is at most half a unit away, and since all doubles of that
magnitude are multiples of this unit, no double is nearer.

## Main definitions

* `Number.IsNearest`: no double is nearer to a number;
* `Number.Locates`: what a mantissa with residual bits tells about a number;
* `Numeral.value`: the number of a numeral.

## Main results

* `Number.isNearest_pack_round`: rounding a located number gives the nearest double;
* `Number.isNearest_pack_mul`, `Number.isNearest_pack_div`: products and quotients;
* `Number.isNearest_ofScientific`: decimal numbers;
* `Numeral.isNearest_toFloat`: a numeral is read as the double nearest to its number.
-/

namespace ThemeColor

namespace Number

open Float.Model Float.Model.UnpackedFloat

/-! ## Nearest doubles -/

/-- The double stands for a number, and no double stands for one that is nearer to `x`. -/
def IsNearest (x : ℚ) (f : Float) : Prop :=
  ∃ v, (Binary.ofFloat f).value? = some v ∧
    ∀ g w, (Binary.ofFloat g).value? = some w → |v - x| ≤ |w - x|

/-- The greatest number that a double stands for. -/
def greatest : ℚ := (2 ^ 53 - 1) * 2 ^ (971 : ℤ)

/-- A double has a `value?` that is a multiple of a power of two, with at most 53 bits. -/
theorem Binary.exists_of_value? {f : Float} {w : ℚ} (h : (ofFloat f).value? = some w) :
    ∃ m e : ℤ, w = m * 2 ^ e ∧ |m| < 2 ^ 53 ∧ -1074 ≤ e := by
  have hpow : Nat.pow 2 fractionBits = 2 ^ 52 := rfl
  have hfraction : f.toBits.toNat % Nat.pow 2 fractionBits < 2 ^ 52 := Nat.mod_lt _ (by decide)
  have hsigned (negative : Bool) (m : ℕ) (e : ℤ) (hm : m < 2 ^ 53) (he : -1074 ≤ e)
      (hw : Binary.value? (.finite negative m e) = some w) :
      ∃ m e : ℤ, w = m * 2 ^ e ∧ |m| < 2 ^ 53 ∧ -1074 ≤ e := by
    obtain rfl := Option.some.inj hw
    cases negative with
    | false => exact ⟨m, e, by simp [signFactor], by rw [Nat.abs_cast]; exact_mod_cast hm, he⟩
    | true =>
      exact ⟨-m, e, by simp [signFactor], by rw [abs_neg, Nat.abs_cast]; exact_mod_cast hm, he⟩
  unfold ofFloat at h
  dsimp only at h
  split at h
  · split at h <;> cases h
  · split at h
    · exact hsigned _ _ _ (hfraction.trans (by decide)) le_rfl h
    · exact hsigned _ _ _ (by omega) (by rw [leastExponent]; omega) h

/-- Of all multiples of a number, one that is at most half of it away from `x` is nearest to `x`. -/
theorem abs_sub_le_of_half {x unit : ℚ} {k : ℤ} (hnear : |k * unit - x| ≤ unit / 2) (j : ℤ) :
    |k * unit - x| ≤ |j * unit - x| := by
  rcases eq_or_ne j k with rfl | hne
  · exact le_rfl
  · have hunit : 0 ≤ unit := by linarith [abs_nonneg (k * unit - x)]
    have hone : (1 : ℚ) ≤ |(j : ℚ) - k| := by exact_mod_cast Int.one_le_abs (sub_ne_zero.mpr hne)
    have hgap : unit ≤ |j * unit - k * unit| := by
      rw [← sub_mul, abs_mul, abs_of_nonneg hunit]
      exact le_mul_of_one_le_left hunit hone
    have htriangle := abs_sub_le (j * unit) x (k * unit)
    rw [abs_sub_comm x] at htriangle
    linarith

/-- A multiple of a power of two is a multiple of every lesser power. -/
theorem exists_mul_pow_eq (m : ℤ) {t e : ℤ} (h : t ≤ e) : ∃ j : ℤ, (m : ℚ) * 2 ^ e = j * 2 ^ t := by
  refine ⟨m * 2 ^ (e - t).toNat, ?_⟩
  have hsum : e = (e - t).toNat + t := by omega
  conv_lhs => rw [hsum, zpow_add₀ two_ne_zero, zpow_natCast]
  push_cast
  ring

/-- If doubles of the magnitude of `x` are multiples of `2 ^ t`, a multiple that is at most half of
it away from `x` is as near as any double. -/
theorem abs_sub_le_of_value? {x : ℚ} {t k : ℤ}
    (hfine : t = -1074 ∨ 2 ^ (t + 52) ≤ x) (hnear : |k * 2 ^ t - x| ≤ 2 ^ t / 2)
    {g : Float} {w : ℚ} (hw : (Binary.ofFloat g).value? = some w) :
    |k * 2 ^ t - x| ≤ |w - x| := by
  obtain ⟨m, e, rfl, hm, he⟩ := Binary.exists_of_value? hw
  by_cases hte : t ≤ e
  · obtain ⟨j, hj⟩ := exists_mul_pow_eq m hte
    rw [hj]
    exact abs_sub_le_of_half hnear j
  · -- A finer double is below the least one that is a multiple, and that one is below `x`.
    have hx : 2 ^ (t + 52) ≤ x := hfine.resolve_left (by omega)
    have hbound : (m : ℚ) * 2 ^ e ≤ 2 ^ (t + 52) := by
      have hmantissa : (m : ℚ) ≤ 2 ^ 53 := by exact_mod_cast (le_abs_self m).trans hm.le
      have hpower : (2 : ℚ) ^ e ≤ 2 ^ (t - 1) := zpow_le_zpow_right₀ one_le_two (by omega)
      calc (m : ℚ) * 2 ^ e ≤ 2 ^ 53 * 2 ^ (t - 1) := by gcongr
        _ = 2 ^ (t + 52) := by
          rw [← zpow_natCast, ← zpow_add₀ two_ne_zero]
          congr 1
          push_cast
          omega
    have hleast : ((2 ^ 52 : ℤ) : ℚ) * 2 ^ t = 2 ^ (t + 52) := by
      rw [zpow_add₀ two_ne_zero]
      push_cast
      ring
    have hmultiple := abs_sub_le_of_half hnear (2 ^ 52)
    rw [hleast, abs_of_nonpos (by linarith : (2 : ℚ) ^ (t + 52) - x ≤ 0)] at hmultiple
    rw [abs_of_nonpos (by linarith : (m : ℚ) * 2 ^ e - x ≤ 0)]
    linarith

/-! ## Residual bits -/

/-- The mantissa and its two residual bits locate `x` in units of `2 ^ e`: it lies behind the
mantissa by less than a unit, by half a unit or more exactly if the first bit is set, and by neither
nothing nor half a unit exactly if the second bit is set. -/
def Locates (em : ExtendedMantissa) (e : ℤ) (x : ℚ) : Prop :=
  ∃ r : ℚ, x = (em.mantissa + r) * 2 ^ e ∧ 0 ≤ r ∧ r < 1 ∧ (em.roundBit = true ↔ 1 / 2 ≤ r) ∧
    (em.stickyBit = true ↔ r ≠ 0 ∧ r ≠ 1 / 2)

variable {em : ExtendedMantissa} {e : ℤ} {x : ℚ}

/-- Shifting out one bit with `shiftRightOne` keeps what the bits tell. -/
theorem Locates.shiftRightOne (h : Locates em e x) : Locates em.shiftRightOne (e + 1) x := by
  obtain ⟨r, rfl, hlow, hhigh, hround, hsticky⟩ := h
  have hparity : (em.mantissa : ℚ) = 2 * (em.mantissa / 2 : ℕ) + (em.mantissa % 2 : ℕ) := by
    exact_mod_cast (Nat.div_add_mod em.mantissa 2).symm
  refine ⟨((em.mantissa % 2 : ℕ) + r) / 2, ?_, by positivity, ?_, ?_, ?_⟩
  · rw [zpow_add_one₀ two_ne_zero, ExtendedMantissa.shiftRightOne, hparity]
    ring
  · have hle : ((em.mantissa % 2 : ℕ) : ℚ) ≤ 1 := by
      exact_mod_cast Nat.lt_succ_iff.mp (Nat.mod_lt em.mantissa two_pos)
    linarith
  · rw [ExtendedMantissa.shiftRightOne, bne_iff_ne]
    rcases Nat.mod_two_eq_zero_or_one em.mantissa with hbit | hbit
    · rw [hbit]
      constructor
      · intro h
        exact absurd rfl h
      · intro h
        push_cast at h
        linarith
    · rw [hbit]
      refine ⟨fun _ => ?_, fun _ => one_ne_zero⟩
      push_cast
      linarith
  · -- One of the two bits was set exactly if there was something behind the mantissa.
    have hbehind : em.roundBit = true ∨ em.stickyBit = true ↔ r ≠ 0 := by
      rw [hround, hsticky]
      constructor
      · rintro (h | h)
        · linarith
        · exact h.1
      · intro h
        by_cases hhalf : r = 1 / 2
        · exact .inl hhalf.ge
        · exact .inr ⟨h, hhalf⟩
    rw [ExtendedMantissa.shiftRightOne, Bool.or_eq_true, hbehind]
    rcases Nat.mod_two_eq_zero_or_one em.mantissa with hbit | hbit
    · rw [hbit]
      push_cast
      refine ⟨fun h => ⟨by simpa using h, fun hhalf => ?_⟩, fun h hzero => h.1 (by simp [hzero])⟩
      linarith
    · rw [hbit]
      push_cast
      refine ⟨fun h => ⟨fun hzero => ?_, fun hhalf => h (by linarith)⟩, fun h hzero => h.2 ?_⟩
      · linarith
      · rw [hzero, add_zero]

/-- Shifting out bits keeps what the bits tell: the mantissa still `Locates` the number. -/
theorem Locates.shiftRight (h : Locates em e x) (n : ℕ) : Locates (em >>> n) (e + n) x := by
  induction n with
  | zero =>
    rw [Nat.cast_zero, add_zero]
    exact h
  | succ n ih =>
    rw [Nat.cast_succ, ← add_assoc]
    exact ih.shiftRightOne

/-- The `roundedMantissa` is at most half a unit away. -/
theorem Locates.abs_sub_le (h : Locates em e x) :
    |(em.roundedMantissa : ℚ) * 2 ^ e - x| ≤ 2 ^ e / 2 := by
  obtain ⟨r, rfl, hlow, hhigh, hround, hsticky⟩ := h
  have hunit : (0 : ℚ) < 2 ^ e := by positivity
  suffices hdistance : |(em.roundedMantissa : ℚ) - (em.mantissa + r)| ≤ 1 / 2 by
    rw [← sub_mul, abs_mul, abs_of_pos hunit]
    linarith [mul_le_mul_of_nonneg_right hdistance hunit.le]
  rcases em with ⟨m, round, sticky⟩
  dsimp only at hround hsticky ⊢
  rw [abs_le]
  cases round with
  | false =>
    have hbelow : r < 1 / 2 := by simpa using hround
    cases sticky with
    | false | true =>
      simp only [ExtendedMantissa.roundedMantissa, ExtendedMantissa.accuracy,
        Accuracy.roundToNearestEven]
      constructor <;> linarith
  | true =>
    have habove : 1 / 2 ≤ r := by simpa using hround
    cases sticky with
    | false =>
      -- This is a tie, and the parity of the mantissa decides which way it is rounded.
      have hhalf : r = 1 / 2 := by
        by_contra hne
        exact absurd (hsticky.mpr ⟨by linarith, hne⟩) Bool.false_ne_true
      have hle : ((m % 2 : ℕ) : ℚ) ≤ 1 := by
        exact_mod_cast Nat.lt_succ_iff.mp (Nat.mod_lt m two_pos)
      have hnonneg : (0 : ℚ) ≤ (m % 2 : ℕ) := Nat.cast_nonneg _
      simp only [ExtendedMantissa.roundedMantissa, ExtendedMantissa.accuracy,
        Accuracy.roundToNearestEven]
      rw [Nat.cast_add]
      constructor <;> linarith
    | true =>
      simp only [ExtendedMantissa.roundedMantissa, ExtendedMantissa.accuracy,
        Accuracy.roundToNearestEven]
      push_cast
      constructor <;> linarith

/-! ## Rounding -/

/-- The `targetExponent` leaves 53 bits, unless it would be below that of the least double. -/
theorem targetExponent_binary64 (total : ℤ) :
    Format.binary64.targetExponent total = max (total - 53) (-1074) := rfl

/-- The `targetExponent` that doubles of a magnitude have. -/
theorem targetExponent_eq (m : ℕ) (e : ℤ) :
    Format.binary64.targetExponent (totalExponent m e) = max (m.log2 + e - 52) (-1074) := by
  rw [targetExponent_binary64, totalExponent]
  congr 1
  omega

/-- The first of 53 bits. -/
theorem log2_eq_of_le {m : ℕ} (hlow : 2 ^ 52 ≤ m) (hhigh : m < 2 ^ 53) : m.log2 = 52 := by
  have hm : m ≠ 0 := by omega
  have hlt := (Nat.log2_lt hm).mpr hhigh
  have hle := (Nat.le_log2 hm).mpr hlow
  omega

/-- The double with the mantissa and the exponent, where rounding may have made the mantissa as
great as `2 ^ 53`. -/
def carried (k : ℕ) (t : ℤ) : UnpackedFloat :=
  if h : k = 0 then .zero .positive
  else if k < 2 ^ 53 then .finite .positive k t (Nat.pos_of_ne_zero h)
  else .finite .positive (2 ^ 52) (t + 1) (by decide)

/-- A rounded mantissa is put by `shiftToTargetExponent` in the form that doubles have. -/
theorem shiftToTargetExponent_rounded {k : ℕ} {t : ℤ} (hk : k ≤ 2 ^ 53) (ht : -1074 ≤ t) :
    shiftToTargetExponent .binary64 k t .exact =
      if k < 2 ^ 53 then (⟨k, false, false⟩, t) else (⟨2 ^ 52, false, false⟩, t + 1) := by
  rw [shiftToTargetExponent, targetExponent_eq]
  split
  · rename_i hlt
    have hlog : k.log2 ≤ 52 := by
      by_cases hzero : k = 0
      · simp [hzero]
      · exact Nat.lt_succ_iff.mp ((Nat.log2_lt hzero).mpr hlt)
    have hshift : (max ((k.log2 : ℤ) + t - 52) (-1074) - t).toNat = 0 := by omega
    rw [shiftToExponent, hshift, Nat.cast_zero, add_zero]
    rfl
  · rename_i hlt
    obtain rfl : k = 2 ^ 53 := by omega
    have hshift : (max (((2 ^ 53).log2 : ℤ) + t - 52) (-1074) - t).toNat = 1 := by
      rw [Nat.log2_two_pow]
      omega
    rw [shiftToExponent, hshift, Nat.cast_one]
    rfl

@[simp]
theorem mantissa_ofMantissaAndAccuracy (m : ℕ) (accuracy : Accuracy) :
    (ExtendedMantissa.ofMantissaAndAccuracy m accuracy).mantissa = m := by
  cases accuracy with
  | exact => rfl
  | inexact order => cases order <;> rfl

section Rounding

variable {m : ℕ} {accuracy : Accuracy} {t : ℤ}

/-- What a mantissa `Locates` is below the power of two that the mantissa is below. -/
theorem Locates.lt_pow (h : Locates (.ofMantissaAndAccuracy m accuracy) e x) :
    x < 2 ^ (m.log2 + e + 1) := by
  obtain ⟨r, rfl, -, hr, -, -⟩ := h
  rw [mantissa_ofMantissaAndAccuracy]
  have hlog : (m : ℚ) + 1 ≤ 2 ^ (m.log2 + 1) := by exact_mod_cast Nat.lt_log2_self (n := m)
  calc (m + r) * 2 ^ e < 2 ^ (m.log2 + 1) * 2 ^ e := by
        gcongr
        linarith
    _ = 2 ^ (m.log2 + e + 1) := by
        rw [← zpow_natCast, ← zpow_add₀ two_ne_zero]
        congr 1
        push_cast
        ring

/-- What a mantissa `Locates` is not below the power of two of its first bit. -/
theorem Locates.pow_le (h : Locates (.ofMantissaAndAccuracy m accuracy) e x) (hm : m ≠ 0) :
    2 ^ (m.log2 + e) ≤ x := by
  obtain ⟨r, rfl, hr, -, -, -⟩ := h
  rw [mantissa_ofMantissaAndAccuracy, zpow_add₀ two_ne_zero, zpow_natCast]
  have hlog : (2 : ℚ) ^ m.log2 ≤ m := by exact_mod_cast Nat.log2_self_le hm
  gcongr
  linarith

/-- The `roundedMantissa` is at most as great as the power of two that the mantissa was below. -/
theorem Locates.roundedMantissa_le (h : Locates em t x) (hx : x < 2 ^ (t + 53)) :
    em.roundedMantissa ≤ 2 ^ 53 := by
  have hunit : (0 : ℚ) < 2 ^ t := by positivity
  have hlt : (em.roundedMantissa : ℚ) * 2 ^ t < (2 ^ 53 + 1) * 2 ^ t := by
    have hnear := (abs_le.mp h.abs_sub_le).2
    rw [zpow_add₀ two_ne_zero] at hx
    norm_num at hx ⊢
    linarith
  have hmantissa : (em.roundedMantissa : ℚ) < 2 ^ 53 + 1 := lt_of_mul_lt_mul_right hlt hunit.le
  exact Nat.lt_succ_iff.mp (by exact_mod_cast hmantissa)

/-- The function `roundWithAccuracy` drops bits down to the exponent that doubles of this magnitude
have. -/
theorem roundWithAccuracy_eq (ht : t = max ((m.log2 : ℤ) + e - 52) (-1074)) (het : e ≤ t) {k : ℕ}
    (hk : k = (ExtendedMantissa.ofMantissaAndAccuracy m accuracy >>> (t - e).toNat).roundedMantissa)
    (hle : k ≤ 2 ^ 53) :
    roundWithAccuracy .binary64 .positive m e accuracy = carried k t := by
  have hfirst : shiftToTargetExponent .binary64 m e accuracy =
      (ExtendedMantissa.ofMantissaAndAccuracy m accuracy >>> (t - e).toNat, t) := by
    have hexponent : e + (t - e).toNat = t := by omega
    rw [shiftToTargetExponent, targetExponent_eq, ← ht, shiftToExponent, hexponent]
  rw [roundWithAccuracy, hfirst]
  dsimp only
  rw [← hk, shiftToTargetExponent_rounded hle (by omega), carried]
  by_cases hlt : k < 2 ^ 53
  · simp only [if_pos hlt]
  · have hzero : k ≠ 0 := by omega
    simp only [if_neg hlt, dif_neg hzero]
    rfl

/-- A number is rounded by `roundWithAccuracy` to a multiple of the power of two that doubles of its
magnitude are multiples of. -/
theorem exists_roundWithAccuracy_eq (hx : Locates (.ofMantissaAndAccuracy m accuracy) e x)
    (he : e ≤ max ((m.log2 : ℤ) + e - 52) (-1074)) :
    ∃ (k : ℕ) (t : ℤ), roundWithAccuracy .binary64 .positive m e accuracy = carried k t ∧
      |(k : ℚ) * 2 ^ t - x| ≤ 2 ^ t / 2 ∧ k ≤ 2 ^ 53 ∧ -1074 ≤ t ∧
      (t = -1074 ∨ 2 ^ (t + 52) ≤ x) := by
  obtain ⟨t, ht⟩ : ∃ t, t = max ((m.log2 : ℤ) + e - 52) (-1074) := ⟨_, rfl⟩
  rw [← ht] at he
  have hshifted := hx.shiftRight (t - e).toNat
  have hexponent : e + (t - e).toNat = t := by omega
  rw [hexponent] at hshifted
  have hlt : x < 2 ^ (t + 53) :=
    hx.lt_pow.trans_le (zpow_le_zpow_right₀ one_le_two (by omega))
  have hle := hshifted.roundedMantissa_le hlt
  refine ⟨_, t, roundWithAccuracy_eq ht he rfl hle, hshifted.abs_sub_le, hle, by omega, ?_⟩
  by_cases hleast : t = -1074
  · exact .inl hleast
  · have hlog : t + 52 = m.log2 + e := by omega
    have hm : m ≠ 0 := by
      rintro rfl
      rw [Nat.log2_zero] at hlog
      omega
    rw [hlog]
    exact .inr (hx.pow_le hm)

end Rounding

/-! ## Packing -/

section Packing

variable {m : ℕ} {e : ℤ}

/-- A double with all 53 bits is packed by `UnpackedFloat.pack` without loss. -/
theorem unpack_pack_normal (hlow : 2 ^ 52 ≤ m) (hhigh : m < 2 ^ 53) (hleast : -1074 ≤ e)
    (hgreatest : e ≤ 971) (hm : 0 < m) :
    UnpackedFloat.unpack .binary64 (UnpackedFloat.pack .binary64 (.finite .positive m e hm)) =
      .finite .positive m e hm := by
  have hbias : (Format.binary64.exponentBias : ℤ) = 1023 := rfl
  have hlog := log2_eq_of_le hlow hhigh
  obtain ⟨field, hfield⟩ : ∃ field : ℕ, e = field - 1075 := ⟨(e + 1075).toNat, by omega⟩
  have hpack : UnpackedFloat.pack .binary64 (.finite .positive m e hm) =
      packComponents .binary64 .positive (BitVec.ofNat 11 field) (BitVec.ofNat 52 m) := by
    have hbiased : (e + Format.binary64.exponentBias + (52 : ℕ)).toNat = field := by
      rw [hbias]
      omega
    rw [UnpackedFloat.pack]
    dsimp only
    rw [hbiased, if_neg (by omega), hlog]
    exact if_pos rfl
  have htoNat : (BitVec.ofNat 11 field).toNat = field := by
    rw [BitVec.toNat_ofNat]
    exact Nat.mod_eq_of_lt (by omega)
  -- The field is neither that of the infinities nor that of doubles without an implicit bit.
  have hones : BitVec.ofNat 11 field ≠ -1#11 := by
    intro h
    have hfield' : field = 2047 := htoNat.symm.trans (congrArg BitVec.toNat h)
    omega
  have hzeros : BitVec.ofNat 11 field ≠ 0#11 := by
    intro h
    have hfield' : field = 0 := htoNat.symm.trans (congrArg BitVec.toNat h)
    omega
  rw [hpack, UnpackedFloat.unpack]
  simp only [unpackExponent_packComponents, unpackMantissa_packComponents,
    unpackSign_packComponents, Sign.ofBitVec_toBitVec, if_neg hones, if_neg hzeros]
  have hmantissa : (1#1 ++ BitVec.ofNat 52 m).toNat = m := by
    rw [Binary.toNat_implicit_append, BitVec.toNat_ofNat]
    have hpow : Nat.pow 2 52 = 2 ^ 52 := rfl
    omega
  simp only [hmantissa, htoNat, hbias]
  congr 1
  omega

/-- A double with fewer bits and the least exponent is packed by `UnpackedFloat.pack` without loss.
-/
theorem unpack_pack_subnormal (hhigh : m < 2 ^ 52) (hm : 0 < m) :
    UnpackedFloat.unpack .binary64
        (UnpackedFloat.pack .binary64 (.finite .positive m (-1074) hm)) =
      .finite .positive m (-1074) hm := by
  have hlog : m.log2 < 52 := (Nat.log2_lt hm.ne').mpr hhigh
  have hpack : UnpackedFloat.pack .binary64 (.finite .positive m (-1074) hm) =
      packComponents .binary64 .positive 0#11 (BitVec.ofNat 52 m) := by
    have hbiased : (-1074 + (Format.binary64.exponentBias : ℤ) + (52 : ℕ)).toNat = 1 := rfl
    rw [UnpackedFloat.pack]
    dsimp only
    rw [hbiased, if_neg (by decide)]
    exact if_neg (by rw [show Format.binary64.mantissaBits = 53 from rfl]; omega)
  have htoNat : (BitVec.ofNat 52 m).toNat = m := by
    rw [BitVec.toNat_ofNat]
    exact Nat.mod_eq_of_lt hhigh
  have hzeros : BitVec.ofNat 52 m ≠ 0#52 := by
    intro h
    have hzero : m = 0 := htoNat.symm.trans (congrArg BitVec.toNat h)
    omega
  rw [hpack, UnpackedFloat.unpack]
  simp only [unpackExponent_packComponents, unpackMantissa_packComponents,
    unpackSign_packComponents, Sign.ofBitVec_toBitVec, dif_neg hzeros, htoNat]
  rfl

/-- A power of two that is not above the `greatest` double. -/
theorem lt_of_pow_le_greatest {a : ℤ} (h : (2 : ℚ) ^ a ≤ greatest) : a < 1024 := by
  have hlt : greatest < 2 ^ (1024 : ℤ) := by
    calc greatest < 2 ^ 53 * 2 ^ (971 : ℤ) := by
          rw [greatest]
          gcongr
          exact sub_one_lt _
      _ = 2 ^ ((53 : ℕ) + (971 : ℤ)) := by rw [zpow_add₀ two_ne_zero, zpow_natCast]
  exact (zpow_lt_zpow_iff_right₀ one_lt_two).mp (h.trans_lt hlt)

/-- What rounding gives, a `carried` mantissa, is packed without loss, unless it is too great for a
double. -/
theorem unpack_pack_carried {k : ℕ} {t : ℤ} (hk : k ≤ 2 ^ 53) (hleast : -1074 ≤ t)
    (hnormal : t = -1074 ∨ 2 ^ 52 ≤ k) (hgreatest : (k : ℚ) * 2 ^ t ≤ greatest) :
    UnpackedFloat.unpack .binary64 (UnpackedFloat.pack .binary64 (carried k t)) = carried k t := by
  have hbound (n : ℕ) (hn : 2 ^ n ≤ k) : n + t < 1024 := by
    refine lt_of_pow_le_greatest (le_trans ?_ hgreatest)
    rw [zpow_add₀ two_ne_zero, zpow_natCast]
    gcongr
    exact_mod_cast hn
  rw [carried]
  split
  · exact unpack_packedZero
  · rename_i hzero
    split
    · rename_i hlt
      by_cases hbits : 2 ^ 52 ≤ k
      · have hexponent := hbound 52 hbits
        exact unpack_pack_normal hbits hlt hleast (by omega) _
      · obtain rfl := hnormal.resolve_right hbits
        exact unpack_pack_subnormal (by omega) _
    · have hexponent := hbound 53 (by omega)
      exact unpack_pack_normal le_rfl (by decide) (by omega) (by omega) _

/-- The number that a `carried` mantissa stands for. -/
theorem value?_carried {k : ℕ} (hk : k ≤ 2 ^ 53) (t : ℤ) :
    (Binary.ofUnpacked (carried k t)).value? = some ((k : ℚ) * 2 ^ t) := by
  rw [carried]
  split
  · rename_i hzero
    simp [Binary.ofUnpacked, Binary.value?, hzero]
  · split
    · simp [Binary.ofUnpacked, Binary.value?, signFactor]
    · obtain rfl : k = 2 ^ 53 := by omega
      have hsign : signFactor (Sign.positive == .negative) = 1 := rfl
      rw [Binary.ofUnpacked, Binary.value?, hsign, one_mul, zpow_add_one₀ two_ne_zero]
      congr 1
      norm_num
      ring

/-- A number with all 53 bits is rounded to a mantissa with all of them. -/
theorem pow_le_of_near {k : ℕ} {t : ℤ} {x : ℚ} (hnear : |(k : ℚ) * 2 ^ t - x| ≤ 2 ^ t / 2)
    (hx : 2 ^ (t + 52) ≤ x) : 2 ^ 52 ≤ k := by
  have hunit : (0 : ℚ) < 2 ^ t := by positivity
  have hlt : (2 ^ 52 : ℚ) * 2 ^ t < (k + 1) * 2 ^ t := by
    have hlow := (abs_le.mp hnear).1
    rw [zpow_add₀ two_ne_zero] at hx
    norm_num at hx ⊢
    linarith
  have hmantissa : (2 ^ 52 : ℚ) < k + 1 := lt_of_mul_lt_mul_right hlt hunit.le
  exact Nat.lt_succ_iff.mp (by exact_mod_cast hmantissa)

/-- The `greatest` double is a multiple of every power of two that doubles of a lesser magnitude are
multiples of, so a number is not rounded beyond it. -/
theorem mul_pow_le_greatest {k t : ℤ} {x : ℚ} (hfine : t = -1074 ∨ 2 ^ (t + 52) ≤ x)
    (hnear : |(k : ℚ) * 2 ^ t - x| ≤ 2 ^ t / 2) (hgreatest : x ≤ greatest) :
    (k : ℚ) * 2 ^ t ≤ greatest := by
  have ht : t ≤ 971 := by
    rcases hfine with rfl | hx
    · decide
    · have hlt := lt_of_pow_le_greatest (hx.trans hgreatest)
      omega
  obtain ⟨j, hj⟩ := exists_mul_pow_eq (2 ^ 53 - 1) ht
  have hmultiple : greatest = j * 2 ^ t := by
    rw [← hj, greatest]
    congr 1
    norm_num
  have hle := abs_sub_le_of_half hnear j
  rw [← hmultiple, abs_of_nonneg (by linarith : 0 ≤ greatest - x)] at hle
  linarith [(le_abs_self _).trans hle]

/-- Rounding and packing gives the nearest double, as `IsNearest` says. -/
theorem isNearest_pack_round {accuracy : Accuracy} {x : ℚ}
    (hx : Locates (.ofMantissaAndAccuracy m accuracy) e x)
    (he : e ≤ max ((m.log2 : ℤ) + e - 52) (-1074)) (hgreatest : x ≤ greatest) :
    IsNearest x (.ofModel (.pack (roundWithAccuracy .binary64 .positive m e accuracy))) := by
  obtain ⟨k, t, hround, hnear, hk, hleast, hfine⟩ := exists_roundWithAccuracy_eq hx he
  have hnear' : |((k : ℤ) : ℚ) * 2 ^ t - x| ≤ 2 ^ t / 2 := by exact_mod_cast hnear
  have hnormal : t = -1074 ∨ 2 ^ 52 ≤ k := hfine.imp_right (pow_le_of_near hnear)
  have hfits : (k : ℚ) * 2 ^ t ≤ greatest := by
    exact_mod_cast mul_pow_le_greatest hfine hnear' hgreatest
  refine ⟨k * 2 ^ t, ?_, fun g w hw => ?_⟩
  · rw [Binary.ofFloat_eq_ofUnpacked, hround, ← value?_carried hk t]
    exact congrArg _ (congrArg _ (unpack_pack_carried hk hleast hnormal hfits))
  · exact_mod_cast abs_sub_le_of_value? hfine hnear' hw

end Packing

/-! ## Products and quotients -/

section Arithmetic

variable {m₁ m₂ : ℕ} {e₁ e₂ : ℤ}

/-- A mantissa without residual bits `Locates` itself. -/
theorem locates_exact (m : ℕ) (e : ℤ) :
    Locates (.ofMantissaAndAccuracy m .exact) e (m * 2 ^ e) := by
  refine ⟨0, ?_, le_rfl, one_pos, ?_, ?_⟩
  · rw [mantissa_ofMantissaAndAccuracy, add_zero]
  · simp [ExtendedMantissa.ofMantissaAndAccuracy]
  · simp [ExtendedMantissa.ofMantissaAndAccuracy]

/-- The residual bits of a quotient, by `accuracyOfFraction`, tell how its remainder compares to
half of the divisor. -/
theorem bits_accuracyOfFraction (quotient : ℕ) {remainder divisor : ℕ} (hlt : remainder < divisor) :
    let em := ExtendedMantissa.ofMantissaAndAccuracy quotient (accuracyOfFraction remainder divisor)
    (em.roundBit = true ↔ divisor ≤ 2 * remainder) ∧
      (em.stickyBit = true ↔ remainder ≠ 0 ∧ 2 * remainder ≠ divisor) := by
  intro em
  by_cases hzero : remainder = 0
  · have hbits : em = ⟨quotient, false, false⟩ := by
      simp only [em, accuracyOfFraction, if_pos hzero, ExtendedMantissa.ofMantissaAndAccuracy]
    rw [hbits]
    simp only [Bool.false_eq_true, false_iff]
    omega
  · rcases lt_trichotomy (2 * remainder) divisor with h | h | h
    · have hbits : em = ⟨quotient, false, true⟩ := by
        simp only [em, accuracyOfFraction, if_neg hzero, compare_lt_iff_lt.mpr h,
          ExtendedMantissa.ofMantissaAndAccuracy]
      rw [hbits]
      simp only [Bool.false_eq_true, false_iff, true_iff]
      omega
    · have hbits : em = ⟨quotient, true, false⟩ := by
        simp only [em, accuracyOfFraction, if_neg hzero, compare_eq_iff_eq.mpr h,
          ExtendedMantissa.ofMantissaAndAccuracy]
      rw [hbits]
      simp only [Bool.false_eq_true, false_iff, true_iff]
      omega
    · have hbits : em = ⟨quotient, true, true⟩ := by
        simp only [em, accuracyOfFraction, if_neg hzero, compare_gt_iff_gt.mpr h,
          ExtendedMantissa.ofMantissaAndAccuracy]
      rw [hbits]
      simp only [true_iff]
      omega

/-- A quotient and the accuracy of its remainder are what `Locates` the fraction. -/
theorem locates_fraction (quotient : ℕ) {remainder divisor : ℕ} (hlt : remainder < divisor)
    (e : ℤ) :
    Locates (.ofMantissaAndAccuracy quotient (accuracyOfFraction remainder divisor)) e
      ((quotient + (remainder : ℚ) / divisor) * 2 ^ e) := by
  have hdivisor : (0 : ℚ) < divisor := by exact_mod_cast hlt.pos
  obtain ⟨hround, hsticky⟩ := bits_accuracyOfFraction quotient hlt
  refine ⟨(remainder : ℚ) / divisor, ?_, by positivity, ?_, ?_, ?_⟩
  · rw [mantissa_ofMantissaAndAccuracy]
  · rw [div_lt_one hdivisor]
    exact_mod_cast hlt
  · rw [hround, div_le_div_iff₀ two_pos hdivisor, one_mul, mul_comm]
    norm_cast
  · rw [hsticky, Ne, Ne, Ne, Ne, div_eq_zero_iff, div_eq_div_iff hdivisor.ne' two_ne_zero, one_mul,
      mul_comm (remainder : ℚ), or_iff_left hdivisor.ne']
    norm_cast

/-- The product `UnpackedFloat.mul` of two magnitudes is rounded to the nearest double. -/
theorem isNearest_pack_mul (h₁ : 0 < m₁) (h₂ : 0 < m₂) (hbits : 2 ^ 52 ≤ m₁ * m₂)
    (hgreatest : (m₁ * 2 ^ e₁ * (m₂ * 2 ^ e₂) : ℚ) ≤ greatest) :
    IsNearest (m₁ * 2 ^ e₁ * (m₂ * 2 ^ e₂)) (.ofModel (.pack (UnpackedFloat.mul .binary64
      (.finite .positive m₁ e₁ h₁) (.finite .positive m₂ e₂ h₂)))) := by
  have hproduct : (m₁ * 2 ^ e₁ * (m₂ * 2 ^ e₂) : ℚ) = (m₁ * m₂ : ℕ) * 2 ^ (e₁ + e₂) := by
    rw [zpow_add₀ two_ne_zero]
    push_cast
    ring
  rw [hproduct] at hgreatest ⊢
  have hlog : 52 ≤ (m₁ * m₂).log2 := (Nat.le_log2 (Nat.mul_pos h₁ h₂).ne').mpr hbits
  exact isNearest_pack_round (locates_exact _ _) (by omega) hgreatest

/-- A quotient is computed by `divCore` to enough bits, in units of a power of two. -/
theorem exists_divCore_eq (e₁ e₂ : ℤ) (h₁ : 0 < m₁) (h₂ : 0 < m₂) :
    ∃ (shift : ℕ) (t : ℤ), e₁ - e₂ = t + shift ∧
      divCore .binary64 m₁ e₁ m₂ e₂ =
        (m₁ * 2 ^ shift / m₂, t, accuracyOfFraction (m₁ * 2 ^ shift % m₂) m₂) ∧
      t ≤ max (((m₁ * 2 ^ shift / m₂).log2 : ℤ) + t - 52) (-1074) := by
  have htarget : Format.binary64.targetExponent (totalExponent m₁ e₁ - totalExponent m₂ e₂) =
      max ((m₁.log2 : ℤ) + e₁ - (m₂.log2 + e₂) - 53) (-1074) := by
    rw [targetExponent_binary64, totalExponent, totalExponent]
    congr 1
    omega
  obtain ⟨t, ht⟩ :
      ∃ t, t = min (e₁ - e₂) (max ((m₁.log2 : ℤ) + e₁ - (m₂.log2 + e₂) - 53) (-1074)) :=
    ⟨_, rfl⟩
  obtain ⟨shift, hshift⟩ : ∃ shift : ℕ, e₁ - e₂ = t + shift := ⟨(e₁ - e₂ - t).toNat, by omega⟩
  refine ⟨shift, t, hshift, ?_, ?_⟩
  · have hamount : (e₁ - e₂ - t).toNat = shift := by omega
    rw [divCore, htarget, ← ht, hamount, Nat.shiftLeft_eq]
  · by_cases hleast : t ≤ -1074
    · exact le_max_of_le_right hleast
    · -- There are 53 bits more in the dividend than in the divisor.
      have hbits : m₂.log2 + 53 ≤ m₁.log2 + shift := by omega
      have hquotient : 2 ^ 52 ≤ m₁ * 2 ^ shift / m₂ := by
        rw [Nat.le_div_iff_mul_le h₂]
        calc 2 ^ 52 * m₂ ≤ 2 ^ 52 * 2 ^ (m₂.log2 + 1) :=
              Nat.mul_le_mul_left _ Nat.lt_log2_self.le
          _ = 2 ^ (m₂.log2 + 53) := by rw [← pow_add]; congr 1; omega
          _ ≤ 2 ^ (m₁.log2 + shift) := Nat.pow_le_pow_right two_pos hbits
          _ = 2 ^ m₁.log2 * 2 ^ shift := pow_add _ _ _
          _ ≤ m₁ * 2 ^ shift := Nat.mul_le_mul_right _ (Nat.log2_self_le h₁.ne')
      have hlog : 52 ≤ (m₁ * 2 ^ shift / m₂).log2 :=
        (Nat.le_log2 (by omega)).mpr hquotient
      omega

/-- The quotient `UnpackedFloat.div` of two magnitudes is rounded to the nearest double. -/
theorem isNearest_pack_div (h₁ : 0 < m₁) (h₂ : 0 < m₂)
    (hgreatest : (m₁ * 2 ^ e₁ / (m₂ * 2 ^ e₂) : ℚ) ≤ greatest) :
    IsNearest (m₁ * 2 ^ e₁ / (m₂ * 2 ^ e₂)) (.ofModel (.pack (UnpackedFloat.div .binary64
      (.finite .positive m₁ e₁ h₁) (.finite .positive m₂ e₂ h₂)))) := by
  obtain ⟨shift, t, hshift, hcore, hbits⟩ := exists_divCore_eq e₁ e₂ h₁ h₂
  have hdivisor : (m₂ : ℚ) ≠ 0 := by exact_mod_cast h₂.ne'
  have hquotient : (m₁ * 2 ^ e₁ / (m₂ * 2 ^ e₂) : ℚ) =
      ((m₁ * 2 ^ shift / m₂ : ℕ) + ((m₁ * 2 ^ shift % m₂ : ℕ) : ℚ) / m₂) * 2 ^ t := by
    have hdivision : (m₁ * 2 ^ shift : ℚ) =
        m₂ * (m₁ * 2 ^ shift / m₂ : ℕ) + (m₁ * 2 ^ shift % m₂ : ℕ) := by
      exact_mod_cast (Nat.div_add_mod (m₁ * 2 ^ shift) m₂).symm
    have hpower : (2 : ℚ) ^ e₁ = 2 ^ e₂ * 2 ^ t * 2 ^ shift := by
      rw [← zpow_natCast, ← zpow_add₀ two_ne_zero, ← zpow_add₀ two_ne_zero]
      congr 1
      omega
    rw [hpower, div_eq_iff (by positivity)]
    field_simp
    linear_combination hdivision
  rw [hquotient] at hgreatest ⊢
  have hdiv : UnpackedFloat.div .binary64 (.finite .positive m₁ e₁ h₁)
      (.finite .positive m₂ e₂ h₂) =
      roundWithAccuracy .binary64 .positive (m₁ * 2 ^ shift / m₂) t
        (accuracyOfFraction (m₁ * 2 ^ shift % m₂) m₂) := by
    rw [UnpackedFloat.div, hcore]
    rfl
  rw [hdiv]
  exact isNearest_pack_round (locates_fraction _ (Nat.mod_lt _ h₂) t) hbits hgreatest

end Arithmetic

/-! ## Whole numbers and powers of ten -/

/-- A mantissa with 53 bits is not changed by `roundWithAccuracy`. -/
theorem roundWithAccuracy_exact {m : ℕ} {e : ℤ} (hlow : 2 ^ 52 ≤ m) (hhigh : m < 2 ^ 53)
    (he : -1074 ≤ e) (hm : 0 < m) :
    roundWithAccuracy .binary64 .positive m e .exact = .finite .positive m e hm := by
  have hlog := log2_eq_of_le hlow hhigh
  have hshift : (ExtendedMantissa.ofMantissaAndAccuracy m .exact >>> (e - e).toNat).roundedMantissa
      = m := by
    rw [sub_self]
    rfl
  rw [roundWithAccuracy_eq (by omega) le_rfl hshift.symm hhigh.le, carried, dif_neg hm.ne',
    if_pos hhigh]

/-- A whole number is shifted until it has all 53 bits, and then there is nothing to round. -/
theorem ofUInt64_eq {n shift : ℕ} (hshift : n.log2 + shift = 52) (hlow : 2 ^ 52 ≤ n * 2 ^ shift)
    (hhigh : n * 2 ^ shift < 2 ^ 53) (hpos : 0 < n * 2 ^ shift) :
    UnpackedFloat.ofUInt64 .binary64 n.toUInt64 =
      .finite .positive (n * 2 ^ shift) (-shift) hpos := by
  have hn : n < 2 ^ 53 := (Nat.le_mul_of_pos_right n (by positivity)).trans_lt hhigh
  have htoNat : n.toUInt64.toNat = n := by
    rw [Nat.toUInt64_eq, UInt64.toNat_ofNat']
    exact Nat.mod_eq_of_lt (by omega)
  have hcompare : compare (n : ℤ) 0 = .gt := by
    have hn' : 0 < n := pos_of_mul_pos_left hpos (Nat.zero_le _)
    exact compare_gt_iff_gt.mpr (by omega)
  have hamount : (0 - max ((n.log2 : ℤ) + 0 - 52) (-1074)).toNat = shift := by omega
  rw [UnpackedFloat.ofUInt64, htoNat, UnpackedFloat.ofNat, UnpackedFloat.ofInt,
    UnpackedFloat.normalize, hcompare]
  dsimp only
  rw [UnpackedFloat.round, Int.toNat_natCast, targetExponent_eq, decreaseExponent, hamount,
    Nat.shiftLeft_eq, zero_sub]
  exact roundWithAccuracy_exact hlow hhigh (by omega) hpos

/-- A positive whole number with at most 53 bits is a double. -/
theorem exists_unpack_toFloat {n : ℕ} (hn : 0 < n) (hlt : n < 2 ^ 53) :
    ∃ m e hm, n.toUInt64.toFloat.toModel.unpack = .finite .positive m e hm ∧ 2 ^ 52 ≤ m ∧
      (m : ℚ) * 2 ^ e = n := by
  have hlog : n.log2 < 53 := (Nat.log2_lt hn.ne').mpr hlt
  obtain ⟨shift, hshift⟩ : ∃ shift, n.log2 + shift = 52 := ⟨52 - n.log2, by omega⟩
  have hlow : 2 ^ 52 ≤ n * 2 ^ shift := by
    rw [← hshift, pow_add]
    exact Nat.mul_le_mul_right _ (Nat.log2_self_le hn.ne')
  have hhigh : n * 2 ^ shift < 2 ^ 53 := by
    have hpow : 2 ^ 53 = 2 ^ (n.log2 + 1) * 2 ^ shift := by
      rw [← pow_add]
      congr 1
      omega
    rw [hpow]
    exact Nat.mul_lt_mul_of_pos_right Nat.lt_log2_self (by positivity)
  have hpos : 0 < n * 2 ^ shift := by positivity
  refine ⟨n * 2 ^ shift, -shift, hpos, ?_, hlow, ?_⟩
  · show UnpackedFloat.unpack .binary64
      (UnpackedFloat.pack .binary64 (UnpackedFloat.ofUInt64 .binary64 n.toUInt64)) = _
    rw [ofUInt64_eq hshift hlow hhigh hpos]
    exact unpack_pack_normal hlow hhigh (by omega) (by omega) hpos
  · rw [zpow_neg, zpow_natCast]
    push_cast
    field_simp

/-- Whether the double stands for the power of ten and has all 53 bits. -/
def isPowerOfTen (f : Float) (e : ℕ) : Bool :=
  match Binary.ofFloat f with
  | .finite false m k => 2 ^ 52 ≤ m && (scaled m k).1 == 10 ^ e * (scaled m k).2
  | _ => false

/-- The table `Float.exactlyRepresentablePowersOfTen` holds the powers of ten. -/
theorem isPowerOfTen_table : ∀ e : Fin 23,
    isPowerOfTen (Float.exactlyRepresentablePowersOfTen[e.val]) e.val := by
  decide +kernel

/-- A double that stands for a power of ten, taken apart. -/
theorem exists_unpack_of_isPowerOfTen {f : Float} {e : ℕ} (h : isPowerOfTen f e) :
    ∃ m k hm, f.toModel.unpack = .finite .positive m k hm ∧ 2 ^ 52 ≤ m ∧
      (m : ℚ) * 2 ^ k = 10 ^ e := by
  rw [isPowerOfTen, Binary.ofFloat_eq_ofUnpacked] at h
  cases hf : f.toModel.unpack with
  | notANumber | infinity => simp [hf, Binary.ofUnpacked] at h
  | zero s =>
    cases s with
    | negative => simp [hf, Binary.ofUnpacked] at h
    | positive =>
      rw [hf] at h
      exact absurd (Bool.and_eq_true_iff.mp h).1 (by decide)
  | finite s m k hm =>
    cases s with
    | negative => simp [hf, Binary.ofUnpacked] at h
    | positive =>
      rw [hf] at h
      obtain ⟨hbits, hvalue⟩ := Bool.and_eq_true_iff.mp h
      have hscaled : ((scaled m k).1 : ℚ) = 10 ^ e * (scaled m k).2 := by
        exact_mod_cast eq_of_beq hvalue
      have hdenominator : ((scaled m k).2 : ℚ) ≠ 0 := by exact_mod_cast (scaled_pos m k).ne'
      refine ⟨m, k, hm, rfl, of_decide_eq_true hbits, ?_⟩
      rw [← scaled_div, hscaled, mul_div_cancel_right₀ _ hdenominator]

/-! ## Decimal numbers -/

/-- Zero is the double nearest to what is at most half of the least positive double. -/
theorem isNearest_pack_zero {x : ℚ} (hlow : 0 ≤ x) (hhigh : x ≤ 2 ^ (-1074 : ℤ) / 2) :
    IsNearest x (.ofModel (.pack (.zero .positive))) := by
  have hzero : ((0 : ℤ) : ℚ) * 2 ^ (-1074 : ℤ) = 0 := by rw [Int.cast_zero, zero_mul]
  refine ⟨0, by decide +kernel, fun g w hw => ?_⟩
  rw [← hzero]
  refine abs_sub_le_of_value? (.inl rfl) ?_ hw
  rwa [hzero, zero_sub, abs_neg, abs_of_nonneg hlow]

/-- Powers of ten against powers of two. -/
theorem two_zpow_le {e : ℤ} (he : 0 ≤ e) : (2 : ℚ) ^ e ≤ 10 ^ e :=
  zpow_le_zpow_left₀ he zero_le_two (by norm_num)

/-- Few digits with a small power of ten are put together by `Float.ofScientific` with one product
or quotient. -/
theorem isNearest_ofScientific_fast {m e : ℕ} (hm : m < 2 ^ 53) (he : e ≤ 22) (negative : Bool)
    (hgreatest : (m : ℚ) * 10 ^ (if negative then -e else e : ℤ) ≤ greatest) :
    IsNearest (m * 10 ^ (if negative then -e else e : ℤ)) (Float.ofScientific m negative e) := by
  have hsize : e < Float.exactlyRepresentablePowersOfTen.size := Nat.lt_succ_iff.mpr he
  have hfast : Float.ofScientific m negative e =
      if negative then m.toUInt64.toFloat / Float.exactlyRepresentablePowersOfTen[e]
      else m.toUInt64.toFloat * Float.exactlyRepresentablePowersOfTen[e] := by
    rw [Float.ofScientific, dif_pos ⟨hm, he⟩]
  obtain ⟨m₂, e₂, h₂, hpower, hbits₂, hten⟩ :=
    exists_unpack_of_isPowerOfTen (isPowerOfTen_table ⟨e, hsize⟩)
  generalize Float.exactlyRepresentablePowersOfTen[e] = power at hfast hpower
  have hmul : m.toUInt64.toFloat * power = .ofModel (.pack
      (UnpackedFloat.mul .binary64 m.toUInt64.toFloat.toModel.unpack power.toModel.unpack)) := rfl
  have hdiv : m.toUInt64.toFloat / power = .ofModel (.pack
      (UnpackedFloat.div .binary64 m.toUInt64.toFloat.toModel.unpack power.toModel.unpack)) := rfl
  rw [hfast, hmul, hdiv, hpower]
  -- Zero is a case of its own in the arithmetic, as it has no first bit.
  rcases Nat.eq_zero_or_pos m with rfl | hpos
  · have hzero : (0 : ℕ).toUInt64.toFloat.toModel.unpack = .zero .positive := unpack_packedZero
    rw [hzero, Nat.cast_zero, zero_mul]
    cases negative <;> exact isNearest_pack_zero le_rfl (by positivity)
  · obtain ⟨m₁, e₁, h₁, hwhole, hbits₁, hvalue⟩ := exists_unpack_toFloat hpos hm
    rw [hwhole]
    cases negative with
    | false =>
      have hproduct : (m : ℚ) * 10 ^ (e : ℤ) = m₁ * 2 ^ e₁ * (m₂ * 2 ^ e₂) := by
        rw [hvalue, hten, zpow_natCast]
      simp only [Bool.false_eq_true, if_false] at hgreatest ⊢
      rw [hproduct] at hgreatest ⊢
      exact isNearest_pack_mul h₁ h₂ (hbits₁.trans (Nat.le_mul_of_pos_right m₁ h₂)) hgreatest
    | true =>
      have hquotient : (m : ℚ) * 10 ^ (-e : ℤ) = m₁ * 2 ^ e₁ / (m₂ * 2 ^ e₂) := by
        rw [hvalue, hten, zpow_neg, zpow_natCast, div_eq_mul_inv]
      simp only [if_true] at hgreatest ⊢
      rw [hquotient] at hgreatest ⊢
      exact isNearest_pack_div h₁ h₂ hgreatest

section Powers

variable {m : ℕ} {e : ℤ}

/-- A decimal number with a great power of ten is too great for a double. -/
theorem exponent_lt_of_le_greatest (hm : 0 < m) (he : 0 ≤ e) (h : (m : ℚ) * 10 ^ e ≤ greatest) :
    e < 1024 := by
  have hone : (1 : ℚ) ≤ m := by exact_mod_cast hm
  refine lt_of_pow_le_greatest ?_
  calc (2 : ℚ) ^ e ≤ 10 ^ e := two_zpow_le he
    _ ≤ m * 10 ^ e := le_mul_of_one_le_left (by positivity) hone
    _ ≤ greatest := h

/-- A decimal number with a great negative power of ten is nearer to zero than to any other
double. -/
theorem le_half_of_exponent_lt (he : e < -(2048 + m.log2)) :
    (m : ℚ) * 10 ^ e ≤ 2 ^ (-1074 : ℤ) / 2 := by
  have hlog : (m : ℚ) ≤ 2 ^ (m.log2 + 1) := by exact_mod_cast (Nat.lt_log2_self (n := m)).le
  have hpower : (10 : ℚ) ^ e ≤ 2 ^ e := by
    rw [← neg_neg e, zpow_neg, zpow_neg (2 : ℚ)]
    exact inv_anti₀ (by positivity) (two_zpow_le (by omega))
  calc (m : ℚ) * 10 ^ e ≤ 2 ^ (m.log2 + 1) * 2 ^ e := by gcongr
    _ = 2 ^ (((m.log2 + 1 : ℕ) : ℤ) + e) := by rw [zpow_add₀ two_ne_zero, zpow_natCast]
    _ ≤ 2 ^ (-1074 - 1 : ℤ) := zpow_le_zpow_right₀ one_le_two (by omega)
    _ = 2 ^ (-1074 : ℤ) / 2 := zpow_sub_one₀ two_ne_zero _

/-- Digits with a power of ten are a product, whose first factor is shifted to have enough bits. -/
theorem mul_ten_zpow_natCast (m n : ℕ) :
    (m : ℚ) * (10 : ℚ) ^ (n : ℤ) =
      (m <<< 53 : ℕ) * 2 ^ (-(53 : ℕ) : ℤ) * ((10 ^ n : ℕ) * 2 ^ (0 : ℤ)) := by
  rw [Nat.shiftLeft_eq, zpow_neg, zpow_natCast, zpow_natCast, zpow_zero, mul_one, Nat.cast_mul,
    Nat.cast_pow, Nat.cast_ofNat, Nat.cast_pow, Nat.cast_ofNat,
    mul_inv_cancel_right₀ (by positivity)]

/-- Digits with a negative power of ten are a quotient. -/
theorem mul_ten_zpow_neg (m n : ℕ) :
    (m : ℚ) * 10 ^ (-n : ℤ) = m * 2 ^ (0 : ℤ) / ((10 ^ n : ℕ) * 2 ^ (0 : ℤ)) := by
  rw [zpow_neg, zpow_natCast, zpow_zero, mul_one, mul_one, div_eq_mul_inv]
  push_cast
  rfl

/-- All other digits and powers of ten are put together exactly before they are rounded, and the
outcome satisfies `IsNearest`. -/
theorem isNearest_model_ofScientific (hgreatest : (m : ℚ) * 10 ^ e ≤ greatest) :
    IsNearest (m * 10 ^ e) (.ofModel (.ofScientific m e)) := by
  have hbits : ((2 : ℤ) ^ Format.binary64.exponentBits) = 2048 := rfl
  rw [Float.Model.ofScientific, UnpackedFloat.ofScientific, hbits]
  split
  · rename_i hm
    rw [hm, Nat.cast_zero, zero_mul]
    exact isNearest_pack_zero le_rfl (by positivity)
  · rename_i hm
    have hpos : 0 < m := Nat.pos_of_ne_zero hm
    split
    · -- The number would be too great for a double.
      rename_i hgreat
      have hlt := exponent_lt_of_le_greatest hpos (by omega) hgreatest
      omega
    · split
      · exact isNearest_pack_zero (by positivity) (le_half_of_exponent_lt ‹_›)
      · split
        · rename_i he
          obtain ⟨n, rfl⟩ := Int.eq_ofNat_of_zero_le he
          rw [mul_ten_zpow_natCast] at hgreatest ⊢
          refine isNearest_pack_mul _ _ ?_ hgreatest
          rw [Nat.shiftLeft_eq]
          have hten : 0 < 10 ^ n := by positivity
          nlinarith
        · obtain ⟨n, rfl⟩ : ∃ n : ℕ, e = -n := ⟨(-e).toNat, by omega⟩
          rw [mul_ten_zpow_neg] at hgreatest ⊢
          simp only [neg_neg, Int.toNat_natCast]
          exact isNearest_pack_div _ _ hgreatest

end Powers

/-- A decimal number that is not too great is read by `Float.ofScientific` as the nearest double. -/
theorem isNearest_ofScientific (m : ℕ) (negative : Bool) (e : ℕ)
    (hgreatest : (m : ℚ) * 10 ^ (if negative then -e else e : ℤ) ≤ greatest) :
    IsNearest (m * 10 ^ (if negative then -e else e : ℤ)) (Float.ofScientific m negative e) := by
  by_cases hfast : m < 2 ^ 53 ∧ e ≤ 22
  · exact isNearest_ofScientific_fast hfast.1 hfast.2 negative hgreatest
  · have hslow : Float.ofScientific m negative e =
        .ofModel (.ofScientific m (if negative then -e else e)) := by
      rw [Float.ofScientific, dif_neg hfast, Int.negOfNat_eq]
      rfl
    rw [hslow]
    exact isNearest_model_ofScientific hgreatest

/-! ## Signs -/

theorem signFactor_neg (s : UnpackedFloat.Sign) :
    signFactor (-s == .negative) = -signFactor (s == .negative) := by
  cases s with
  | negative => exact (neg_neg 1).symm
  | positive => rfl

/-- The opposite of a double stands for the opposite number. -/
theorem value?_neg {f : Float} {v : ℚ} (h : (Binary.ofFloat f).value? = some v) :
    (Binary.ofFloat (-f)).value? = some (-v) := by
  rw [Binary.ofFloat_eq_ofUnpacked] at h ⊢
  rw [unpack_neg]
  cases hf : f.toModel.unpack with
  | notANumber | infinity => simp [hf, Binary.ofUnpacked, Binary.value?] at h
  | zero s =>
    simp only [hf, Binary.ofUnpacked, Binary.value?, Nat.cast_zero, zero_mul, mul_zero] at h
    obtain rfl := Option.some.inj h
    simp [UnpackedFloat.neg, Binary.ofUnpacked, Binary.value?]
  | finite s m e hm =>
    rw [hf] at h
    obtain rfl := Option.some.inj h
    rw [UnpackedFloat.neg, Binary.ofUnpacked, Binary.value?, signFactor_neg, neg_mul]

/-- The opposite of the nearest double is nearest to the opposite number: `IsNearest` is symmetric.
-/
theorem IsNearest.neg {x : ℚ} {f : Float} (h : IsNearest x f) : IsNearest (-x) (-f) := by
  obtain ⟨v, hv, hnearest⟩ := h
  refine ⟨-v, value?_neg hv, fun g w hw => ?_⟩
  have hle := hnearest (-g) (-w) (value?_neg hw)
  rwa [neg_sub_neg, abs_sub_comm x, sub_neg_eq_add, ← abs_neg (w + x), neg_add']

end Number

namespace Numeral

open Number

/-- The number that the numeral stands for. -/
def value (n : Numeral) : ℚ :=
  signFactor (n.sign = some .minus) * (n.coefficient * 10 ^ n.exponent)

/-- A numeral is read by `Numeral.toFloat` as the double nearest to its number, unless the number is
too great for a double. -/
theorem isNearest_toFloat {n : Numeral} (h : |n.value| ≤ greatest) :
    IsNearest n.value n.toFloat := by
  have hexponent : (if decide (n.exponent < 0) then -n.exponent.natAbs else n.exponent.natAbs : ℤ) =
      n.exponent := by
    by_cases hneg : n.exponent < 0
    · rw [decide_eq_true hneg, if_pos rfl]
      omega
    · rw [decide_eq_false hneg, if_neg Bool.false_ne_true]
      omega
  have hnonneg : (0 : ℚ) ≤ n.coefficient * 10 ^ n.exponent := by positivity
  have hmagnitude := isNearest_ofScientific n.coefficient (n.exponent < 0) n.exponent.natAbs
  rw [hexponent] at hmagnitude
  by_cases hsign : n.sign = some .minus
  · rw [value, decide_eq_true hsign, signFactor, if_pos rfl, neg_one_mul] at h ⊢
    rw [abs_neg, abs_of_nonneg hnonneg] at h
    rw [toFloat, if_pos hsign]
    exact (hmagnitude h).neg
  · rw [value, decide_eq_false hsign, signFactor, if_neg Bool.false_ne_true, one_mul] at h ⊢
    rw [abs_of_nonneg hnonneg] at h
    rw [toFloat, if_neg hsign]
    exact hmagnitude h

end Numeral

end ThemeColor
