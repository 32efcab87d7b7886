import Mathlib

/-!
# The sign of a double

Negation changes the sign of a double and nothing else (`Number.unpack_neg`). So the opposite of a
negative double is neither negative nor zero, which is what turning a sum into a difference relies
on.

The lemmas on packing and unpacking the bits of a double come with the library as a whole only, so
this module imports all of it, and the other modules on the bits of doubles import this one.
-/

namespace ThemeColor.Number

open Float.Model Float.Model.UnpackedFloat

variable (b : BitVec Format.binary64.numBits)

/-- The bits with the opposite sign are unpacked as the opposite. -/
theorem unpack_packComponents_neg :
    UnpackedFloat.unpack .binary64
        (packComponents .binary64 (-Sign.ofBitVec (unpackSign b)) (unpackExponent b)
          (unpackMantissa b)) =
      (UnpackedFloat.unpack .binary64 b).neg := by
  unfold UnpackedFloat.unpack
  simp only [unpackSign_packComponents, unpackMantissa_packComponents,
    unpackExponent_packComponents, Sign.ofBitVec_toBitVec]
  split
  · split <;> rfl
  · split
    · split <;> rfl
    · rfl

/-- Packing may change the bits of what is no number, but not what they stand for. -/
theorem unpack_pack_unpack :
    UnpackedFloat.unpack .binary64
        (UnpackedFloat.pack .binary64 (UnpackedFloat.unpack .binary64 b)) =
      UnpackedFloat.unpack .binary64 b := by
  rw [pack_unpack]
  split
  · -- All bits of what is no number are packed as the same ones.
    rename_i hnan
    obtain ⟨hones, hnone⟩ := of_decide_eq_true hnan
    rw [unpack_packedNaN, UnpackedFloat.unpack, if_pos hones, if_neg hnone]
  · rfl

theorem unpack_pack_neg_unpack :
    UnpackedFloat.unpack .binary64
        (UnpackedFloat.pack .binary64 (UnpackedFloat.unpack .binary64 b).neg) =
      (UnpackedFloat.unpack .binary64 b).neg := by
  rw [← unpack_packComponents_neg]
  exact unpack_pack_unpack _

/-- Negation changes the sign and nothing else. -/
theorem unpack_neg (x : Float) : (-x).toModel.unpack = x.toModel.unpack.neg :=
  unpack_pack_neg_unpack x.toModel.toBits.toBitVec

/-! ## Negative doubles -/

theorem lt_zero_iff (x : Float) :
    x < 0.0 ↔ x.toModel.unpack = .infinity .negative ∨
      ∃ m e h, x.toModel.unpack = .finite .negative m e h := by
  show decide (x.toModel < (0.0 : Float).toModel) = true ↔ _
  rw [decide_eq_true_iff]
  show x.toModel.unpack.lt (.zero .positive) = true ↔ _
  rcases x.toModel.unpack with s | _ | s | ⟨s, m, e, h⟩
  · cases s <;> simp [UnpackedFloat.lt, UnpackedFloat.compare]
  · simp [UnpackedFloat.lt, UnpackedFloat.compare]
  · simp [UnpackedFloat.lt, UnpackedFloat.compare]
  · cases s <;> simp [UnpackedFloat.lt, UnpackedFloat.compare, h]

theorem beq_zero_iff (x : Float) : x == 0.0 ↔ ∃ s, x.toModel.unpack = .zero s := by
  show x.toModel.unpack.beq (.zero .positive) = true ↔ _
  rcases x.toModel.unpack with s | _ | s | ⟨s, m, e, h⟩
  · cases s <;> simp [UnpackedFloat.beq, UnpackedFloat.compare]
  · simp [UnpackedFloat.beq, UnpackedFloat.compare]
  · simp [UnpackedFloat.beq, UnpackedFloat.compare]
  · cases s <;> simp [UnpackedFloat.beq, UnpackedFloat.compare]

theorem neg_not_lt_zero {x : Float} (h : x < 0.0) : ¬ -x < 0.0 := by
  rw [lt_zero_iff, unpack_neg]
  rcases (lt_zero_iff x).mp h with h | ⟨m, e, hm, h⟩
  · rw [h]
    simp [UnpackedFloat.neg]
  · rw [h]
    simp [UnpackedFloat.neg]

theorem neg_ne_zero {x : Float} (h : x < 0.0) : ¬ -x == 0.0 := by
  rw [beq_zero_iff, unpack_neg]
  rcases (lt_zero_iff x).mp h with h | ⟨m, e, hm, h⟩
  · rw [h]
    simp [UnpackedFloat.neg]
  · rw [h]
    simp [UnpackedFloat.neg]

end ThemeColor.Number
