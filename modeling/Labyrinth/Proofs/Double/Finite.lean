import Mathlib.Algebra.Group.Int.Defs
import Mathlib.Algebra.Group.Nat.Defs
import Labyrinth.Double.Numeral

/-!
# Doubles that are not infinite

The double nearest to a natural number of 64 bits is not infinite (`Double.isInf_ofScientific`). The bounds
on exponents are rough, since the greatest double is far away: that a rounded mantissa has at most one bit
more than the one before is all that is known of rounding here.
-/

namespace Labyrinth

namespace Double

open Float.Model (UnpackedFloat Format totalExponent)
open Float.Model.UnpackedFloat

/-- Zero, or a finite number with bounds on the bits of its mantissa and on its exponent. -/
inductive Mild (bits : Nat) (bound : Int) : UnpackedFloat → Prop
  | zero {sign} : Mild bits bound (.zero sign)
  | finite {sign mantissa exponent pos} : mantissa < 2 ^ bits → exponent ≤ bound →
      Mild bits bound (.finite sign mantissa exponent pos)

variable {b c : Int} {k l m : Nat} {e : Int} {f g : UnpackedFloat}

/-! ### Packed numbers -/

theorem mild_unpack {v : BitVec Format.binary64.numBits} (h : unpackExponent v ≠ -1#_)
    (hexponent : ((unpackExponent v).toNat : Int) ≤ b + 1075) (hb : -1074 ≤ b) :
    Mild 53 b (unpack Format.binary64 v) := by
  have hbias : (Format.binary64.exponentBias : Int) = 1023 := rfl
  have hbits : (Format.binary64.mantissaBitsWithoutImplicit : Int) = 52 := rfl
  unfold unpack
  rw [if_neg h]
  by_cases hzero : unpackExponent v = 0#_
  · rw [if_pos hzero]
    by_cases hmantissa : unpackMantissa v = 0#_
    · rw [dif_pos hmantissa]
      exact .zero
    · rw [dif_neg hmantissa]
      refine .finite (Nat.lt_trans (BitVec.isLt _) (by decide)) ?_
      rw [hzero]
      exact hb
  · rw [if_neg hzero]
    refine .finite (BitVec.isLt _) ?_
    omega

theorem mild_unpack_of_ne {v : BitVec Format.binary64.numBits} (h : unpackExponent v ≠ -1#_) :
    Mild 53 971 (unpack Format.binary64 v) := by
  have hlt : (unpackExponent v).toNat < 2048 := BitVec.isLt _
  have hne : (unpackExponent v).toNat ≠ 2047 := fun heq => h (BitVec.eq_of_toNat_eq heq)
  exact mild_unpack h (by omega) (by decide)

theorem Mild.isInf (h : Mild k b f) : f.isInf = false := by
  cases h <;> rfl

theorem Mild.isNaN (h : Mild k b f) : f.isNaN = false := by
  cases h <;> rfl

/-- What stands for NaN has the exponent of infinity and a mantissa that is not zero. -/
theorem fields_of_isNaN {v : BitVec Format.binary64.numBits} (h : (unpack Format.binary64 v).isNaN) :
    unpackExponent v = -1#_ ∧ unpackMantissa v ≠ 0#_ := by
  have hones : unpackExponent v = -1#_ := by
    refine Decidable.byContradiction fun hne => ?_
    rw [(mild_unpack_of_ne hne).isNaN] at h
    cases h
  refine ⟨hones, fun hzero => ?_⟩
  unfold unpack at h
  rw [if_pos hones, if_pos hzero] at h
  cases h

theorem Mild.unpackExponent_le (hb : -1074 ≤ b) (hle : b ≤ 971) (h : Mild k b f) :
    ((unpackExponent (pack Format.binary64 f)).toNat : Int) ≤ b + 1075 := by
  cases h with
  | zero =>
    unfold pack packedZero
    rw [unpackExponent_packComponents]
    show (0 : Int) ≤ b + 1075
    omega
  | @finite sign mantissa exponent pos _ he =>
    have hbias : (Format.binary64.exponentBias : Int) = 1023 := rfl
    have hbits : (Format.binary64.mantissaBitsWithoutImplicit : Int) = 52 := rfl
    unfold pack
    simp only [hbias, hbits]
    split
    · omega
    · split
      · rw [unpackExponent_packComponents]
        show (((exponent + 1023 + 52).toNat % 2048 : Nat) : Int) ≤ b + 1075
        omega
      · rw [unpackExponent_packComponents]
        show (0 : Int) ≤ b + 1075
        omega

theorem Mild.unpackExponent_ne (hb : -1074 ≤ b) (hle : b ≤ 971) (h : Mild k b f) :
    unpackExponent (pack Format.binary64 f) ≠ -1#_ := by
  intro heq
  have hexponent := h.unpackExponent_le hb hle
  rw [heq] at hexponent
  have hones : ((2047 : Nat) : Int) ≤ b + 1075 := hexponent
  omega

/-- What is unpacked has no greater exponent than what was packed, and a mantissa of 53 bits. -/
theorem Mild.unpack_pack (hb : -1074 ≤ b) (hle : b ≤ 971) (h : Mild k b f) :
    Mild 53 b (Float.Model.pack f).unpack :=
  mild_unpack (h.unpackExponent_ne hb hle) (h.unpackExponent_le hb hle) hb

theorem Mild.isInf_pack (hb : -1074 ≤ b) (hle : b ≤ 971) (h : Mild k b f) :
    (Float.Model.pack f).isInf = false :=
  (h.unpack_pack hb hle).isInf

/-! ### Rounding -/

theorem mantissa_ofMantissaAndAccuracy (accuracy : Accuracy) :
    (ExtendedMantissa.ofMantissaAndAccuracy m accuracy).mantissa = m := by
  cases accuracy with
  | exact => rfl
  | inexact ordering => cases ordering <;> rfl

theorem mantissa_shiftRight_le (em : ExtendedMantissa) (n : Nat) : (em >>> n).mantissa ≤ em.mantissa := by
  induction n with
  | zero => exact Nat.le_refl _
  | succ n ih => exact Nat.le_trans (Nat.div_le_self _ 2) ih

theorem mantissa_shiftToTargetExponent_le (accuracy : Accuracy) :
    (shiftToTargetExponent Format.binary64 m e accuracy).1.mantissa ≤ m := by
  have hle := mantissa_shiftRight_le (.ofMantissaAndAccuracy m accuracy)
    (Format.binary64.targetExponent (totalExponent m e) - e).toNat
  rw [mantissa_ofMantissaAndAccuracy] at hle
  exact hle

theorem roundedMantissa_le (em : ExtendedMantissa) : em.roundedMantissa ≤ em.mantissa + 1 := by
  rw [ExtendedMantissa.roundedMantissa]
  cases em.accuracy with
  | exact => exact Nat.le_succ _
  | inexact ordering =>
    cases ordering with
    | lt => exact Nat.le_succ _
    | eq =>
      have hlt := Nat.mod_lt em.mantissa Nat.two_pos
      rw [Accuracy.roundToNearestEven]
      omega
    | gt => exact Nat.le_refl _

theorem targetExponent_eq :
    Format.binary64.targetExponent (totalExponent m e) = max (m.log2 + 1 + e - 53) (-1074) := rfl

theorem log2_le_of_lt (hm : m < 2 ^ k) : m.log2 ≤ k := by
  by_cases hzero : m = 0
  · rw [hzero]
    exact Nat.zero_le k
  · exact Nat.le_of_lt ((Nat.log2_lt hzero).mpr hm)

/-- A mantissa of `k` bits moves the exponent by no more than `k`. -/
theorem shiftToTargetExponent_le (accuracy : Accuracy) (hm : m < 2 ^ k) (he : e ≤ b)
    (hb : -1074 ≤ b) : (shiftToTargetExponent Format.binary64 m e accuracy).2 ≤ b + k := by
  have hlog := log2_le_of_lt hm
  show e + ((Format.binary64.targetExponent (totalExponent m e) - e).toNat : Int) ≤ b + k
  rw [targetExponent_eq]
  omega

theorem mild_ofMantissa (sign : Sign) (hm : m < 2 ^ k) (he : e ≤ b) :
    Mild k b (if h : m = 0 then .zero sign else .finite sign m e (Nat.pos_of_ne_zero h)) := by
  by_cases hzero : m = 0
  · rw [dif_pos hzero]
    exact .zero
  · rw [dif_neg hzero]
    exact .finite hm he

theorem mild_roundWithAccuracy (sign : Sign) (accuracy : Accuracy) (hm : m < 2 ^ k) (he : e ≤ b)
    (hb : -1074 ≤ b) :
    Mild (k + 1) (b + 2 * k + 1) (roundWithAccuracy Format.binary64 sign m e accuracy) := by
  have hfirst := shiftToTargetExponent_le accuracy hm he hb
  have hshifted := mantissa_shiftToTargetExponent_le (m := m) (e := e) accuracy
  have hrounded : (shiftToTargetExponent Format.binary64 m e accuracy).1.roundedMantissa < 2 ^ (k + 1) := by
    have hle := roundedMantissa_le (shiftToTargetExponent Format.binary64 m e accuracy).1
    have hpow : 2 ^ (k + 1) = 2 ^ k * 2 := Nat.pow_succ 2 k
    omega
  have hsecond := shiftToTargetExponent_le .exact hrounded hfirst (by omega)
  refine mild_ofMantissa sign (Nat.lt_of_le_of_lt (mantissa_shiftToTargetExponent_le .exact) hrounded) ?_
  exact Int.le_trans hsecond (by omega)

theorem mild_round (sign : Sign) (hm : m < 2 ^ 64) :
    Mild 119 237 (UnpackedFloat.round Format.binary64 sign m 0) := by
  have hshift : (0 - Format.binary64.targetExponent (totalExponent m 0)).toNat ≤ 54 := by
    rw [targetExponent_eq]
    omega
  have hshifted : m <<< (0 - Format.binary64.targetExponent (totalExponent m 0)).toNat < 2 ^ 118 := by
    rw [Nat.shiftLeft_eq]
    calc m * 2 ^ (0 - Format.binary64.targetExponent (totalExponent m 0)).toNat
        ≤ m * 2 ^ 54 := Nat.mul_le_mul_left m (Nat.pow_le_pow_right (by decide) hshift)
      _ < 2 ^ 64 * 2 ^ 54 := Nat.mul_lt_mul_of_pos_right hm (by decide)
      _ = 2 ^ 118 := by decide
  exact mild_roundWithAccuracy sign .exact hshifted (b := 0) (by omega) (by decide)

theorem Mild.mul (hf : Mild k b f) (hg : Mild l c g) (hb : -1074 ≤ b + c) :
    Mild (k + l + 1) (b + c + 2 * (k + l : Nat) + 1) (UnpackedFloat.mul Format.binary64 f g) := by
  cases hf with
  | zero => cases hg <;> exact .zero
  | finite hm he =>
    cases hg with
    | zero => exact .zero
    | finite hm' he' =>
      refine mild_roundWithAccuracy _ .exact ?_ (Int.add_le_add he he') hb
      rw [Nat.pow_add]
      exact Nat.mul_lt_mul'' hm hm'

/-! ### Doubles -/

theorem mild_unpack_ofNat (hm : m < 2 ^ 64) : Mild 53 237 (Float.Model.ofNat m).unpack := by
  refine Mild.unpack_pack (k := 119) (by decide) (by decide) ?_
  show Mild 119 237 (UnpackedFloat.normalize Format.binary64 m 0 .positive)
  rw [UnpackedFloat.normalize]
  split
  · next h => exact absurd (Int.compare_eq_lt.mp h) (by omega)
  · exact .zero
  · rw [Int.toNat_natCast]
    exact mild_round .positive hm

/-- One, the power of ten that a natural number is multiplied with. -/
theorem mild_one : Mild 53 0 (Float.ofBits 0x3FF0000000000000).toModel.unpack := by
  have hunpack : (Float.ofBits 0x3FF0000000000000).toModel.unpack =
      .finite .positive (2 ^ 52) (-52) (by decide) := rfl
  rw [hunpack]
  exact .finite (by decide) (by decide)

theorem isInf_scientific (hm : m < 2 ^ 64) : (Float.ofScientific m false 0).isInf = false := by
  rw [Float.ofScientific]
  split
  · have hword : m.toUInt64.toNat = m := UInt64.toNat_ofNat_of_lt' hm
    have hproduct : Mild 107 450 (UnpackedFloat.mul Format.binary64
        (Float.Model.ofNat m.toUInt64.toNat).unpack (Float.ofBits 0x3FF0000000000000).toModel.unpack) := by
      rw [hword]
      exact (mild_unpack_ofNat hm).mul mild_one (by decide)
    exact hproduct.isInf_pack (by decide) (by decide)
  · show (Float.Model.pack (UnpackedFloat.ofScientific Format.binary64 m 0)).isInf = false
    refine Mild.isInf_pack (k := 119) (b := 184) (by decide) (by decide) ?_
    rw [UnpackedFloat.ofScientific]
    by_cases hzero : m = 0
    · rw [dif_pos hzero]
      exact .zero
    · have hlow : ¬ (0 : Int) < -((2 ^ Format.binary64.exponentBits : Int) + m.log2) := by
        show ¬ (0 : Int) < -(2048 + m.log2)
        omega
      have hshifted : m <<< 53 < 2 ^ 117 := by
        rw [Nat.shiftLeft_eq]
        omega
      have hten : 10 ^ (0 : Int).toNat < 2 ^ 1 := by decide
      rw [dif_neg hzero, if_neg (by decide), if_neg hlow, if_pos (by decide)]
      exact Mild.mul (k := 117) (l := 1) (b := -53) (c := 0) (.finite hshifted (Int.le_refl _))
        (.finite hten (Int.le_refl _)) (by decide)

/-- The double nearest to a natural number of 64 bits is not infinite. -/
theorem isInf_ofScientific (hm : m < 2 ^ 64) : (Double.ofScientific m 0).isInf = false := by
  have hlength : (Nat.toDigits 10 m).length ≤ 20 :=
    (Nat.length_toDigits_le_iff (by decide) (by decide)).mpr (Nat.lt_trans hm (by decide))
  rw [Double.ofScientific]
  split
  · rfl
  · rw [if_neg (by omega)]
    exact isInf_scientific hm

/-- What is packed in bits that do not stand for infinity. -/
theorem mild_of_isInf {v : BitVec Format.binary64.numBits} (h : (unpack Format.binary64 v).isInf = false) :
    unpack Format.binary64 v = .notANumber ∨ Mild 53 971 (unpack Format.binary64 v) := by
  by_cases hones : unpackExponent v = -1#_
  · refine .inl ?_
    unfold unpack at h ⊢
    rw [if_pos hones] at h ⊢
    split at h
    · cases h
    · next hmantissa => rw [if_neg hmantissa]
  · exact .inr (mild_unpack_of_ne hones)

theorem Mild.neg (h : Mild k b f) : Mild k b f.neg := by
  cases h with
  | zero => exact .zero
  | finite hm he => exact .finite hm he

theorem isInf_neg {x : Float} (h : x.isInf = false) : (-x).isInf = false := by
  have hunpack : x.toModel.unpack = .notANumber ∨ Mild 53 971 x.toModel.unpack := mild_of_isInf h
  show (Float.Model.pack x.toModel.unpack.neg).isInf = false
  rcases hunpack with hnan | hmild
  · rw [hnan]
    rfl
  · exact hmild.neg.isInf_pack (by decide) (by decide)

end Double

end Labyrinth
