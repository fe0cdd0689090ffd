import CodeQuality.Number.DoubleBits
import CodeQuality.Proofs.Double.Denotation

/-!
Doubles and their bits.

A number and its bits determine each other. What is no number is one `Float`, but has many forms in
bits, by the sign and by the digits.
-/

namespace CodeQuality.DoubleBits

open Float.Model.UnpackedFloat
open Double (toNat_unpackExponent toNat_unpackMantissa)

@[simp] theorem toFloat_ofFloat (x : Float) : (ofFloat x).toFloat = x := Float.ofBits_toBits x

/-- Bits with the greatest exponent and some digits stand for no number. -/
def isNaN (d : DoubleBits) : Bool :=
  d.word.toNat / 2 ^ 52 % 2 ^ 11 = 2047 && d.word.toNat % 2 ^ 52 ≠ 0

theorem isNaN_eq_true_iff {d : DoubleBits} :
    d.isNaN = true ↔ d.word.toNat / 2 ^ 52 % 2 ^ 11 = 2047 ∧ d.word.toNat % 2 ^ 52 ≠ 0 := by
  simp [isNaN]

theorem isNaN_eq (d : DoubleBits) : d.isNaN = @isNaNBits .binary64 d.word.toBitVec := by
  have hmax : @unpackExponent .binary64 d.word.toBitVec = -1#_ ↔
      d.word.toNat / 2 ^ 52 % 2 ^ 11 = 2047 := by
    rw [← BitVec.toNat_inj, toNat_unpackExponent]
    rfl
  have hnone : @unpackMantissa .binary64 d.word.toBitVec = 0#_ ↔ d.word.toNat % 2 ^ 52 = 0 := by
    rw [← BitVec.toNat_inj, toNat_unpackMantissa]
    rfl
  rw [Bool.eq_iff_iff, isNaN_eq_true_iff, ← hmax, ne_eq, ← hnone]
  simp [isNaNBits]

/-- Reading bits as a double keeps those of a number. -/
theorem toBitVec_toBits_toFloat (d : DoubleBits) :
    d.toFloat.toBits.toBitVec = if d.isNaN then packedNaN .binary64 else d.word.toBitVec := by
  rw [isNaN_eq]
  exact @pack_unpack .binary64 d.word.toBitVec (by decide)

theorem ofFloat_toFloat {d : DoubleBits} (h : d.isNaN = false) : ofFloat d.toFloat = d := by
  have hbits := toBitVec_toBits_toFloat d
  rw [h, if_neg Bool.false_ne_true, UInt64.toBitVec_inj] at hbits
  exact congrArg DoubleBits.mk hbits

theorem isNaN_toFloat (d : DoubleBits) : d.toFloat.isNaN = d.isNaN := by
  rw [Float.isNaN_eq_decide_eq_nan, Bool.eq_iff_iff, decide_eq_true_eq, ← Float.toBits_inj,
    ← UInt64.toBitVec_inj, toBitVec_toBits_toFloat]
  show _ = packedNaN .binary64 ↔ _
  cases h : d.isNaN with
  | true => simp
  | false =>
    rw [isNaN_eq] at h
    refine iff_of_false (fun heq => ?_) Bool.false_ne_true
    rw [if_neg Bool.false_ne_true] at heq
    rw [heq, isNaNBits_packedNaN] at h
    exact Bool.noConfusion h

theorem ofFloat_inj {x y : Float} : ofFloat x = ofFloat y ↔ x = y := by
  refine ⟨fun h => ?_, congrArg ofFloat⟩
  rw [← toFloat_ofFloat x, h, toFloat_ofFloat]

end CodeQuality.DoubleBits
