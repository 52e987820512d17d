import Mathlib
import Fluxion.Proofs.Number.Bits
import Fluxion.Proofs.Scalar.Lawful

/-! The real numbers as scalars: exact arithmetic, real powers and the natural logarithm, with the
usual total conventions outside their domains. -/
namespace Fluxion

/-- The number that a finite double denotes. Infinite doubles and those that are no number count as
zero, as a quotient by zero does. -/
noncomputable def doubleReal (x : Float) : ℝ :=
  if doubleCode x < BinaryFormat.double.infinityCode then
    (if hasSign x then -1 else 1) *
      ((BinaryFormat.double.units (doubleCode x) : ℝ) / 2 ^ BinaryFormat.double.unitPower)
  else 0

noncomputable instance : Scalar ℝ where
  ofDouble := doubleReal
  pow a b := a ^ b
  ln := Real.log

@[simp] theorem real_zero : (Scalar.zero : ℝ) = 0 := by
  have hcode : doubleCode 0.0 = 0 := by decide
  change doubleReal 0.0 = 0
  simp [doubleReal, hcode, BinaryFormat.units]

@[simp] theorem real_one : (Scalar.one : ℝ) = 1 := by
  have hcode : doubleCode 1.0 = 1023 * 2 ^ 52 := by decide +kernel
  have hunits : BinaryFormat.double.units (1023 * 2 ^ 52) = 2 ^ BinaryFormat.double.unitPower := by
    decide +kernel
  have hfinite : 1023 * 2 ^ 52 < BinaryFormat.double.infinityCode := by decide
  have hsign : ¬ hasSign 1.0 := by decide +kernel
  change doubleReal 1.0 = 1
  rw [doubleReal, hcode, hunits, if_pos hfinite, if_neg hsign]
  generalize BinaryFormat.double.unitPower = power
  rw [Nat.cast_pow, Nat.cast_ofNat, one_mul]
  exact div_self (by positivity)

noncomputable instance : LawfulScalar ℝ where
  add_assoc := add_assoc
  add_comm := add_comm
  add_zero := by simp
  sub_add_cancel := sub_add_cancel
  mul_assoc := mul_assoc
  mul_comm := mul_comm
  mul_one := by simp
  mul_add := mul_add
  beq_iff_eq := fun _ _ => beq_iff_eq
  zero_div := by simp

instance : DividingScalar ℝ where
  div_eq_mul := by
    intro a b
    rw [real_one]
    exact div_eq_mul_one_div a b

end Fluxion
