import Mathlib
import Fluxion.Expr.Render
import Fluxion.Scalar

/-! Scalars with exact arithmetic. Powers, logarithms and all lifted doubles but zero and one stay
arbitrary. -/
namespace Fluxion

/-- Sums, differences and products obey the laws of a commutative ring, equality is decided, and
zero divided by anything is zero. -/
class LawfulScalar (α : Type) [Scalar α] : Prop where
  add_assoc : ∀ a b c : α, a + b + c = a + (b + c)
  add_comm : ∀ a b : α, a + b = b + a
  add_zero : ∀ a : α, a + Scalar.zero = a
  sub_add_cancel : ∀ a b : α, a - b + b = a
  mul_assoc : ∀ a b c : α, a * b * c = a * (b * c)
  mul_comm : ∀ a b : α, a * b = b * a
  mul_one : ∀ a : α, a * Scalar.one = a
  mul_add : ∀ a b c : α, a * (b + c) = a * b + a * c
  beq_iff_eq : ∀ a b : α, (a == b) = true ↔ a = b
  zero_div : ∀ a : α, Scalar.zero / a = Scalar.zero

namespace LawfulScalar
variable {α : Type} [Scalar α] [LawfulScalar α]

theorem zero_add (a : α) : Scalar.zero + a = a := by
  rw [add_comm, add_zero]

theorem add_left_cancel {a b c : α} (h : a + b = a + c) : b = c := by
  have hcancel (d : α) : Scalar.zero - a + (a + d) = d := by
    rw [← add_assoc, sub_add_cancel, zero_add]
  rw [← hcancel b, h, hcancel]

theorem mul_zero (a : α) : a * Scalar.zero = Scalar.zero := by
  have h : a * Scalar.zero + a * Scalar.zero = a * Scalar.zero + Scalar.zero := by
    rw [← mul_add, add_zero, add_zero]
  exact add_left_cancel h

theorem zero_mul (a : α) : Scalar.zero * a = Scalar.zero := by
  rw [mul_comm, mul_zero]

theorem one_mul (a : α) : Scalar.one * a = a := by
  rw [mul_comm, mul_one]

theorem add_mul (a b c : α) : (a + b) * c = a * c + b * c := by
  rw [mul_comm, mul_add, mul_comm c, mul_comm c]

theorem sub_eq (a b : α) : a - b = a + (Scalar.zero - b) := by
  have h : b + (a - b) = b + (a + (Scalar.zero - b)) := by
    rw [add_comm b, sub_add_cancel, ← add_assoc, add_comm b a, add_assoc, add_comm b,
      sub_add_cancel, add_zero]
  exact add_left_cancel h

theorem sub_self (a : α) : a - a = Scalar.zero := by
  rw [sub_eq, add_comm, sub_add_cancel]

instance : LawfulBEq α where
  eq_of_beq := fun {a b} => (beq_iff_eq a b).mp
  rfl := fun {a} => (beq_iff_eq a a).mpr rfl

end LawfulScalar

abbrev commRingOfLawful (α : Type) [Scalar α] [LawfulScalar α] : CommRing α :=
  letI : Zero α := ⟨Scalar.zero⟩
  letI : One α := ⟨Scalar.one⟩
  letI : Neg α := ⟨fun a => Scalar.zero - a⟩
  { add_assoc := LawfulScalar.add_assoc
    add_comm := LawfulScalar.add_comm
    zero_add := LawfulScalar.zero_add
    add_zero := LawfulScalar.add_zero
    sub_eq_add_neg := LawfulScalar.sub_eq
    neg_add_cancel := LawfulScalar.sub_add_cancel Scalar.zero
    nsmul := nsmulRec
    zsmul := zsmulRec
    mul_assoc := LawfulScalar.mul_assoc
    mul_comm := LawfulScalar.mul_comm
    one_mul := LawfulScalar.one_mul
    mul_one := LawfulScalar.mul_one
    left_distrib := LawfulScalar.mul_add
    right_distrib := LawfulScalar.add_mul
    zero_mul := LawfulScalar.zero_mul
    mul_zero := LawfulScalar.mul_zero }

/-- Lawful scalars in which every quotient is the product with a reciprocal. In a field that is so
for each divisor but zero; for zero it is a law of its own, whatever the reciprocal of zero is. -/
class DividingScalar (α : Type) [Scalar α] : Prop extends LawfulScalar α where
  div_eq_mul : ∀ a b : α, a / b = a * (Scalar.one / b)

/-- Integers as scalars. Doubles that are no small integers count as zero. -/
abbrev integerScalar : Scalar Int where
  ofDouble x := (smallInteger? x).getD 0
  pow a b := a ^ b.toNat
  ln _ := 0

theorem integerScalar_zero : @Scalar.zero Int integerScalar = 0 := by decide +kernel

theorem integerScalar_one : @Scalar.one Int integerScalar = 1 := by decide +kernel

instance : @LawfulScalar Int integerScalar :=
  letI := integerScalar
  { add_assoc := Int.add_assoc
    add_comm := Int.add_comm
    add_zero := by
      intro a
      rw [integerScalar_zero]
      exact Int.add_zero a
    sub_add_cancel := Int.sub_add_cancel
    mul_assoc := Int.mul_assoc
    mul_comm := Int.mul_comm
    mul_one := by
      intro a
      rw [integerScalar_one]
      exact Int.mul_one a
    mul_add := Int.mul_add
    beq_iff_eq := fun _ _ => beq_iff_eq
    zero_div := by
      intro a
      rw [integerScalar_zero]
      exact Int.zero_ediv a }

end Fluxion
