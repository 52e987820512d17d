import Mathlib
import Fluxion.Dual
import Fluxion.Proofs.Scalar.Lawful

/-! Lawful scalars made from others. Dual numbers over lawful scalars are lawful, and so are scalars
with ring laws once their equality test is exchanged for equality. -/
namespace Fluxion

namespace Dual

theorem eq_of_parts {α : Type} {a b : Dual α} (hval : a.val = b.val) (heps : a.eps = b.eps) :
    a = b := by
  cases a
  cases b
  exact congrArg₂ Dual.mk hval heps

variable {α : Type} [Scalar α] [LawfulScalar α]

instance : LawfulScalar (Dual α) :=
  letI := commRingOfLawful α
  { add_assoc := fun a b c =>
      eq_of_parts (add_assoc a.val b.val c.val) (add_assoc a.eps b.eps c.eps)
    add_comm := fun a b => eq_of_parts (add_comm a.val b.val) (add_comm a.eps b.eps)
    add_zero := fun a => eq_of_parts (add_zero a.val) (add_zero a.eps)
    sub_add_cancel := fun a b =>
      eq_of_parts (sub_add_cancel a.val b.val) (sub_add_cancel a.eps b.eps)
    mul_assoc := by
      intro a b c
      refine eq_of_parts (mul_assoc a.val b.val c.val) ?_
      change a.val * b.val * c.eps + (a.val * b.eps + a.eps * b.val) * c.val =
        a.val * (b.val * c.eps + b.eps * c.val) + a.eps * (b.val * c.val)
      ring
    mul_comm := by
      intro a b
      refine eq_of_parts (mul_comm a.val b.val) ?_
      change a.val * b.eps + a.eps * b.val = b.val * a.eps + b.eps * a.val
      ring
    mul_one := by
      intro a
      refine eq_of_parts (mul_one a.val) ?_
      change a.val * 0 + a.eps * 1 = a.eps
      ring
    mul_add := by
      intro a b c
      refine eq_of_parts (mul_add a.val b.val c.val) ?_
      change a.val * (b.eps + c.eps) + a.eps * (b.val + c.val) =
        a.val * b.eps + a.eps * b.val + (a.val * c.eps + a.eps * c.val)
      ring
    beq_iff_eq := by
      intro a b
      change (a.val == b.val && a.eps == b.eps) = true ↔ a = b
      rw [Bool.and_eq_true, LawfulScalar.beq_iff_eq, LawfulScalar.beq_iff_eq]
      exact ⟨fun h => eq_of_parts h.1 h.2, by rintro rfl; exact ⟨rfl, rfl⟩⟩
    zero_div := by
      intro a
      refine eq_of_parts (LawfulScalar.zero_div a.val) ?_
      change (0 * a.val - 0 * a.eps) / (a.val * a.val) = Scalar.zero
      have hnumerator : 0 * a.val - 0 * a.eps = 0 := by ring
      rw [hnumerator]
      exact LawfulScalar.zero_div _ }

end Dual

/-- Sums, differences and products obey the laws of a commutative ring, and zero divided by
anything is zero. The equality test stays arbitrary. -/
class RingScalar (α : Type) [Scalar α] : Prop where
  add_assoc : ∀ a b c : α, a + b + c = a + (b + c)
  add_comm : ∀ a b : α, a + b = b + a
  add_zero : ∀ a : α, a + Scalar.zero = a
  sub_add_cancel : ∀ a b : α, a - b + b = a
  mul_assoc : ∀ a b c : α, a * b * c = a * (b * c)
  mul_comm : ∀ a b : α, a * b = b * a
  mul_one : ∀ a : α, a * Scalar.one = a
  mul_add : ∀ a b c : α, a * (b + c) = a * b + a * c
  zero_div : ∀ a : α, Scalar.zero / a = Scalar.zero

instance {α : Type} [Scalar α] [LawfulScalar α] : RingScalar α where
  add_assoc := LawfulScalar.add_assoc
  add_comm := LawfulScalar.add_comm
  add_zero := LawfulScalar.add_zero
  sub_add_cancel := LawfulScalar.sub_add_cancel
  mul_assoc := LawfulScalar.mul_assoc
  mul_comm := LawfulScalar.mul_comm
  mul_one := LawfulScalar.mul_one
  mul_add := LawfulScalar.mul_add
  zero_div := LawfulScalar.zero_div

noncomputable abbrev decidedScalar (α : Type) [scalar : Scalar α] : Scalar α :=
  letI := Classical.decEq α
  { scalar with beq := fun a b => decide (a = b) }

theorem lawful_decidedScalar (α : Type) [Scalar α] [laws : RingScalar α] :
    @LawfulScalar α (decidedScalar α) :=
  letI := decidedScalar α
  { add_assoc := laws.add_assoc
    add_comm := laws.add_comm
    add_zero := laws.add_zero
    sub_add_cancel := laws.sub_add_cancel
    mul_assoc := laws.mul_assoc
    mul_comm := laws.mul_comm
    mul_one := laws.mul_one
    mul_add := laws.mul_add
    beq_iff_eq := fun a b => @decide_eq_true_iff (a = b) (Classical.decEq α a b)
    zero_div := laws.zero_div }

end Fluxion
