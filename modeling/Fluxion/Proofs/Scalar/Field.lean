import Mathlib
import Fluxion.Proofs.Scalar.Lifting
import Fluxion.Proofs.Scalar.Real

/-! Scalars with the exact arithmetic of a field. Nothing is said about quotients by zero, and
powers and logarithms stay arbitrary. In the field with four elements quotients by zero are chosen
to respect sums, but not products. -/
namespace Fluxion

/-- The laws of a commutative ring, with a negation beside the operations of the scalars. -/
class RingLaws (α : Type) [Scalar α] (neg : α → α) : Prop where
  add_assoc : ∀ a b c : α, a + b + c = a + (b + c)
  add_comm : ∀ a b : α, a + b = b + a
  add_zero : ∀ a : α, a + Scalar.zero = a
  add_neg : ∀ a : α, a + neg a = Scalar.zero
  sub_eq_add_neg : ∀ a b : α, a - b = a + neg b
  mul_assoc : ∀ a b c : α, a * b * c = a * (b * c)
  mul_comm : ∀ a b : α, a * b = b * a
  mul_one : ∀ a : α, a * Scalar.one = a
  mul_add : ∀ a b c : α, a * (b + c) = a * b + a * c

theorem RingLaws.sub_add_cancel {α : Type} {_ : Scalar α} {neg : α → α} (laws : RingLaws α neg)
    (a b : α) : a - b + b = a := by
  rw [laws.sub_eq_add_neg, laws.add_assoc, laws.add_comm (neg b), laws.add_neg, laws.add_zero]

theorem RingLaws.of_lawful {α : Type} [Scalar α] [laws : LawfulScalar α] :
    RingLaws α fun a => Scalar.zero - a where
  add_assoc := laws.add_assoc
  add_comm := laws.add_comm
  add_zero := laws.add_zero
  add_neg a := by rw [laws.add_comm, laws.sub_add_cancel]
  sub_eq_add_neg := LawfulScalar.sub_eq
  mul_assoc := laws.mul_assoc
  mul_comm := laws.mul_comm
  mul_one := laws.mul_one
  mul_add := laws.mul_add

/-- The ring laws hold, equality is decided, and division by anything but zero undoes
multiplication. -/
class FieldScalar (α : Type) [Scalar α] : Prop where
  ring : RingLaws α fun a => Scalar.zero - a
  beq_iff_eq : ∀ a b : α, (a == b) = true ↔ a = b
  div_mul_cancel : ∀ a b : α, b ≠ Scalar.zero → a / b * b = a

/-- The same scalars, with zero for every quotient of zero, also for that by zero. -/
noncomputable abbrev groundedScalar (α : Type) [scalar : Scalar α] : Scalar α :=
  letI := Classical.decEq α
  { scalar with div := fun a b => if a = Scalar.zero then Scalar.zero else a / b }

theorem lawful_groundedScalar (α : Type) [Scalar α] [field : FieldScalar α] :
    @LawfulScalar α (groundedScalar α) :=
  letI := groundedScalar α
  { add_assoc := field.ring.add_assoc
    add_comm := field.ring.add_comm
    add_zero := field.ring.add_zero
    sub_add_cancel := field.ring.sub_add_cancel
    mul_assoc := field.ring.mul_assoc
    mul_comm := field.ring.mul_comm
    mul_one := field.ring.mul_one
    mul_add := field.ring.mul_add
    beq_iff_eq := field.beq_iff_eq
    zero_div := fun _ => if_pos rfl }

noncomputable abbrev commRingOfField (α : Type) [Scalar α] [FieldScalar α] : CommRing α :=
  @commRingOfLawful α (groundedScalar α) (lawful_groundedScalar α)

namespace FieldScalar
variable {α : Type} [Scalar α] [FieldScalar α] {a b c : α}

theorem mul_right_cancel (hc : c ≠ Scalar.zero) (h : a * c = b * c) : a = b := by
  have hundo (x : α) : x * c * (Scalar.one / c) = x := by
    rw [ring.mul_assoc, ring.mul_comm c, div_mul_cancel _ _ hc, ring.mul_one]
  rw [← hundo a, h, hundo]

theorem div_eq_iff (hb : b ≠ Scalar.zero) : a / b = c ↔ a = c * b := by
  refine ⟨?_, fun h => mul_right_cancel hb ((div_mul_cancel a b hb).trans h)⟩
  rintro rfl
  exact (div_mul_cancel a b hb).symm

theorem mul_ne_zero (ha : a ≠ Scalar.zero) (hb : b ≠ Scalar.zero) : a * b ≠ Scalar.zero := by
  let _ := commRingOfField α
  intro h
  refine ha (mul_right_cancel hb ?_)
  rw [h]
  exact (MulZeroClass.zero_mul b).symm

end FieldScalar

instance : FieldScalar ℝ where
  ring := .of_lawful
  beq_iff_eq := LawfulScalar.beq_iff_eq
  div_mul_cancel a b hb := by
    rw [real_zero] at hb
    exact div_mul_cancel₀ a hb

/-- The field with four elements. Besides zero and one, which are coded as such, there are two
elements that are each the square and the reciprocal of the other. -/
structure Quaternary where
  code : Fin 4
  deriving DecidableEq, Fintype

namespace Quaternary

def add (a b : Quaternary) : Quaternary := ⟨a.code ^^^ b.code⟩

def mul (a b : Quaternary) : Quaternary :=
  ⟨![![0, 0, 0, 0], ![0, 1, 2, 3], ![0, 2, 3, 1], ![0, 3, 1, 2]] a.code b.code⟩

/-- The square of an element other than zero is its reciprocal. A quotient by zero is the square of
the numerator, which respects sums because twice an element is zero. -/
def div (a b : Quaternary) : Quaternary := if b = ⟨0⟩ then a.mul a else a.mul (b.mul b)

instance : Scalar Quaternary where
  add := add
  sub := add
  mul := mul
  div := div
  beq a b := a = b
  ofDouble x := if x == 1.0 then ⟨1⟩ else ⟨0⟩
  pow a _ := a
  ln a := a

instance : FieldScalar Quaternary where
  ring :=
    { add_assoc := by decide +kernel
      add_comm := by decide +kernel
      add_zero := by decide +kernel
      add_neg := by decide +kernel
      sub_eq_add_neg := by decide +kernel
      mul_assoc := by decide +kernel
      mul_comm := by decide +kernel
      mul_one := by decide +kernel
      mul_add := by decide +kernel }
  beq_iff_eq := by decide +kernel
  div_mul_cancel := by decide +kernel

end Quaternary

end Fluxion
