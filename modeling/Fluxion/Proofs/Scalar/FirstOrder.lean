import Mathlib
import Fluxion.Proofs.Derivative.Directions
import Fluxion.Proofs.Scalar.Field

/-! Dual numbers are exact to first order. Over a field they are a commutative ring in which the
square of `ε` is zero, quotients undo products wherever the value allows it, and the usual laws of
powers and logarithms carry over from scalars to dual numbers, in both parts. -/
namespace Fluxion
variable {α : Type}

namespace Scalar
variable [Scalar α]

def natural : Nat → α
  | 0 => zero
  | n + 1 => natural n + one

def repeated (a : α) : Nat → α
  | 0 => one
  | n + 1 => repeated a n * a

end Scalar

namespace Dual
variable [Scalar α]

def epsilon : Dual α := seed Scalar.zero

theorem repeated_val (a : Dual α) (n : Nat) :
    (Scalar.repeated a n).val = Scalar.repeated a.val n := by
  induction n with
  | zero => rfl
  | succ n ih =>
    change (Scalar.repeated a n).val * a.val = _
    rw [ih]
    rfl

variable [FieldScalar α] {a b c : Dual α}

/-- The ring laws carry over to both parts. -/
theorem ringLaws : RingLaws (Dual α) neg :=
  -- No ring law divides, so it does not matter that quotients of zero are fixed on the way.
  have laws : @RingLaws (Dual α) (@instScalar α (groundedScalar α)) _ :=
    @RingLaws.of_lawful (Dual α) (@instScalar α (groundedScalar α))
      (@instLawfulScalar α (groundedScalar α) (lawful_groundedScalar α))
  { add_assoc := laws.add_assoc
    add_comm := laws.add_comm
    add_zero := laws.add_zero
    add_neg := laws.add_neg
    sub_eq_add_neg := laws.sub_eq_add_neg
    mul_assoc := laws.mul_assoc
    mul_comm := laws.mul_comm
    mul_one := laws.mul_one
    mul_add := laws.mul_add }

/-- In a field, too, the power rule needs no cases. -/
theorem pow_eps_field (a b : Dual α) :
    (Scalar.pow a b).eps = b.val * Scalar.pow a.val (b.val - Scalar.one) * a.eps +
      Scalar.pow a.val b.val * Scalar.ln a.val * b.eps :=
  @pow_eps_eq α (groundedScalar α) (lawful_groundedScalar α) a b

theorem epsilon_mul_epsilon : (epsilon * epsilon : Dual α) = Scalar.zero := by
  let _ := commRingOfField α
  refine eq_of_parts ?_ ?_
  · change (0 * 0 : α) = 0
    ring
  · change (0 * 1 + 1 * 0 : α) = 0
    ring

/-- The quotient rule is the one that undoes the product rule. -/
theorem div_mul_cancel (hb : b.val ≠ Scalar.zero) : a / b * b = a := by
  let _ := commRingOfField α
  have hquotient := FieldScalar.div_mul_cancel a.val b.val hb
  refine eq_of_parts hquotient (FieldScalar.mul_right_cancel hb ?_)
  change (a.val / b.val * b.eps +
    (a.eps * b.val - a.val * b.eps) / (b.val * b.val) * b.val) * b.val = a.eps * b.val
  have hslope := FieldScalar.div_mul_cancel (a.eps * b.val - a.val * b.eps) (b.val * b.val)
    (FieldScalar.mul_ne_zero hb hb)
  linear_combination b.eps * hquotient + hslope

/-! Powers with a natural exponent. -/

/-- The rule for the derivative of a natural power. -/
theorem repeated_eps (a : Dual α) (n : Nat) :
    (Scalar.repeated a (n + 1)).eps =
      Scalar.natural (n + 1) * Scalar.repeated a.val n * a.eps := by
  let _ := commRingOfField α
  induction n with
  | zero =>
    change (1 * a.eps + 0 * a.val : α) = (0 + 1) * 1 * a.eps
    ring
  | succ n ih =>
    change (Scalar.repeated a (n + 1)).val * a.eps + (Scalar.repeated a (n + 1)).eps * a.val =
      (Scalar.natural (n + 1) + 1) * (Scalar.repeated a.val n * a.val) * a.eps
    rw [repeated_val, ih]
    change Scalar.repeated a.val n * a.val * a.eps + _ = _
    ring

theorem natural_succ_sub_one (n : Nat) :
    (Scalar.natural (n + 1) - Scalar.one : α) = Scalar.natural n := by
  let _ := commRingOfField α
  change (Scalar.natural n + 1 - 1 : α) = Scalar.natural n
  ring

theorem pow_natural
    (h : ∀ n, Scalar.pow a.val (Scalar.natural n) = Scalar.repeated a.val n) (n : Nat) :
    Scalar.pow a (constant (Scalar.natural n)) = Scalar.repeated a n := by
  let _ := commRingOfField α
  refine eq_of_parts ((h n).trans (repeated_val a n).symm) ?_
  rw [pow_eps_field]
  cases n with
  | zero =>
    change (0 * _ * a.eps + _ * 0 : α) = 0
    ring
  | succ n =>
    change Scalar.natural (n + 1) * Scalar.pow a.val (Scalar.natural (n + 1) - Scalar.one) * a.eps +
      _ * 0 = _
    rw [natural_succ_sub_one, h, repeated_eps]
    ring

/-! Laws of powers and logarithms. -/

theorem pow_add
    (h : ∀ s t, Scalar.pow a.val (s + t) = Scalar.pow a.val s * Scalar.pow a.val t) :
    Scalar.pow a (b + c) = Scalar.pow a b * Scalar.pow a c := by
  let _ := commRingOfField α
  refine eq_of_parts (h b.val c.val) ?_
  -- The exponent of the slope is one less than the sum, and either summand can give up the one.
  have hleft : Scalar.pow a.val (b.val + c.val - Scalar.one) =
      Scalar.pow a.val (b.val - Scalar.one) * Scalar.pow a.val c.val := by
    rw [← h]
    congr 1
    ring
  have hright : Scalar.pow a.val (b.val + c.val - Scalar.one) =
      Scalar.pow a.val b.val * Scalar.pow a.val (c.val - Scalar.one) := by
    rw [← h]
    congr 1
    ring
  change _ = Scalar.pow a.val b.val * (Scalar.pow a c).eps +
    (Scalar.pow a b).eps * Scalar.pow a.val c.val
  rw [pow_eps_field, pow_eps_field, pow_eps_field]
  change (b.val + c.val) * Scalar.pow a.val (b.val + c.val - Scalar.one) * a.eps +
    Scalar.pow a.val (b.val + c.val) * Scalar.ln a.val * (b.eps + c.eps) = _
  linear_combination b.val * a.eps * hleft + c.val * a.eps * hright +
    Scalar.ln a.val * (b.eps + c.eps) * h b.val c.val

theorem ln_mul (ha : a.val ≠ Scalar.zero) (hb : b.val ≠ Scalar.zero)
    (h : Scalar.ln (a.val * b.val) = Scalar.ln a.val + Scalar.ln b.val) :
    Scalar.ln (a * b) = Scalar.ln a + Scalar.ln b := by
  let _ := commRingOfField α
  refine eq_of_parts h ((FieldScalar.div_eq_iff (FieldScalar.mul_ne_zero ha hb)).mpr ?_)
  change a.val * b.eps + a.eps * b.val =
    (a.eps / a.val + b.eps / b.val) * (a.val * b.val)
  have hleft := FieldScalar.div_mul_cancel a.eps a.val ha
  have hright := FieldScalar.div_mul_cancel b.eps b.val hb
  linear_combination -b.val * hleft - a.val * hright

theorem ln_pow (ha : a.val ≠ Scalar.zero) (hpow : Scalar.pow a.val b.val ≠ Scalar.zero)
    (hln : Scalar.ln (Scalar.pow a.val b.val) = b.val * Scalar.ln a.val)
    (hless : Scalar.pow a.val (b.val - Scalar.one) = Scalar.pow a.val b.val / a.val) :
    Scalar.ln (Scalar.pow a b) = b * Scalar.ln a := by
  let _ := commRingOfField α
  refine eq_of_parts hln ((FieldScalar.div_eq_iff hpow).mpr ?_)
  rw [pow_eps_field, hless]
  change _ = (b.val * (a.eps / a.val) + b.eps * Scalar.ln a.val) * Scalar.pow a.val b.val
  have hslope := FieldScalar.div_mul_cancel a.eps a.val ha
  have hpower := FieldScalar.div_mul_cancel (Scalar.pow a.val b.val) a.val ha
  linear_combination -(b.val * (Scalar.pow a.val b.val / a.val)) * hslope +
    b.val * (a.eps / a.val) * hpower

/-- Over a field the dual numbers are a commutative ring in which `ε` has the square zero, and a
quotient by anything with a value other than zero undoes a product. Where the powers and logarithms
of scalars obey one of the usual laws, those of dual numbers obey it in both parts; for logarithms
this takes values other than zero. -/
theorem firstOrder_laws (α : Type) [Scalar α] [FieldScalar α] :
    RingLaws (Dual α) neg ∧ (epsilon * epsilon : Dual α) = Scalar.zero ∧
      (∀ a b : Dual α, b.val ≠ Scalar.zero → a / b * b = a) ∧
      (∀ a : Dual α, (∀ n, Scalar.pow a.val (Scalar.natural n) = Scalar.repeated a.val n) →
        ∀ n, Scalar.pow a (constant (Scalar.natural n)) = Scalar.repeated a n) ∧
      (∀ a : Dual α,
        (∀ s t, Scalar.pow a.val (s + t) = Scalar.pow a.val s * Scalar.pow a.val t) →
        ∀ b c, Scalar.pow a (b + c) = Scalar.pow a b * Scalar.pow a c) ∧
      (∀ a b : Dual α, a.val ≠ Scalar.zero → b.val ≠ Scalar.zero →
        Scalar.ln (a.val * b.val) = Scalar.ln a.val + Scalar.ln b.val →
        Scalar.ln (a * b) = Scalar.ln a + Scalar.ln b) ∧
      ∀ a b : Dual α, a.val ≠ Scalar.zero → Scalar.pow a.val b.val ≠ Scalar.zero →
        Scalar.ln (Scalar.pow a.val b.val) = b.val * Scalar.ln a.val →
        Scalar.pow a.val (b.val - Scalar.one) = Scalar.pow a.val b.val / a.val →
        Scalar.ln (Scalar.pow a b) = b * Scalar.ln a :=
  ⟨ringLaws, epsilon_mul_epsilon, fun _ _ => div_mul_cancel, fun _ => pow_natural,
    fun _ h _ _ => pow_add h, fun _ _ => ln_mul, fun _ _ => ln_pow⟩

theorem natural_real (n : Nat) : (Scalar.natural n : ℝ) = n := by
  induction n with
  | zero => exact real_zero.trans Nat.cast_zero.symm
  | succ n ih => rw [Scalar.natural, ih, real_one, Nat.cast_succ]

theorem repeated_real (x : ℝ) (n : Nat) : Scalar.repeated x n = x ^ n := by
  induction n with
  | zero => exact real_one.trans (pow_zero x).symm
  | succ n ih => rw [Scalar.repeated, ih, pow_succ]

/-- All laws in real numbers, at two and five, of which both change. -/
theorem firstOrder_laws_real :
    let a : Dual ℝ := ⟨2, 3⟩
    let b : Dual ℝ := ⟨5, -1⟩
    a / b * b = a ∧ (∀ n, Scalar.pow a (constant (Scalar.natural n)) = Scalar.repeated a n) ∧
      (∀ c d, Scalar.pow a (c + d) = Scalar.pow a c * Scalar.pow a d) ∧
      Scalar.ln (a * b) = Scalar.ln a + Scalar.ln b ∧
      Scalar.ln (Scalar.pow a b) = b * Scalar.ln a := by
  intro a b
  have htwo : (0 : ℝ) < 2 := by norm_num
  have hfive : (0 : ℝ) < 5 := by norm_num
  have ha : a.val ≠ Scalar.zero := by
    rw [real_zero]
    exact htwo.ne'
  have hb : b.val ≠ Scalar.zero := by
    rw [real_zero]
    exact hfive.ne'
  have hpow : Scalar.pow a.val b.val ≠ Scalar.zero := by
    rw [real_zero]
    exact (Real.rpow_pos_of_pos htwo 5).ne'
  have hnatural (n : Nat) : Scalar.pow a.val (Scalar.natural n) = Scalar.repeated a.val n := by
    rw [natural_real, repeated_real]
    exact Real.rpow_natCast 2 n
  have hless : Scalar.pow a.val (b.val - Scalar.one) = Scalar.pow a.val b.val / a.val := by
    rw [real_one]
    exact Real.rpow_sub_one htwo.ne' 5
  obtain ⟨-, -, hdiv, hpowers, hsum, hproduct, hpower⟩ := firstOrder_laws ℝ
  exact ⟨hdiv a b hb, hpowers a hnatural, hsum a (Real.rpow_add htwo),
    hproduct a b ha hb (Real.log_mul htwo.ne' hfive.ne'),
    hpower a b ha hpow (Real.log_rpow htwo 5) hless⟩

end Dual
end Fluxion
