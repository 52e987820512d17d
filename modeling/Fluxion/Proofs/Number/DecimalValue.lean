import Mathlib.Algebra.Order.Field.Power
import Mathlib.Algebra.Order.Field.Rat
import Mathlib.Tactic.FieldSimp
import Mathlib.Tactic.Positivity
import Mathlib.Tactic.Ring
import Fluxion.Number.Decimal
import Fluxion.Proofs.Number.Rounding

/-! The number that a decimal stands for is all that rounding looks at: the two bounds on exponents
change no result. -/
namespace Fluxion

def Decimal.value (d : Decimal) : ℚ := d.coefficient * 10 ^ d.exponent

def BinaryFormat.value (f : BinaryFormat) (code : Nat) : ℚ := f.units code / 2 ^ f.unitPower

private theorem two_pow_le_ten_pow (n : Nat) : 2 ^ (3 * n) ≤ 10 ^ n := by
  rw [Nat.pow_mul]
  exact Nat.pow_le_pow_left (by decide) n

namespace Decimal
variable {f : BinaryFormat}

theorem round_whole (hf : 1 < f.exponentBits) (coefficient e : Nat) :
    round f ⟨coefficient, .ofNat e⟩ =
      f.roundUnits (coefficient * 10 ^ e * 2 ^ f.unitPower) 1 := by
  by_cases hzero : coefficient = 0
  · simp [round, hzero, BinaryFormat.roundUnits_of_lt_half]
  · by_cases hlarge : 2 ^ (f.exponentBits - 1) ≤ 3 * e
    · have hhalf : 2 ≤ 2 ^ (f.exponentBits - 1) := Nat.le_self_pow (by omega) 2
      have hdouble : 2 ^ f.exponentBits = 2 * 2 ^ (f.exponentBits - 1) := by
        rw [← Nat.pow_succ']
        congr 1
        omega
      have hexponent : 2 ^ f.exponentBits + f.fractionBits - 2 =
          2 ^ (f.exponentBits - 1) + f.unitPower := by
        rw [BinaryFormat.unitPower]
        omega
      have hten : 2 ^ 2 ^ (f.exponentBits - 1) ≤ coefficient * 10 ^ e :=
        calc 2 ^ 2 ^ (f.exponentBits - 1)
            ≤ 2 ^ (3 * e) := Nat.pow_le_pow_right (by decide) hlarge
          _ ≤ 10 ^ e := two_pow_le_ten_pow e
          _ ≤ coefficient * 10 ^ e := Nat.le_mul_of_pos_left _ (Nat.pos_of_ne_zero hzero)
      have hnum : 2 ^ (2 ^ f.exponentBits + f.fractionBits - 2) ≤
          coefficient * 10 ^ e * 2 ^ f.unitPower := by
        rw [hexponent, Nat.pow_add]
        exact Nat.mul_le_mul_right _ hten
      simp only [round, hzero, hlarge, if_false, if_true]
      exact (BinaryFormat.roundUnits_of_overflow (by omega) hnum).symm
    · simp only [round, hzero, hlarge, if_false]

theorem round_fraction (coefficient k : Nat) :
    round f ⟨coefficient, .negSucc k⟩ =
      f.roundUnits (coefficient * 2 ^ f.unitPower) (10 ^ (k + 1)) := by
  by_cases hsmall : coefficient.log2 + f.unitPower + 2 ≤ 3 * (k + 1)
  · have hnum : 2 * (coefficient * 2 ^ f.unitPower) < 10 ^ (k + 1) :=
      calc 2 * (coefficient * 2 ^ f.unitPower)
          < 2 * (2 ^ (coefficient.log2 + 1) * 2 ^ f.unitPower) := by
            have := Nat.mul_lt_mul_of_pos_right (@Nat.lt_log2_self coefficient)
              (Nat.two_pow_pos f.unitPower)
            omega
        _ = 2 ^ (coefficient.log2 + f.unitPower + 2) := by ring
        _ ≤ 2 ^ (3 * (k + 1)) := Nat.pow_le_pow_right (by decide) hsmall
        _ ≤ 10 ^ (k + 1) := two_pow_le_ten_pow (k + 1)
    simp only [round, hsmall, if_true]
    exact (BinaryFormat.roundUnits_of_lt_half hnum).symm
  · simp only [round, hsmall, if_false]

/-- A decimal rounds as its value in least units does, written as any quotient. -/
theorem round_eq_roundUnits (hf : 1 < f.exponentBits) (d : Decimal) {num den : Nat}
    (hden : 0 < den) (hvalue : (num : ℚ) / den = d.value * 2 ^ f.unitPower) :
    d.round f = f.roundUnits num den := by
  have hden' : (den : ℚ) ≠ 0 := by positivity
  obtain ⟨coefficient, exponent⟩ := d
  cases exponent with
  | ofNat e =>
    rw [round_whole hf]
    apply BinaryFormat.roundUnits_eq_of_cross Nat.one_pos hden
    have hcross := (div_eq_iff hden').mp hvalue
    simp only [value, Int.ofNat_eq_natCast, zpow_natCast] at hcross
    have hnat : num = coefficient * 10 ^ e * 2 ^ f.unitPower * den := by exact_mod_cast hcross
    rw [Nat.mul_one, hnat]
  | negSucc k =>
    rw [round_fraction]
    apply BinaryFormat.roundUnits_eq_of_cross (Nat.pow_pos (by decide)) hden
    have hcross := (div_eq_iff hden').mp hvalue
    simp only [value, zpow_negSucc] at hcross
    have hten : ((10 : ℚ) ^ (k + 1)) ≠ 0 := by positivity
    field_simp at hcross
    have hnat : num * 10 ^ (k + 1) = coefficient * 2 ^ f.unitPower * den := by
      exact_mod_cast hcross
    rw [hnat]

/-- The value of a decimal in least units is a quotient. -/
theorem exists_quotient (f : BinaryFormat) (d : Decimal) :
    ∃ num den : Nat, 0 < den ∧ (num : ℚ) / den = d.value * 2 ^ f.unitPower := by
  obtain ⟨units, hunits⟩ : ∃ units, units = d.value * 2 ^ f.unitPower := ⟨_, rfl⟩
  have hnonneg : 0 ≤ units := by
    rw [hunits, value]
    positivity
  have hnum : ((units.num.toNat : Nat) : ℚ) = units.num := by
    exact_mod_cast Int.toNat_of_nonneg (Rat.num_nonneg.mpr hnonneg)
  exact ⟨units.num.toNat, units.den, units.den_pos, by rw [hnum, Rat.num_div_den, hunits]⟩

/-- Equal numbers round alike, however they are written. -/
theorem round_congr (hf : 1 < f.exponentBits) {d d' : Decimal} (h : d.value = d'.value) :
    d.round f = d'.round f := by
  obtain ⟨num, den, hden, hquotient⟩ := d.exists_quotient f
  rw [round_eq_roundUnits hf d hden hquotient,
    round_eq_roundUnits hf d' hden (hquotient.trans (by rw [h]))]

/-- The number of a finite code rounds to that code. -/
theorem round_of_value_eq (hf : 1 < f.exponentBits) {d : Decimal} {code : Nat}
    (hcode : code < f.infinityCode) (h : d.value = f.value code) : d.round f = code := by
  have hunits : ((f.units code : Nat) : ℚ) / (1 : Nat) = d.value * 2 ^ f.unitPower := by
    rw [h, BinaryFormat.value, Nat.cast_one, div_one, div_mul_cancel₀]
    positivity
  rw [round_eq_roundUnits hf d Nat.one_pos hunits, BinaryFormat.roundUnits_units hcode]

end Decimal
end Fluxion
