import Mathlib.Tactic.Linarith
import Fluxion.Proofs.Number.DecimalValue

/-! Rounding to a code is rounding to nearest: no code has a value nearer to the number, and of two
values equally near the one with the even code is taken. -/
namespace Fluxion
namespace BinaryFormat
variable {f : BinaryFormat}

/-- The significand of a code is full unless its scale is the least one. -/
theorem exists_significand (code : Nat) :
    ∃ scale significand, code = scale * 2 ^ f.fractionBits + significand ∧
      significand < 2 * 2 ^ f.fractionBits ∧ (2 ^ f.fractionBits ≤ significand ∨ scale = 0) := by
  rcases Nat.lt_or_ge code (2 ^ f.fractionBits) with hlt | hle
  · exact ⟨0, code, by omega, by omega, .inr rfl⟩
  · obtain ⟨scale, significand, hlow, hhigh, hcode, -⟩ := units_of_le hle
    exact ⟨scale, significand, hcode, hhigh, .inl hlow⟩

/-- A significand counts steps of its scale, also when it was carried to the next power of two. -/
theorem units_significand {scale significand : Nat}
    (hhigh : significand ≤ 2 * 2 ^ f.fractionBits)
    (hlow : 2 ^ f.fractionBits ≤ significand ∨ scale = 0) :
    f.units (scale * 2 ^ f.fractionBits + significand) = significand * 2 ^ scale := by
  have hbase := Nat.two_pow_pos f.fractionBits
  rcases Nat.lt_or_ge significand (2 ^ f.fractionBits) with hlt | hle
  · obtain rfl : scale = 0 := by omega
    rw [Nat.zero_mul, Nat.zero_add, units_of_lt hlt, Nat.pow_zero, Nat.mul_one]
  · obtain ⟨extra, rfl⟩ := Nat.exists_eq_add_of_le hle
    have hcode : scale * 2 ^ f.fractionBits + (2 ^ f.fractionBits + extra) =
        extra + (scale + 1) * 2 ^ f.fractionBits := by ring
    rw [hcode, units, Nat.add_mul_div_right _ _ hbase, Nat.add_mul_mod_self_right]
    rcases Nat.eq_or_lt_of_le (show extra ≤ 2 ^ f.fractionBits by omega) with hcarried | hextra
    · rw [hcarried, Nat.div_self hbase, Nat.mod_self, if_neg (by omega),
        show 1 + (scale + 1) - 1 = scale + 1 by omega]
      ring
    · rw [Nat.div_eq_of_lt hextra, Nat.mod_eq_of_lt hextra, if_neg (by omega),
        show 0 + (scale + 1) - 1 = scale by omega]

theorem value_significand {scale significand : Nat}
    (hhigh : significand ≤ 2 * 2 ^ f.fractionBits)
    (hlow : 2 ^ f.fractionBits ≤ significand ∨ scale = 0) :
    f.value (scale * 2 ^ f.fractionBits + significand) =
      significand * 2 ^ scale / 2 ^ f.unitPower := by
  rw [value, units_significand hhigh hlow]
  push_cast
  rfl

theorem units_strictMono : StrictMono f.units := by
  apply strictMono_nat_of_lt_succ
  intro code
  obtain ⟨scale, significand, rfl, hhigh, hlow⟩ := f.exists_significand code
  rw [Nat.add_assoc, units_significand (by omega) hlow, units_significand (by omega) (by omega)]
  exact Nat.mul_lt_mul_of_pos_right (Nat.lt_succ_self _) (Nat.two_pow_pos scale)

theorem value_strictMono : StrictMono f.value := by
  intro a b hab
  have hunits : (f.units a : ℚ) < f.units b := by exact_mod_cast units_strictMono hab
  exact div_lt_div_of_pos_right hunits (by positivity)

theorem value_mono {a b : Nat} (h : a ≤ b) : f.value a ≤ f.value b :=
  value_strictMono.monotone h

theorem value_zero : f.value 0 = 0 := by
  rw [value, units_of_lt (Nat.two_pow_pos _), Nat.cast_zero, zero_div]

theorem value_nonneg (code : Nat) : 0 ≤ f.value code :=
  value_zero (f := f) ▸ value_mono (Nat.zero_le code)

theorem value_lt_succ (code : Nat) : f.value code < f.value (code + 1) :=
  value_strictMono (Nat.lt_succ_self code)

/-- The numbers that are rounded to a code: they lie at most halfway to the values beside it, and
exactly halfway only if the code is even. -/
structure Covers (f : BinaryFormat) (code : Nat) (x : ℚ) : Prop where
  below : ∀ previous, previous + 1 = code →
    f.value previous + f.value code < 2 * x ∨
      f.value previous + f.value code = 2 * x ∧ code % 2 = 0
  above : 2 * x < f.value code + f.value (code + 1) ∨
    2 * x = f.value code + f.value (code + 1) ∧ code % 2 = 0

namespace Covers
variable {code : Nat} {x : ℚ}

/-- Between the values of two codes, the lower half goes to the lower one. -/
theorem of_lower (hle : f.value code ≤ x)
    (hhalf : 2 * x < f.value code + f.value (code + 1) ∨
      2 * x = f.value code + f.value (code + 1) ∧ code % 2 = 0) : f.Covers code x := by
  refine ⟨?_, hhalf⟩
  rintro previous rfl
  have hprevious := f.value_lt_succ previous
  exact .inl (by linarith)

/-- Between the values of two codes, the upper half goes to the upper one. -/
theorem of_upper (hle : x ≤ f.value (code + 1))
    (hhalf : f.value code + f.value (code + 1) < 2 * x ∨
      f.value code + f.value (code + 1) = 2 * x ∧ (code + 1) % 2 = 0) :
    f.Covers (code + 1) x := by
  refine ⟨?_, ?_⟩
  · intro previous hprevious
    obtain rfl := Nat.succ.inj hprevious
    exact hhalf
  · have hnext := f.value_lt_succ (code + 1)
    exact .inl (by linarith)

/-- A number a part of the way to the next value is rounded by comparing the part with the rest. -/
theorem of_scale {unit : ℚ} {part whole : Nat} (hunit : 0 < unit) (hle : part ≤ whole)
    (hx : x = f.value code + part * unit)
    (hnext : f.value (code + 1) = f.value code + whole * unit) :
    f.Covers (if 2 * part < whole then code else if whole < 2 * part then code + 1
      else code + code % 2) x := by
  have hlower : f.value code ≤ x := by
    rw [hx]
    exact le_add_of_nonneg_right (by positivity)
  have hupper : x ≤ f.value (code + 1) := by
    rw [hx, hnext]
    gcongr
  have hhalf : 2 * x - (f.value code + f.value (code + 1)) =
      ((2 * part : Nat) - (whole : ℚ)) * unit := by
    rw [hx, hnext]
    push_cast
    ring
  split_ifs with hlt hgt
  · have hlt : ((2 * part : Nat) : ℚ) - whole < 0 := sub_neg.mpr (by exact_mod_cast hlt)
    have hneg := mul_neg_of_neg_of_pos hlt hunit
    exact .of_lower hlower (.inl (by linarith))
  · have hgt : 0 < ((2 * part : Nat) : ℚ) - whole := sub_pos.mpr (by exact_mod_cast hgt)
    have hpos := mul_pos hgt hunit
    exact .of_upper hupper (.inl (by linarith))
  · obtain rfl : whole = 2 * part := by omega
    rw [sub_self, zero_mul, sub_eq_zero] at hhalf
    rcases Nat.mod_two_eq_zero_or_one code with hbit | hbit
    · rw [hbit, Nat.add_zero]
      exact .of_lower hlower (.inr ⟨hhalf, hbit⟩)
    · rw [hbit]
      exact .of_upper hupper (.inr ⟨hhalf.symm, by omega⟩)

section
variable (h : f.Covers code x)
include h

/-- A lower code is no nearer, and as near only across a tie. -/
private theorem nearest_of_lt {other : Nat} (hlt : other < code) :
    |f.value code - x| ≤ |f.value other - x| ∧
      (|f.value other - x| = |f.value code - x| → code % 2 = 0) := by
  obtain ⟨previous, rfl⟩ := Nat.exists_eq_succ_of_ne_zero (Nat.ne_zero_of_lt hlt)
  have hother := f.value_mono (Nat.le_of_lt_succ hlt)
  have hprevious := f.value_lt_succ previous
  have hbelow := h.below previous rfl
  have hfar : |f.value other - x| = x - f.value other := by
    rw [abs_sub_comm]
    exact abs_of_nonneg (by grind)
  rw [hfar]
  refine ⟨abs_le.mpr ⟨by grind, by grind⟩, fun htie => ?_⟩
  rcases abs_cases (f.value previous.succ - x) with ⟨habs, -⟩ | ⟨habs, -⟩ <;> grind

/-- A higher code is no nearer, and as near only across a tie. -/
private theorem nearest_of_gt {other : Nat} (hlt : code < other) :
    |f.value code - x| ≤ |f.value other - x| ∧
      (|f.value other - x| = |f.value code - x| → code % 2 = 0) := by
  have hother := f.value_mono (Nat.succ_le_of_lt hlt)
  have hnext := f.value_lt_succ code
  have habove := h.above
  have hfar : |f.value other - x| = f.value other - x := abs_of_nonneg (by grind)
  rw [hfar]
  refine ⟨abs_le.mpr ⟨by grind, by grind⟩, fun htie => ?_⟩
  rcases abs_cases (f.value code - x) with ⟨habs, -⟩ | ⟨habs, -⟩ <;> grind

/-- No code is nearer, and if another one is as near, then the code is even. -/
theorem nearest (other : Nat) :
    |f.value code - x| ≤ |f.value other - x| ∧
      (other ≠ code → |f.value other - x| = |f.value code - x| → code % 2 = 0) := by
  rcases Nat.lt_trichotomy other code with hlt | rfl | hgt
  · exact ⟨(h.nearest_of_lt hlt).1, fun _ => (h.nearest_of_lt hlt).2⟩
  · exact ⟨le_refl _, fun hne => absurd rfl hne⟩
  · exact ⟨(h.nearest_of_gt hgt).1, fun _ => (h.nearest_of_gt hgt).2⟩

/-- The halfway point behind an odd code belongs to the next one. -/
theorem le_iff_of_odd {top : Nat} (hodd : top % 2 = 1) :
    code ≤ top ↔ 2 * x < f.value top + f.value (top + 1) := by
  constructor
  · intro hle
    rcases Nat.eq_or_lt_of_le hle with rfl | hlt
    · rcases h.above with habove | ⟨-, heven⟩
      · exact habove
      · omega
    · have htop := f.value_mono (Nat.succ_le_of_lt hlt)
      have hstep := value_strictMono (f := f) hlt
      have hnext := f.value_lt_succ top
      rcases h.above with habove | ⟨habove, -⟩ <;> linarith
  · intro hhalf
    by_contra hgt
    obtain ⟨previous, rfl⟩ := Nat.exists_eq_succ_of_ne_zero (show code ≠ 0 by omega)
    have htop := f.value_mono (show top ≤ previous by omega)
    have hnext := f.value_mono (show top + 1 ≤ previous + 1 by omega)
    rcases h.below previous rfl with hbelow | ⟨hbelow, -⟩ <;> linarith

end

end Covers

/-- A quotient lies between the values of two codes. Its remainder counts how far it is behind the
lower one, on a scale on which the divisor is the step to the upper one. -/
theorem exists_scale (num : Nat) {den : Nat} (hden : 0 < den) :
    let shift := (num / den).log2 - f.fractionBits
    let step := den * 2 ^ shift
    let lower := shift * 2 ^ f.fractionBits + num / step
    ∃ unit : ℚ, 0 < unit ∧
      (num : ℚ) / den / 2 ^ f.unitPower = f.value lower + (num % step : Nat) * unit ∧
      f.value (lower + 1) = f.value lower + step * unit := by
  intro shift step lower
  have hbounds := f.significand_bounds (num / den)
  rw [Nat.div_div_eq_div_mul] at hbounds
  have hlower : f.value lower = (num / step : Nat) * 2 ^ shift / 2 ^ f.unitPower :=
    value_significand (Nat.le_of_lt hbounds.1) hbounds.2
  have hupper : f.value (lower + 1) = (num / step + 1 : Nat) * 2 ^ shift / 2 ^ f.unitPower :=
    value_significand hbounds.1 (hbounds.2.imp_left Nat.le_succ_of_le)
  have hnum : (num : ℚ) = den * 2 ^ shift * (num / step : Nat) + (num % step : Nat) := by
    exact_mod_cast (Nat.div_add_mod num step).symm
  refine ⟨1 / (den * 2 ^ f.unitPower), by positivity, ?_, ?_⟩
  · rw [hlower, hnum]
    field_simp
  · rw [hlower, hupper, Nat.cast_mul, Nat.cast_pow]
    push_cast
    field_simp

/-- A quotient is rounded to the code that covers it, unless that is beyond infinity. -/
theorem exists_covers (hf : 0 < f.fractionBits) (num : Nat) {den : Nat} (hden : 0 < den) :
    ∃ code, f.roundUnits num den = min code f.infinityCode ∧
      f.Covers code ((num : ℚ) / den / 2 ^ f.unitPower) := by
  obtain ⟨unit, hunit, hx, hstep⟩ := f.exists_scale num hden
  refine ⟨_, rfl, ?_⟩
  generalize (num / den).log2 - f.fractionBits = shift at *
  have hpos : 0 < den * 2 ^ shift := Nat.mul_pos hden (Nat.two_pow_pos shift)
  generalize den * 2 ^ shift = step at *
  have heven : shift * 2 ^ f.fractionBits % 2 = 0 := by
    rw [Nat.mul_mod, Nat.two_pow_mod_two_eq_zero.mpr hf, Nat.mul_zero, Nat.zero_mod]
  obtain ⟨lower, hlower⟩ : ∃ lower, lower = shift * 2 ^ f.fractionBits + num / step := ⟨_, rfl⟩
  have hcode : shift * 2 ^ f.fractionBits + roundHalfEven num step =
      if 2 * (num % step) < step then lower
      else if step < 2 * (num % step) then lower + 1
      else lower + lower % 2 := by
    simp only [roundHalfEven, hlower]
    split_ifs <;> omega
  rw [hcode]
  rw [← hlower] at hx hstep
  exact .of_scale hunit (Nat.le_of_lt (Nat.mod_lt num hpos)) hx hstep

end BinaryFormat

/-- A decimal is rounded to the code that covers it, unless that is beyond infinity. -/
theorem Decimal.exists_covers {f : BinaryFormat} (he : 1 < f.exponentBits) (hf : 0 < f.fractionBits)
    (d : Decimal) : ∃ code, d.round f = min code f.infinityCode ∧ f.Covers code d.value := by
  obtain ⟨num, den, hden, hquotient⟩ := d.exists_quotient f
  obtain ⟨code, hcode, hcovers⟩ := f.exists_covers hf num hden
  rw [hquotient, mul_div_cancel_right₀ _ (by positivity)] at hcovers
  exact ⟨code, (d.round_eq_roundUnits he hden hquotient).trans hcode, hcovers⟩

end Fluxion
