import Fluxion.Proofs.Number.ConstantText
import Fluxion.Proofs.Number.Nearest
import Fluxion.Proofs.Scalar.Real

/-! The double that a real number is rounded to: the finite one nearest to it, or infinity when the
number is too large. Decimals are converted to the doubles that their values are rounded to. -/
namespace Fluxion

/-- Where overflow starts: halfway between the largest finite double and the next power of two. -/
def overflowThreshold : ℚ := 2 ^ 1024 - 2 ^ 970

/-- `RoundsTo v x`: rounding takes the number `v`, which is not negative, to the double `x`. From the
threshold on that is infinity. Below it no finite double is nearer to `v`, and if another number is as
near, then the last bit of `x` is zero. -/
structure RoundsTo (v : ℝ) (x : Float) : Prop where
  infinite : overflowThreshold ≤ v → x = 1.0 / 0.0
  finite : v < overflowThreshold → x.isFinite
  nearest : v < overflowThreshold → ∀ y : Float, y.isFinite →
    |doubleReal x - v| ≤ |doubleReal y - v|
  even : v < overflowThreshold → ∀ y : Float, y.isFinite → doubleReal y ≠ doubleReal x →
    |doubleReal y - v| = |doubleReal x - v| → x.toBits.toNat % 2 = 0

def lastFiniteCode : Nat := BinaryFormat.double.infinityCode - 1

/-- The threshold lies halfway between the values of the last finite code and of the next one. -/
theorem overflowThreshold_eq :
    BinaryFormat.double.value lastFiniteCode + BinaryFormat.double.value (lastFiniteCode + 1) =
      2 * overflowThreshold := by
  -- The large exponents get names, so that no power of them is computed.
  obtain ⟨scale, hscale⟩ : ∃ scale, scale = 2045 := ⟨_, rfl⟩
  obtain ⟨step, hstep⟩ : ∃ step, step = 970 := ⟨_, rfl⟩
  have hlast : lastFiniteCode = scale * 2 ^ BinaryFormat.double.fractionBits + (2 ^ 53 - 1) := by
    rw [hscale]
    decide
  have hnext : lastFiniteCode + 1 = scale * 2 ^ BinaryFormat.double.fractionBits + 2 ^ 53 := by
    rw [hscale]
    decide
  have hsum : scale = step + 1 + BinaryFormat.double.unitPower := by
    rw [hscale, hstep]
    decide
  have hlimit : 1024 = 54 + step := by rw [hstep]
  rw [hnext, hlast, BinaryFormat.value_significand (by decide) (.inl (by decide)),
    BinaryFormat.value_significand (by decide) (.inl (by decide)), overflowThreshold, hlimit,
    ← hstep, hsum]
  push_cast
  rw [pow_add 2 54 step, pow_add 2 (step + 1) _, pow_succ]
  field_simp
  norm_num

theorem lt_infinityCode_iff {code : Nat} {v : ℚ} (h : BinaryFormat.double.Covers code v) :
    code < BinaryFormat.double.infinityCode ↔ v < overflowThreshold := by
  have hlast : code < BinaryFormat.double.infinityCode ↔ code ≤ lastFiniteCode := by
    rw [lastFiniteCode, double_infinityCode]
    omega
  rw [hlast, h.le_iff_of_odd (by decide), overflowThreshold_eq]
  exact mul_lt_mul_iff_right₀ two_pos

section
variable {x : Float}

theorem doubleReal_eq (h : x.isFinite) :
    doubleReal x = (if hasSign x then -1 else 1) * BinaryFormat.double.value (doubleCode x) := by
  rw [doubleReal, if_pos (isFinite_iff.mp h), BinaryFormat.value]
  push_cast
  rfl

theorem doubleReal_of_unsigned (h : x.isFinite) (hs : ¬ hasSign x) :
    doubleReal x = BinaryFormat.double.value (doubleCode x) := by
  rw [doubleReal_eq h, if_neg hs, one_mul]

theorem toNat_toBits_of_unsigned (hs : ¬ hasSign x) : x.toBits.toNat = doubleCode x :=
  (Nat.mod_eq_of_lt (Nat.lt_of_not_le hs)).symm

end

section
variable {code : Nat} {v : ℚ} (h : BinaryFormat.double.Covers code v) (hv : 0 ≤ v) {y : Float}
  (hy : y.isFinite)
include h hv hy

/-- A finite double of either sign is no nearer to a number than the value of the code that covers
it, and as near only if the code is even or the double has that value. -/
private theorem nearest_finite :
    |(BinaryFormat.double.value code : ℝ) - v| ≤ |doubleReal y - v| ∧
      (doubleReal y ≠ BinaryFormat.double.value code →
        |doubleReal y - v| = |(BinaryFormat.double.value code : ℝ) - v| → code % 2 = 0) := by
  obtain ⟨hnearest, htie⟩ := h.nearest (doubleCode y)
  have hnearest : |(BinaryFormat.double.value code : ℝ) - v| ≤
      |(BinaryFormat.double.value (doubleCode y) : ℝ) - v| := by exact_mod_cast hnearest
  have hzero : |(BinaryFormat.double.value code : ℝ) - v| ≤ |(0 : ℝ) - v| := by
    have hzero := (h.nearest 0).1
    rw [BinaryFormat.value_zero] at hzero
    exact_mod_cast hzero
  have hv : (0 : ℝ) ≤ v := by exact_mod_cast hv
  have hvalue : (0 : ℝ) ≤ BinaryFormat.double.value (doubleCode y) := by
    exact_mod_cast BinaryFormat.value_nonneg (doubleCode y)
  have hsign := doubleReal_eq hy
  have hnegative : |-1 * (BinaryFormat.double.value (doubleCode y) : ℝ) - v| =
      BinaryFormat.double.value (doubleCode y) + v := by
    rw [neg_one_mul, ← neg_add', abs_neg, abs_of_nonneg (add_nonneg hvalue hv)]
  have hfar : |(BinaryFormat.double.value (doubleCode y) : ℝ) - v| ≤ |doubleReal y - v| := by
    rw [hsign]
    split
    · rw [hnegative]
      exact abs_sub_le_of_nonneg_of_le hvalue (by linarith) hv (by linarith)
    · rw [one_mul]
  refine ⟨hnearest.trans hfar, fun hne heq => ?_⟩
  by_cases hcode : doubleCode y = code
  · -- The negative of the value is left. Zero would be nearer than that, unless it is zero itself.
    rw [hcode] at hsign hnegative hvalue
    split at hsign
    · rw [hsign, hnegative] at heq
      rw [zero_sub, abs_neg, abs_of_nonneg hv, ← heq] at hzero
      have hvanish : (BinaryFormat.double.value code : ℝ) = 0 := by linarith
      rw [hsign, hvanish, mul_zero] at hne
      exact absurd rfl hne
    · rw [hsign, one_mul] at hne
      exact absurd rfl hne
  · have hsame := le_antisymm (hfar.trans (le_of_eq heq)) hnearest
    exact htie hcode (by exact_mod_cast hsame)

end

section
variable {code : Nat} {v : ℚ} {x : Float}

/-- The code that covers a number makes the double that the number is rounded to. -/
theorem BinaryFormat.Covers.roundsTo (h : BinaryFormat.double.Covers code v) (hv : 0 ≤ v)
    (hs : ¬ hasSign x) (hx : doubleCode x = min code BinaryFormat.double.infinityCode) :
    RoundsTo v x := by
  have hlimit : code < BinaryFormat.double.infinityCode ↔ (v : ℝ) < overflowThreshold :=
    (lt_infinityCode_iff h).trans Rat.cast_lt.symm
  have hbelow (hlt : (v : ℝ) < overflowThreshold) : x.isFinite ∧ doubleCode x = code := by
    have hcode := hlimit.mpr hlt
    rw [Nat.min_eq_left (Nat.le_of_lt hcode)] at hx
    exact ⟨isFinite_iff.mpr (hx ▸ hcode), hx⟩
  have hreal (hlt : (v : ℝ) < overflowThreshold) :
      doubleReal x = BinaryFormat.double.value code := by
    rw [doubleReal_of_unsigned (hbelow hlt).1 hs, (hbelow hlt).2]
  constructor
  · intro hover
    have hcode : BinaryFormat.double.infinityCode ≤ code := by
      rw [← not_lt, hlimit]
      exact not_lt.mpr hover
    rw [Nat.min_eq_right hcode] at hx
    rw [eq_ofCode hs (Nat.le_of_eq hx), hx]
    exact ofBits_infinity false
  · exact fun hlt => (hbelow hlt).1
  · intro hlt y hy
    rw [hreal hlt]
    exact (nearest_finite h hv hy).1
  · intro hlt y hy hne htie
    rw [hreal hlt] at hne htie
    rw [toNat_toBits_of_unsigned hs, (hbelow hlt).2]
    exact (nearest_finite h hv hy).2 hne htie

end

/-- A decimal is converted to the double that its value is rounded to. -/
theorem Decimal.toDouble_roundsTo (d : Decimal) : RoundsTo d.value (d.toDouble false) := by
  obtain ⟨code, hcode, hcovers⟩ := d.exists_covers (f := .double) (by decide) (by decide)
  have hle := d.round_le_infinityCode .double
  have hvalue : 0 ≤ d.value := by
    rw [Decimal.value]
    positivity
  refine hcovers.roundsTo hvalue ?_ ?_
  · exact not_hasSign_ofCode hle
  · exact (doubleCode_ofCode hle).trans hcode

/-- Every finite code has its double. -/
theorem exists_of_code {code : Nat} (h : code < BinaryFormat.double.infinityCode) :
    ∃ x : Float, x.isFinite ∧ doubleReal x = BinaryFormat.double.value code := by
  have hcode := doubleCode_ofCode (Nat.le_of_lt h)
  have hfinite : (Float.ofBits (UInt64.ofNat code)).isFinite := isFinite_iff.mpr (hcode.symm ▸ h)
  refine ⟨_, hfinite, ?_⟩
  rw [doubleReal_of_unsigned hfinite (not_hasSign_ofCode (Nat.le_of_lt h)), hcode]

/-- What lies between two numbers that are equally near is nearer. -/
private theorem dist_lt_of_between {a b m v : ℝ} (ham : a < m) (hmb : m < b)
    (htie : |a - v| = |b - v|) : |m - v| < |a - v| := by
  have hmirror : a - v = -(b - v) :=
    (abs_eq_abs.mp htie).resolve_left fun hsame => by linarith
  rw [abs_of_neg (show a - v < 0 by linarith)]
  exact abs_lt.mpr ⟨by linarith, by linarith⟩

namespace RoundsTo
variable {v : ℝ} {x y : Float}

/-- The codes of two nearest doubles are both even, so that a code between them would be nearer. -/
private theorem not_code_lt (hx : RoundsTo v x) (hy : RoundsTo v y) (hxs : ¬ hasSign x)
    (hys : ¬ hasSign y) (hlt : v < overflowThreshold) : ¬ doubleCode x < doubleCode y := by
  intro hcodes
  have hxf := hx.finite hlt
  have hyf := hy.finite hlt
  have hxreal := doubleReal_of_unsigned hxf hxs
  have hyreal := doubleReal_of_unsigned hyf hys
  have hne : doubleReal y ≠ doubleReal x := by
    rw [hxreal, hyreal]
    exact_mod_cast (BinaryFormat.value_strictMono hcodes).ne'
  have htie := le_antisymm (hx.nearest hlt y hyf) (hy.nearest hlt x hxf)
  have hxeven := hx.even hlt y hyf hne htie.symm
  have hyeven := hy.even hlt x hxf hne.symm htie
  rw [toNat_toBits_of_unsigned hxs] at hxeven
  rw [toNat_toBits_of_unsigned hys] at hyeven
  have hbetween : doubleCode x + 1 < doubleCode y := by omega
  obtain ⟨z, hzf, hzreal⟩ := exists_of_code (Nat.lt_trans hbetween (isFinite_iff.mp hyf))
  have hnearer : |doubleReal z - v| < |doubleReal x - v| := by
    apply dist_lt_of_between _ _ htie
    · rw [hxreal, hzreal]
      exact_mod_cast BinaryFormat.value_lt_succ _
    · rw [hyreal, hzreal]
      exact_mod_cast BinaryFormat.value_strictMono hbetween
  exact absurd (hx.nearest hlt z hzf) (not_le_of_gt hnearer)

/-- A number is rounded to one double, apart from the sign of zero. -/
theorem unique (hx : RoundsTo v x) (hy : RoundsTo v y) (hxs : ¬ hasSign x) (hys : ¬ hasSign y) :
    x = y := by
  rcases lt_or_ge v (overflowThreshold : ℝ) with hlt | hge
  · have hcode := Nat.le_antisymm
      (Nat.le_of_not_lt (not_code_lt hy hx hys hxs hlt))
      (Nat.le_of_not_lt (not_code_lt hx hy hxs hys hlt))
    have hxcode := isFinite_iff.mp (hx.finite hlt)
    rw [eq_ofCode hxs (Nat.le_of_lt hxcode), hcode,
      ← eq_ofCode hys (hcode ▸ Nat.le_of_lt hxcode)]
  · rw [hx.infinite hge, hy.infinite hge]

end RoundsTo

end Fluxion
