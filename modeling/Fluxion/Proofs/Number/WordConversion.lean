import Fluxion.Proofs.Number.Bits
import Fluxion.Proofs.Number.Rounding

/-! Machine words become doubles by the one rounding of quotients. -/
namespace Fluxion
open Float.Model (Format UnpackedFloat totalExponent)
open Float.Model.UnpackedFloat

/-- The two residual bits tell the remainder from zero and from half of the divisor. -/
private def extended (m n : Nat) : ExtendedMantissa :=
  ⟨m / 2 ^ n, 2 ^ n ≤ 2 * (m % 2 ^ n), m % 2 ^ n ≠ 0 ∧ 2 * (m % 2 ^ n) ≠ 2 ^ n⟩

private theorem shiftRightOne_extended (m n : Nat) :
    (extended m n).shiftRightOne = extended m (n + 1) := by
  have hlt := Nat.mod_lt m (Nat.two_pow_pos n)
  have hdiv : m / 2 ^ (n + 1) = m / 2 ^ n / 2 := by rw [Nat.pow_succ, Nat.div_div_eq_div_mul]
  have hmod : m % 2 ^ (n + 1) = m % 2 ^ n + 2 ^ n * (m / 2 ^ n % 2) := by
    rw [Nat.pow_succ, Nat.mod_mul]
  have hbase : 2 ^ (n + 1) = 2 * 2 ^ n := Nat.pow_succ'
  rw [extended, extended, ExtendedMantissa.shiftRightOne, ExtendedMantissa.mk.injEq, hdiv, hmod,
    hbase]
  refine ⟨rfl, ?_, ?_⟩
  · rw [Bool.eq_iff_iff]
    rcases Nat.mod_two_eq_zero_or_one (m / 2 ^ n) with hbit | hbit
    · simp [hbit]
      omega
    · simp [hbit]
  · rw [Bool.eq_iff_iff]
    rcases Nat.mod_two_eq_zero_or_one (m / 2 ^ n) with hbit | hbit
    · simp [hbit]
      omega
    · simp [hbit]
      omega

private theorem repeat_shiftRightOne (m n : Nat) :
    n.repeat ExtendedMantissa.shiftRightOne ⟨m, false, false⟩ = extended m n := by
  induction n with
  | zero => simp [Nat.repeat, extended, Nat.mod_one]
  | succ n ih => rw [Nat.repeat, ih, shiftRightOne_extended]

private theorem roundedMantissa_mk (m : Nat) (roundBit stickyBit : Bool) :
    ExtendedMantissa.roundedMantissa ⟨m, roundBit, stickyBit⟩ =
      if roundBit then if stickyBit then m + 1 else m + m % 2 else m := by
  cases roundBit <;> cases stickyBit <;> rfl

private theorem roundedMantissa_extended (m n : Nat) :
    (extended m n).roundedMantissa = roundHalfEven m (2 ^ n) := by
  have hbase := Nat.two_pow_pos n
  rw [extended, roundedMantissa_mk, roundHalfEven]
  rcases Nat.lt_trichotomy (2 * (m % 2 ^ n)) (2 ^ n) with hlt | heq | hgt
  · have hround : ¬ 2 ^ n ≤ 2 * (m % 2 ^ n) := by omega
    simp [hround, hlt]
  · simp [heq]
  · have hround : 2 ^ n ≤ 2 * (m % 2 ^ n) := by omega
    have hsticky : m % 2 ^ n ≠ 0 ∧ 2 * (m % 2 ^ n) ≠ 2 ^ n := by omega
    have hnlt : ¬ 2 * (m % 2 ^ n) < 2 ^ n := by omega
    simp [hround, hsticky, hgt, hnlt]

/-- Values are shifted until 53 bits are left. -/
private theorem shiftToTargetExponent_eq (m scale : Nat) :
    shiftToTargetExponent Format.binary64 m (scale - 1074) .exact =
      (extended m (m.log2 - 52), ((scale + (m.log2 - 52) : Nat) : Int) - 1074) := by
  have htarget : Format.binary64.targetExponent (totalExponent m (scale - 1074)) =
      max ((m.log2 : Int) + scale - 1126) (-1074) := by
    change max ((m.log2 : Int) + 1 + (scale - 1074) - 53) (3 - 2 ^ 10 - 53) = _
    omega
  have hshift : (max ((m.log2 : Int) + scale - 1126) (-1074) - (scale - 1074)).toNat =
      m.log2 - 52 := by omega
  rw [shiftToTargetExponent, shiftToExponent, htarget, hshift]
  refine Prod.ext (repeat_shiftRightOne m _) ?_
  change (scale : Int) - 1074 + ((m.log2 - 52 : Nat) : Int) = _
  omega

/-- A significand that rounding has carried to 54 bits is even and drops its last bit. -/
private theorem carry {significand : Nat} (hs : 0 < significand) (hhigh : significand ≤ 2 ^ 53)
    {scale : Nat} (hlow : 2 ^ 52 ≤ significand ∨ scale = 0) :
    let shift := significand.log2 - 52
    let carried := significand / 2 ^ shift
    0 < carried ∧ carried < 2 ^ 53 ∧ (2 ^ 52 ≤ carried ∨ scale + shift = 0) ∧
      (scale + shift) * 2 ^ 52 + carried = scale * 2 ^ 52 + significand := by
  intro shift carried
  rcases Nat.eq_or_lt_of_le hhigh with heq | hlt
  · have hlog : significand.log2 = 53 := by rw [heq, Nat.log2_two_pow]
    have hshift : shift = 1 := by simp only [shift, hlog]
    have hcarried : carried = 2 ^ 52 := by
      simp only [carried, hshift]
      omega
    rw [hcarried, hshift, heq]
    omega
  · have hlog : significand.log2 < 53 := (Nat.log2_lt (Nat.ne_of_gt hs)).mpr hlt
    have hshift : shift = 0 := by
      simp only [shift]
      omega
    have hcarried : carried = significand := by
      simp only [carried, hshift, Nat.pow_zero, Nat.div_one]
    rw [hcarried, hshift]
    omega

section
variable {m scale : Nat} (hm : 0 < m) (hlow : 2 ^ 52 ≤ m ∨ scale = 0)
include hm hlow

/-- Of a value in least units, 53 bits are rounded and the others only counted. -/
private theorem roundUnits_shifted :
    BinaryFormat.double.roundUnits (m * 2 ^ scale) 1 =
      min ((scale + (m.log2 - 52)) * 2 ^ 52 + roundHalfEven m (2 ^ (m.log2 - 52)))
        (2047 * 2 ^ 52) := by
  have hlog : (m * 2 ^ scale).log2 - 52 = scale + (m.log2 - 52) := by
    rw [log2_mul_two_pow (Nat.ne_of_gt hm)]
    rcases hlow with hlow | rfl
    · have hbits := (Nat.le_log2 (Nat.ne_of_gt hm)).mpr hlow
      omega
    · omega
  rw [BinaryFormat.roundUnits, Nat.div_one, double_infinityCode]
  change min (((m * 2 ^ scale).log2 - 52) * 2 ^ 52 + roundHalfEven _ (1 * 2 ^ (_ - 52))) _ = _
  rw [hlog, Nat.one_mul, Nat.mul_comm m, Nat.pow_add, roundHalfEven_scale (Nat.two_pow_pos scale)]

private theorem rounded_bounds :
    0 < roundHalfEven m (2 ^ (m.log2 - 52)) ∧ roundHalfEven m (2 ^ (m.log2 - 52)) ≤ 2 ^ 53 ∧
      (2 ^ 52 ≤ roundHalfEven m (2 ^ (m.log2 - 52)) ∨ scale + (m.log2 - 52) = 0) := by
  obtain ⟨shift, hshift⟩ : ∃ shift, shift = m.log2 - 52 := ⟨_, rfl⟩
  rw [← hshift]
  rcases Nat.eq_zero_or_pos shift with hzero | hpos
  · have hlt : m < 2 ^ 53 := (Nat.log2_lt (Nat.ne_of_gt hm)).mp (by omega)
    have hexact : roundHalfEven m (2 ^ shift) = m := by
      rw [hzero]
      simpa using roundHalfEven_exact m Nat.one_pos
    rw [hexact]
    omega
  · have hcut : m / 2 ^ (m.log2 - 52) < 2 * 2 ^ 52 ∧
        (2 ^ 52 ≤ m / 2 ^ (m.log2 - 52) ∨ m.log2 - 52 = 0) :=
      BinaryFormat.double.significand_bounds m
    rw [← hshift] at hcut
    have hge := div_le_roundHalfEven m (2 ^ shift)
    have hsucc := roundHalfEven_le_succ m (2 ^ shift)
    omega

/-- An exact value in least units is rounded to its code. -/
private theorem pack_roundWithAccuracy :
    (pack Format.binary64
      (roundWithAccuracy Format.binary64 .positive m (scale - 1074) .exact)).toNat =
        BinaryFormat.double.roundUnits (m * 2 ^ scale) 1 := by
  obtain ⟨hpos, hhigh, hnormal⟩ := rounded_bounds hm hlow
  have hunits := roundUnits_shifted hm hlow
  obtain ⟨rounded, hrounded⟩ : ∃ rounded, rounded = roundHalfEven m (2 ^ (m.log2 - 52)) := ⟨_, rfl⟩
  rw [← hrounded] at hpos hhigh hnormal hunits
  obtain ⟨hpos, hcarried, hnormal, hcode⟩ := carry hpos hhigh hnormal
  have hround : roundWithAccuracy Format.binary64 .positive m (scale - 1074) .exact =
      .finite .positive (rounded / 2 ^ (rounded.log2 - 52))
        (((scale + (m.log2 - 52) + (rounded.log2 - 52) : Nat) : Int) - 1074) hpos := by
    rw [roundWithAccuracy, shiftToTargetExponent_eq]
    simp only [roundedMantissa_extended, ← hrounded, shiftToTargetExponent_eq]
    exact dif_neg (Nat.ne_of_gt hpos)
  rw [hround, pack_finite .positive hpos hcarried hnormal, hcode, hunits]
  simp [Sign.toBitVec]

end

private theorem pack_round {m : Nat} (hm : 0 < m) :
    (pack Format.binary64 (UnpackedFloat.round Format.binary64 .positive m 0)).toNat =
      BinaryFormat.double.roundUnits (m * 2 ^ 1074) 1 := by
  obtain ⟨shift, hshift⟩ : ∃ shift, shift = 52 - m.log2 := ⟨_, rfl⟩
  have htarget : Format.binary64.targetExponent (totalExponent m 0) = (m.log2 : Int) - 52 := by
    change max ((m.log2 : Int) + 1 + 0 - 53) (3 - 2 ^ 10 - 53) = _
    omega
  have hamount : ((0 : Int) - ((m.log2 : Int) - 52)).toNat = shift := by omega
  have hexponent : (0 : Int) - (shift : Nat) = ((1074 - shift : Nat) : Int) - 1074 := by omega
  have hdecrease : decreaseExponent m 0 ((m.log2 : Int) - 52) =
      (m * 2 ^ shift, ((1074 - shift : Nat) : Int) - 1074) := by
    rw [decreaseExponent, hamount, hexponent, Nat.shiftLeft_eq]
  have hnormal : 2 ^ 52 ≤ m * 2 ^ shift := by
    have hpos : m * 2 ^ shift ≠ 0 := Nat.mul_ne_zero (Nat.ne_of_gt hm) (by simp)
    rw [← Nat.le_log2 hpos, log2_mul_two_pow (Nat.ne_of_gt hm)]
    omega
  have hunits : m * 2 ^ shift * 2 ^ (1074 - shift) = m * 2 ^ 1074 := by
    rw [Nat.mul_assoc, ← Nat.pow_add]
    congr 2
    omega
  rw [UnpackedFloat.round, htarget, hdecrease, ← hunits]
  exact pack_roundWithAccuracy (by omega) (.inl hnormal)

/-- A machine word becomes the double nearest to it. -/
theorem toFloat_eq_ofBits (n : UInt64) :
    n.toFloat = Float.ofBits (UInt64.ofNat
      (BinaryFormat.double.roundUnits (n.toNat * 2 ^ BinaryFormat.double.unitPower) 1)) := by
  obtain ⟨code, hcode⟩ : ∃ code, code =
    BinaryFormat.double.roundUnits (n.toNat * 2 ^ BinaryFormat.double.unitPower) 1 := ⟨_, rfl⟩
  have hunit : BinaryFormat.double.unitPower = 1074 := by decide
  have hpacked : (pack Format.binary64 (ofUInt64 Format.binary64 n)).toNat = code := by
    rcases Nat.eq_zero_or_pos n.toNat with hzero | hpos
    · have hround : code = 0 := by
        rw [hcode, hzero, Nat.zero_mul, BinaryFormat.roundUnits_of_lt_half (by decide)]
      rw [ofUInt64, hzero, hround]
      rfl
    · have hnormalize : ofUInt64 Format.binary64 n = round Format.binary64 .positive n.toNat 0 := by
        have hgt : compare (n.toNat : Int) 0 = .gt := by
          exact Int.compare_eq_gt.mpr (by omega)
        simp only [ofUInt64, ofNat, ofInt, UnpackedFloat.normalize, hgt, Int.toNat_natCast]
      rw [hnormalize, pack_round hpos, hcode, hunit]
  have hle : code ≤ BinaryFormat.double.infinityCode := by
    rw [hcode]
    exact Nat.min_le_right _ _
  apply toBits_inj
  apply UInt64.toNat_inj.mp
  rw [← hcode, toNat_toBits_ofCode hle]
  exact hpacked

end Fluxion
