import Mathlib
import Fluxion.Number.Binary

/-! Doubles by their bits. A double is its sign and its code, and the code alone decides whether it
is a number, infinite or zero. -/
namespace Fluxion
open Float.Model (Format UnpackedFloat)
open Float.Model.UnpackedFloat

/-- The code of a double, which leaves out its sign. -/
def doubleCode (x : Float) : Nat := x.toBits.toNat % BinaryFormat.double.signWeight

def hasSign (x : Float) : Prop := BinaryFormat.double.signWeight ≤ x.toBits.toNat

instance (x : Float) : Decidable (hasSign x) := Nat.decLe _ _

theorem double_signWeight : BinaryFormat.double.signWeight = 2 ^ 63 := by decide

theorem double_infinityCode : BinaryFormat.double.infinityCode = 2047 * 2 ^ 52 := by decide

theorem double_infinityCode_lt :
    BinaryFormat.double.infinityCode < BinaryFormat.double.signWeight := by
  decide

theorem toBits_inj {x y : Float} (h : x.toBits = y.toBits) : x = y := by
  obtain ⟨⟨bits, _⟩⟩ := x
  obtain ⟨⟨bits', _⟩⟩ := y
  obtain rfl : bits = bits' := h
  rfl

private theorem unpackMantissa_toNat (b : BitVec 64) :
    (@unpackMantissa Format.binary64 b).toNat = b.toNat % 2 ^ 52 := by
  simp only [unpackMantissa, BitVec.toNat_cast, BitVec.extractLsb_toNat]
  simp

private theorem unpackExponent_toNat (b : BitVec 64) :
    (@unpackExponent Format.binary64 b).toNat = b.toNat / 2 ^ 52 % 2 ^ 11 := by
  simp only [unpackExponent, BitVec.toNat_cast, BitVec.extractLsb_toNat]
  simp [Nat.shiftRight_eq_div_pow]

private theorem unpackSign_toNat (b : BitVec 64) :
    (@unpackSign Format.binary64 b).toNat = b.toNat / 2 ^ 63 := by
  have hb := b.isLt
  simp only [unpackSign, BitVec.toNat_cast, BitVec.extractLsb_toNat]
  simp [Nat.shiftRight_eq_div_pow]
  omega

private theorem packComponents_toNat (s : Sign) (e : BitVec 11) (m : BitVec 52) :
    (packComponents Format.binary64 s e m).toNat =
      s.toBitVec.toNat * 2 ^ 63 + e.toNat * 2 ^ 52 + m.toNat := by
  have hm := m.isLt
  have he := e.isLt
  simp only [packComponents, BitVec.toNat_append]
  rw [← Nat.shiftLeft_add_eq_or_of_lt m.isLt, ← Nat.shiftLeft_add_eq_or_of_lt e.isLt]
  simp [Nat.shiftLeft_eq]
  omega

def signOf (b : BitVec 64) : Sign := if b.toNat < 2 ^ 63 then .positive else .negative

private theorem ofBitVec_unpackSign (b : BitVec 64) :
    Sign.ofBitVec (@unpackSign Format.binary64 b) = signOf b := by
  have hsign := unpackSign_toNat b
  have hzero : @unpackSign Format.binary64 b = 0#1 ↔ b.toNat < 2 ^ 63 := by
    rw [← BitVec.toNat_inj, hsign]
    simp only [BitVec.toNat_ofNat]
    omega
  simp only [Sign.ofBitVec, hzero, signOf]

private theorem signOf_toNat (b : BitVec 64) : (signOf b).toBitVec.toNat = b.toNat / 2 ^ 63 := by
  have hb := b.isLt
  unfold signOf
  split
  · simp only [Sign.toBitVec, BitVec.toNat_ofNat]
    omega
  · simp only [Sign.toBitVec, BitVec.toNat_ofNat]
    omega

private theorem finite_congr {s : Sign} {m m' : Nat} {e e' : Int} {hm : 0 < m} (hm' : 0 < m')
    (h : m = m') (he : e = e') : UnpackedFloat.finite s m e hm = .finite s m' e' hm' := by
  subst h he
  rfl

private theorem implicit_toNat (m : BitVec 52) : (1#1 ++ m).toNat = 2 ^ 52 + m.toNat := by
  rw [BitVec.toNat_append, ← Nat.shiftLeft_add_eq_or_of_lt m.isLt]
  rfl

/-! The four kinds of bit patterns. -/

section
variable {b : BitVec 64}

private theorem unpackExponent_eq_ones :
    @unpackExponent Format.binary64 b = -1#11 ↔ 2047 * 2 ^ 52 ≤ b.toNat % 2 ^ 63 := by
  rw [← BitVec.toNat_inj, unpackExponent_toNat, BitVec.neg_one_eq_allOnes, BitVec.toNat_allOnes]
  change _ = 2 ^ 11 - 1 ↔ _
  omega

private theorem unpackExponent_eq_zero :
    @unpackExponent Format.binary64 b = 0#11 ↔ b.toNat % 2 ^ 63 < 2 ^ 52 := by
  rw [← BitVec.toNat_inj, unpackExponent_toNat]
  simp only [BitVec.toNat_ofNat]
  omega

private theorem unpackMantissa_eq_zero :
    @unpackMantissa Format.binary64 b = 0#52 ↔ b.toNat % 2 ^ 52 = 0 := by
  rw [← BitVec.toNat_inj, unpackMantissa_toNat]
  simp

theorem unpack_nan (h : 2047 * 2 ^ 52 < b.toNat % 2 ^ 63) :
    unpack Format.binary64 b = .notANumber := by
  have hexponent := unpackExponent_eq_ones.mpr (Nat.le_of_lt h)
  have hmantissa : @unpackMantissa Format.binary64 b ≠ 0#52 := by
    rw [ne_eq, unpackMantissa_eq_zero]
    omega
  simp only [unpack, hexponent, hmantissa, if_true, if_false]

theorem unpack_infinity (h : b.toNat % 2 ^ 63 = 2047 * 2 ^ 52) :
    unpack Format.binary64 b = .infinity (signOf b) := by
  have hexponent := unpackExponent_eq_ones.mpr (Nat.le_of_eq h.symm)
  have hmantissa := unpackMantissa_eq_zero (b := b).mpr (by omega)
  simp only [unpack, hexponent, hmantissa, if_true, ofBitVec_unpackSign]

theorem unpack_zero (h : b.toNat % 2 ^ 63 = 0) :
    unpack Format.binary64 b = .zero (signOf b) := by
  have hexponent := unpackExponent_eq_zero (b := b).mpr (by omega)
  have hmantissa := unpackMantissa_eq_zero (b := b).mpr (by omega)
  have hones : ¬ (0#11 = -1#11) := by decide
  simp only [unpack, hexponent, hmantissa, hones, if_true, if_false, dif_pos, ofBitVec_unpackSign]

/-- Finite patterns that are not zero count their significand in a power of two of least units. -/
theorem unpack_finite (hpos : 0 < b.toNat % 2 ^ 63) (h : b.toNat % 2 ^ 63 < 2047 * 2 ^ 52) :
    ∃ (scale significand : Nat) (hs : 0 < significand),
      significand < 2 ^ 53 ∧ (2 ^ 52 ≤ significand ∨ scale = 0) ∧
        b.toNat % 2 ^ 63 = scale * 2 ^ 52 + significand ∧
        unpack Format.binary64 b = .finite (signOf b) significand (scale - 1074) hs := by
  have hones : ¬ @unpackExponent Format.binary64 b = -1#11 := by
    rw [unpackExponent_eq_ones]
    omega
  by_cases hsubnormal : b.toNat % 2 ^ 63 < 2 ^ 52
  · have hexponent := unpackExponent_eq_zero.mpr hsubnormal
    have hmantissa : @unpackMantissa Format.binary64 b ≠ 0#52 := by
      rw [ne_eq, unpackMantissa_eq_zero]
      omega
    refine ⟨0, b.toNat % 2 ^ 63, hpos, by omega, .inr rfl, by omega, ?_⟩
    rw [unpack, if_neg hones, if_pos hexponent, dif_neg hmantissa, ofBitVec_unpackSign]
    apply finite_congr
    · rw [unpackMantissa_toNat]
      omega
    · rw [unpackExponent_toNat]
      change ((b.toNat / 2 ^ 52 % 2 ^ 11 : Nat) : Int) - (1023 + 52) + 1 = _
      omega
  · have hexponent : ¬ @unpackExponent Format.binary64 b = 0#11 := by
      rw [unpackExponent_eq_zero]
      omega
    refine ⟨b.toNat / 2 ^ 52 % 2 ^ 11 - 1, 2 ^ 52 + b.toNat % 2 ^ 52, by omega, by omega,
      .inl (by omega), by omega, ?_⟩
    rw [unpack, if_neg hones, if_neg hexponent, ofBitVec_unpackSign]
    apply finite_congr
    · rw [implicit_toNat, unpackMantissa_toNat]
    · rw [unpackExponent_toNat]
      change ((b.toNat / 2 ^ 52 % 2 ^ 11 : Nat) : Int) - (1023 + 52) = _
      omega

/-- Packing undoes unpacking; a significand that is too large for its scale becomes infinity. -/
theorem pack_finite (s : Sign) {scale significand : Nat} (hs : 0 < significand)
    (hhigh : significand < 2 ^ 53) (hlow : 2 ^ 52 ≤ significand ∨ scale = 0) :
    (pack Format.binary64 (.finite s significand (scale - 1074) hs)).toNat =
      s.toBitVec.toNat * 2 ^ 63 + min (scale * 2 ^ 52 + significand) (2047 * 2 ^ 52) := by
  have hbiased : ((scale : Int) - 1074 + (Format.binary64.exponentBias : Nat) +
      (Format.binary64.mantissaBitsWithoutImplicit : Nat)).toNat = scale + 1 := by
    change ((scale : Int) - 1074 + 1023 + 52).toNat = scale + 1
    omega
  simp only [pack, hbiased]
  split
  · next hlarge =>
    have hlarge : 2 ^ 11 ≤ scale + 1 + 1 := hlarge
    rw [packedInfinity, packComponents_toNat]
    change _ * 2 ^ 63 + (2 ^ 11 - 1) * 2 ^ 52 + 0 = _
    omega
  · next hsmall =>
    have hsmall : ¬ 2 ^ 11 ≤ scale + 1 + 1 := hsmall
    split
    · next hnormal =>
      have hnormal : significand.log2 = 52 := Nat.succ.inj hnormal
      have hle := (Nat.log2_eq_iff (Nat.ne_of_gt hs)).mp hnormal
      rw [packComponents_toNat, BitVec.toNat_ofNat, BitVec.toNat_ofNat]
      change _ * 2 ^ 63 + (scale + 1) % 2 ^ 11 * 2 ^ 52 + significand % 2 ^ 52 = _
      omega
    · next hsubnormal =>
      have hne : ¬ significand.log2 = 52 := fun h => hsubnormal (congrArg Nat.succ h)
      rw [Nat.log2_eq_iff (Nat.ne_of_gt hs)] at hne
      rw [packComponents_toNat, BitVec.toNat_ofNat]
      change _ * 2 ^ 63 + 0 * 2 ^ 52 + significand % 2 ^ 52 = _
      omega

theorem pack_unpack (h : b.toNat % 2 ^ 63 ≤ 2047 * 2 ^ 52) :
    pack Format.binary64 (unpack Format.binary64 b) = b := by
  have hb := b.isLt
  apply BitVec.eq_of_toNat_eq
  rcases Nat.eq_or_lt_of_le h with hinfinity | hfinite
  · rw [unpack_infinity hinfinity, pack, packedInfinity, packComponents_toNat, signOf_toNat]
    change _ * 2 ^ 63 + (2 ^ 11 - 1) * 2 ^ 52 + 0 = _
    omega
  · rcases Nat.eq_zero_or_pos (b.toNat % 2 ^ 63) with hzero | hpos
    · rw [unpack_zero hzero, pack, packedZero, packComponents_toNat, signOf_toNat]
      change _ * 2 ^ 63 + 0 * 2 ^ 52 + 0 = _
      omega
    · obtain ⟨scale, significand, hs, hhigh, hlow, hcode, hunpack⟩ := unpack_finite hpos hfinite
      rw [hunpack, pack_finite (signOf b) hs hhigh hlow, signOf_toNat]
      omega

end

theorem toBits_ofBits {bits : UInt64}
    (h : bits.toNat % BinaryFormat.double.signWeight ≤ BinaryFormat.double.infinityCode) :
    (Float.ofBits bits).toBits = bits := by
  rw [double_signWeight, double_infinityCode] at h
  exact congrArg UInt64.ofBitVec (pack_unpack h)

/-- Codes up to that of infinity are the bits of the nonnegative doubles. -/
theorem toNat_toBits_ofCode {code : Nat} (h : code ≤ BinaryFormat.double.infinityCode) :
    (Float.ofBits (UInt64.ofNat code)).toBits.toNat = code := by
  have hlt : code < UInt64.size := Nat.lt_of_le_of_lt h (by decide)
  have hbits : (UInt64.ofNat code).toNat = code := UInt64.toNat_ofNat_of_lt' hlt
  rw [toBits_ofBits, hbits]
  rw [hbits]
  exact Nat.le_trans (Nat.mod_le _ _) h

theorem doubleCode_ofCode {code : Nat} (h : code ≤ BinaryFormat.double.infinityCode) :
    doubleCode (Float.ofBits (UInt64.ofNat code)) = code := by
  rw [doubleCode, toNat_toBits_ofCode h]
  exact Nat.mod_eq_of_lt (Nat.lt_of_le_of_lt h double_infinityCode_lt)

theorem not_hasSign_ofCode {code : Nat} (h : code ≤ BinaryFormat.double.infinityCode) :
    ¬ hasSign (Float.ofBits (UInt64.ofNat code)) := by
  rw [hasSign, toNat_toBits_ofCode h]
  exact Nat.not_le_of_lt (Nat.lt_of_le_of_lt h double_infinityCode_lt)

/-- A double that is a number or infinite is its sign above its code. -/
theorem eq_ofBits {x : Float} (hcode : doubleCode x ≤ BinaryFormat.double.infinityCode) :
    x = Float.ofBits (UInt64.ofNat
      (if hasSign x then BinaryFormat.double.signWeight + doubleCode x else doubleCode x)) := by
  have hbits : (if hasSign x then BinaryFormat.double.signWeight + doubleCode x
      else doubleCode x) = x.toBits.toNat := by
    have hlt := x.toBits.toNat_lt
    rw [doubleCode, double_signWeight]
    split
    · next hsign =>
      have hhigh : 2 ^ 63 ≤ x.toBits.toNat := hsign
      omega
    · next hsign =>
      have hlow : ¬ 2 ^ 63 ≤ x.toBits.toNat := hsign
      omega
  apply toBits_inj
  rw [hbits, UInt64.ofNat_toNat, toBits_ofBits hcode]

theorem eq_ofCode {x : Float} (h : ¬ hasSign x)
    (hcode : doubleCode x ≤ BinaryFormat.double.infinityCode) :
    x = Float.ofBits (UInt64.ofNat (doubleCode x)) := by
  have hbits := eq_ofBits hcode
  rwa [if_neg h] at hbits

/-- The infinite doubles by their bits. -/
theorem ofBits_infinity (negative : Bool) :
    Float.ofBits (UInt64.ofNat (if negative then
        BinaryFormat.double.signWeight + BinaryFormat.double.infinityCode
      else BinaryFormat.double.infinityCode)) = if negative then -(1.0 / 0.0) else 1.0 / 0.0 := by
  apply toBits_inj
  revert negative
  decide +kernel

/-- There is one double that is no number. -/
theorem nan_unique {x y : Float} (hx : BinaryFormat.double.infinityCode < doubleCode x)
    (hy : BinaryFormat.double.infinityCode < doubleCode y) : x = y := by
  have hbits {z : Float} (hz : BinaryFormat.double.infinityCode < doubleCode z) :
      z.toBits.toBitVec = packedNaN Format.binary64 := by
    rw [doubleCode, double_signWeight, double_infinityCode] at hz
    refine z.toModel.valid.eq_packedNaN (unpackExponent_eq_ones.mpr (Nat.le_of_lt hz)) ?_
    rw [ne_eq, unpackMantissa_eq_zero]
    change 2047 * 2 ^ 52 < z.toModel.toBits.toBitVec.toNat % 2 ^ 63 at hz
    omega
  exact toBits_inj (UInt64.toBitVec_inj.mp ((hbits hx).trans (hbits hy).symm))

private theorem zero_unpack : (0.0 : Float).toModel.unpack = .zero .positive := rfl

private theorem lt_iff_compare (x y : Float) :
    x < y ↔ x.toModel.unpack.compare y.toModel.unpack = some .lt := by
  change decide ((x.toModel.unpack.compare y.toModel.unpack == some .lt) = true) = true ↔ _
  simp

private theorem beq_iff_compare (x y : Float) :
    (x == y) = true ↔ x.toModel.unpack.compare y.toModel.unpack = some .eq := by
  change (x.toModel.unpack.compare y.toModel.unpack == some .eq) = true ↔ _
  simp

section
variable {x : Float}

/-- The code decides the kind of a double. -/
private theorem unpack_cases (x : Float) : ∃ s, (hasSign x ↔ s = .negative) ∧
    (BinaryFormat.double.infinityCode < doubleCode x ∧ x.toModel.unpack = .notANumber ∨
      doubleCode x = BinaryFormat.double.infinityCode ∧ x.toModel.unpack = .infinity s ∨
      doubleCode x = 0 ∧ x.toModel.unpack = .zero s ∨
      (0 < doubleCode x ∧ doubleCode x < BinaryFormat.double.infinityCode) ∧
        ∃ m e hm, x.toModel.unpack = .finite s m e hm) := by
  have hsign : hasSign x ↔ signOf x.toBits.toBitVec = .negative := by
    simp only [hasSign, double_signWeight, signOf]
    split
    · next h => simpa using h
    · next h => simpa using h
  refine ⟨signOf x.toBits.toBitVec, hsign, ?_⟩
  rw [doubleCode, double_signWeight, double_infinityCode]
  rcases Nat.lt_trichotomy (x.toBits.toNat % 2 ^ 63) (2047 * 2 ^ 52) with hlt | heq | hgt
  · rcases Nat.eq_zero_or_pos (x.toBits.toNat % 2 ^ 63) with hzero | hpos
    · exact .inr (.inr (.inl ⟨hzero, unpack_zero hzero⟩))
    · obtain ⟨scale, m, hm, -, -, -, hunpack⟩ := unpack_finite hpos hlt
      exact .inr (.inr (.inr ⟨⟨hpos, hlt⟩, m, scale - 1074, hm, hunpack⟩))
  · exact .inr (.inl ⟨heq, unpack_infinity heq⟩)
  · exact .inl ⟨hgt, unpack_nan hgt⟩

private theorem double_infinityCode_pos : 0 < BinaryFormat.double.infinityCode := by decide

theorem isNaN_iff : x.isNaN = true ↔ BinaryFormat.double.infinityCode < doubleCode x := by
  change x.toModel.unpack.isNaN = true ↔ _
  obtain ⟨s, -, ⟨hc, h⟩ | ⟨hc, h⟩ | ⟨hc, h⟩ | ⟨hc, m, e, hm, h⟩⟩ := unpack_cases x <;>
    simp [h, UnpackedFloat.isNaN] <;> omega

theorem isInf_iff : x.isInf = true ↔ doubleCode x = BinaryFormat.double.infinityCode := by
  have hpos := double_infinityCode_pos
  change x.toModel.unpack.isInf = true ↔ _
  obtain ⟨s, -, ⟨hc, h⟩ | ⟨hc, h⟩ | ⟨hc, h⟩ | ⟨hc, m, e, hm, h⟩⟩ := unpack_cases x <;>
    simp [h, UnpackedFloat.isInf] <;> omega

theorem isFinite_iff : x.isFinite = true ↔ doubleCode x < BinaryFormat.double.infinityCode := by
  have hpos := double_infinityCode_pos
  change x.toModel.unpack.isFinite = true ↔ _
  obtain ⟨s, -, ⟨hc, h⟩ | ⟨hc, h⟩ | ⟨hc, h⟩ | ⟨hc, m, e, hm, h⟩⟩ := unpack_cases x <;>
    simp [h, UnpackedFloat.isFinite] <;> omega

theorem zero_lt_iff : 0.0 < x ↔
    ¬ hasSign x ∧ 0 < doubleCode x ∧ doubleCode x ≤ BinaryFormat.double.infinityCode := by
  have hpos := double_infinityCode_pos
  rw [lt_iff_compare, zero_unpack]
  obtain ⟨s, hs, ⟨hc, h⟩ | ⟨hc, h⟩ | ⟨hc, h⟩ | ⟨hc, m, e, hm, h⟩⟩ := unpack_cases x <;>
    cases s <;> simp [h, hs, UnpackedFloat.compare] <;> omega

theorem lt_zero_iff : x < 0.0 ↔
    hasSign x ∧ 0 < doubleCode x ∧ doubleCode x ≤ BinaryFormat.double.infinityCode := by
  have hpos := double_infinityCode_pos
  rw [lt_iff_compare, zero_unpack]
  obtain ⟨s, hs, ⟨hc, h⟩ | ⟨hc, h⟩ | ⟨hc, h⟩ | ⟨hc, m, e, hm, h⟩⟩ := unpack_cases x <;>
    cases s <;> simp [h, hs, UnpackedFloat.compare] <;> omega

theorem beq_zero_iff : (x == 0.0) = true ↔ doubleCode x = 0 := by
  have hpos := double_infinityCode_pos
  rw [beq_iff_compare, zero_unpack]
  obtain ⟨s, hs, ⟨hc, h⟩ | ⟨hc, h⟩ | ⟨hc, h⟩ | ⟨hc, m, e, hm, h⟩⟩ := unpack_cases x <;>
    cases s <;> simp [h, UnpackedFloat.compare] <;> omega

theorem beq_self_iff : (x == x) = true ↔ doubleCode x ≤ BinaryFormat.double.infinityCode := by
  have hpos := double_infinityCode_pos
  have hsame (s : Sign) : compare s s = .eq := by cases s <;> rfl
  rw [beq_iff_compare]
  obtain ⟨s, hs, ⟨hc, h⟩ | ⟨hc, h⟩ | ⟨hc, h⟩ | ⟨hc, m, e, hm, h⟩⟩ := unpack_cases x <;>
    cases s <;> simp [h, hsame, UnpackedFloat.compare] <;> omega

end

end Fluxion
