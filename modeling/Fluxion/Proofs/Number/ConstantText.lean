import Fluxion.Expr.Render
import Fluxion.Number.Literal
import Fluxion.Proofs.Number.Positional
import Fluxion.Proofs.Number.WordConversion

/-! The text of a finite double is a decimal that rounds back to it, behind a minus if the double is
less than zero. -/
namespace Fluxion

private theorem double_exponentBits : 1 < BinaryFormat.double.exponentBits := by decide

theorem Decimal.ofPlain?_exponent {cs : List Char} {d : Decimal} (h : ofPlain? cs = some d)
    (hpoint : cs.contains '.' = false) : d.exponent = 0 := by
  unfold ofPlain? at h
  dsimp only at h
  split at h
  · split at h
    · cases h
    · cases h
      rfl
  · next c fraction hdrop =>
    split at h
    · next hc =>
      have hmem : '.' ∈ cs := by
        apply (List.dropWhile_suffix Char.isDigit).subset
        rw [hdrop, hc.1]
        exact List.mem_cons_self
      simp [hmem] at hpoint
    · cases h

/-- Decimals of one value give one double. -/
theorem Decimal.toDouble_congr {d d' : Decimal} (negative : Bool) (h : d.value = d'.value) :
    d.toDouble negative = d'.toDouble negative := by
  rw [toDouble, toDouble, round_congr double_exponentBits h]

/-- A machine word is converted as the decimal without a fraction is. -/
theorem toFloat_eq_toDouble (n : UInt64) : n.toFloat = Decimal.toDouble false ⟨n.toNat, 0⟩ := by
  have hround : Decimal.round .double ⟨n.toNat, 0⟩ =
      BinaryFormat.double.roundUnits (n.toNat * 2 ^ BinaryFormat.double.unitPower) 1 := by
    have := Decimal.round_whole double_exponentBits n.toNat 0
    rwa [Nat.pow_zero, Nat.mul_one] at this
  simp only [toFloat_eq_ofBits, Decimal.toDouble, hround, Bool.false_eq_true, if_false]

/-- Whole numbers that fit a machine word have the value that they have as decimals. -/
theorem literalValue?_eq (cs : List Char) :
    literalValue? cs = (Decimal.ofPlain? cs).map (Decimal.toDouble false) := by
  cases hplain : Decimal.ofPlain? cs with
  | none => simp [literalValue?, hplain]
  | some d =>
    rw [literalValue?, hplain, Option.map_some, Option.map_some]
    split
    · next h =>
      obtain ⟨hpoint, hsmall⟩ := Bool.and_eq_true_iff.mp h
      have hexponent := Decimal.ofPlain?_exponent hplain (by simpa using hpoint)
      have hword : (UInt64.ofNat d.coefficient).toNat = d.coefficient :=
        UInt64.toNat_ofNat_of_lt' (Nat.lt_trans (by simpa using hsmall) (by decide))
      obtain ⟨coefficient, exponent⟩ := d
      obtain rfl : exponent = 0 := hexponent
      rw [toFloat_eq_toDouble, hword]
    · rfl

/-- The text of a decimal, taken as a literal, has the value that the decimal rounds to. -/
theorem literalValue?_text (d : Decimal) :
    literalValue? d.text.toList = some (d.toDouble false) := by
  obtain ⟨d', hplain, hvalue, -⟩ := d.ofPlain?_text
  rw [literalValue?_eq, hplain, Option.map_some, Decimal.toDouble_congr false hvalue]

namespace BinaryFormat
variable {f : BinaryFormat}

theorem round_neighbour? {code : Nat} {exponent : Int} {d : Decimal}
    (h : f.neighbour? code exponent = some d) : d.round f = code := by
  unfold neighbour? at h
  grind

theorem exactDecimal_value (code : Nat) : (f.exactDecimal code).value = f.value code := by
  have hten : (10 : ℚ) = 2 * 5 := by norm_num
  rw [exactDecimal, Decimal.value, value, zpow_neg, zpow_natCast, hten, mul_pow]
  push_cast
  field_simp

/-- The shortest decimal of a finite code rounds to that code. -/
theorem round_shortest (hf : 1 < f.exponentBits) {code : Nat} (h : code < f.infinityCode) :
    (f.shortest code).round f = code := by
  rw [shortest]
  cases hfind : (List.range 17).findSome? fun (extra : Nat) =>
      f.neighbour? code (f.leadingExponent code - extra) with
  | none => exact Decimal.round_of_value_eq hf h (exactDecimal_value code)
  | some d =>
    obtain ⟨extra, -, hd⟩ := List.exists_of_findSome?_eq_some hfind
    exact round_neighbour? hd

end BinaryFormat

theorem Decimal.round_le_infinityCode (f : BinaryFormat) (d : Decimal) :
    d.round f ≤ f.infinityCode := by
  have hunits (num den : Nat) : f.roundUnits num den ≤ f.infinityCode := Nat.min_le_right _ _
  unfold round
  split
  · split
    · exact Nat.zero_le _
    · split
      · exact Nat.le_refl _
      · exact hunits _ _
  · split
    · exact Nat.zero_le _
    · exact hunits _ _

/-- Literals have nonnegative values, which may be infinite. -/
theorem literalValue?_nonnegative {cs : List Char} {x : Float} (h : literalValue? cs = some x) :
    ¬ hasSign x ∧ doubleCode x ≤ BinaryFormat.double.infinityCode := by
  rw [literalValue?_eq] at h
  obtain ⟨d, -, rfl⟩ := Option.map_eq_some_iff.mp h
  have hle := d.round_le_infinityCode .double
  simp only [Decimal.toDouble, Bool.false_eq_true, if_false]
  rw [doubleCode_ofCode hle]
  exact ⟨not_hasSign_ofCode hle, hle⟩

private theorem units_zero : BinaryFormat.double.units 0 = 0 := by decide

private theorem units_pos {code : Nat} (hpos : 0 < code)
    (h : code < BinaryFormat.double.infinityCode) : 0 < BinaryFormat.double.units code := by
  rcases Nat.eq_zero_or_pos (BinaryFormat.double.units code) with hzero | hunits
  · have hround := BinaryFormat.roundUnits_units h
    rw [hzero, BinaryFormat.roundUnits_of_lt_half (by decide)] at hround
    omega
  · exact hunits

private theorem lt_zero_iff_hasSign {x : Float} (hpos : 0 < doubleCode x)
    (h : doubleCode x < BinaryFormat.double.infinityCode) : x < 0.0 ↔ hasSign x := by
  rw [lt_zero_iff]
  exact ⟨fun hx => hx.1, fun hs => ⟨hs, hpos, Nat.le_of_lt h⟩⟩

private theorem toString_neg {n : Nat} (h : 0 < n) : toString (-(n : Int)) = "-" ++ toString n := by
  cases n with
  | zero => exact absurd h (Nat.lt_irrefl 0)
  | succ n => rfl

/-- A small integer is a whole number of ones, with the sign of the double. -/
private theorem smallInteger?_eq_some {x : Float} {n : Int} (h : smallInteger? x = some n) :
    ∃ whole : Nat, n = (if hasSign x then -(whole : Int) else whole) ∧
      BinaryFormat.double.units (doubleCode x) = whole * 2 ^ BinaryFormat.double.unitPower := by
  unfold smallInteger? at h
  dsimp only at h
  split at h
  · next hsmall =>
    have hdvd := Nat.dvd_of_mod_eq_zero hsmall.2.1
    exact ⟨_, (Option.some.inj h).symm, (Nat.div_mul_cancel hdvd).symm⟩
  · cases h

private theorem smallInteger?_of_zero {x : Float} (h : doubleCode x = 0) :
    (smallInteger? x).isSome := by
  have hbits : x.toBits.toNat % BinaryFormat.double.signWeight = 0 := h
  rw [smallInteger?, hbits, units_zero, Nat.zero_mod, Nat.zero_div, if_pos]
  · rfl
  · exact ⟨by decide, rfl, by decide⟩

/-- A small integer is written as one, without a minus if it is zero. -/
private theorem toString_smallInteger {x : Float}
    (h : doubleCode x < BinaryFormat.double.infinityCode) {n : Int}
    (hn : smallInteger? x = some n) :
    ∃ d : Decimal, d.round .double = doubleCode x ∧
      toString n = (if x < 0.0 then "-" else "") ++ d.text := by
  obtain ⟨whole, rfl, hunits⟩ := smallInteger?_eq_some hn
  have hvalue : Decimal.value ⟨whole, 0⟩ = BinaryFormat.double.value (doubleCode x) := by
    rw [Decimal.value, BinaryFormat.value, hunits]
    push_cast
    field_simp
  have htext : Decimal.text ⟨whole, 0⟩ = toString whole := by simp [Decimal.text]
  refine ⟨⟨whole, 0⟩, Decimal.round_of_value_eq double_exponentBits h hvalue, ?_⟩
  rw [htext]
  rcases Nat.eq_zero_or_pos (doubleCode x) with hzero | hpos
  · have hnone : ¬ x < 0.0 := by
      rw [lt_zero_iff]
      omega
    have hwhole : whole = 0 := by
      rw [hzero, units_zero] at hunits
      exact (Nat.mul_eq_zero.mp hunits.symm).resolve_right (Nat.two_pow_pos _).ne'
    rw [if_neg hnone, hwhole]
    split <;> rfl
  · have hwhole : 0 < whole := by
      have hunitsPos := units_pos hpos h
      rw [hunits] at hunitsPos
      exact Nat.pos_of_mul_pos_right hunitsPos
    have hsign := lt_zero_iff_hasSign hpos h
    by_cases hs : hasSign x
    · rw [if_pos hs, if_pos (hsign.mpr hs)]
      exact toString_neg hwhole
    · rw [if_neg hs, if_neg (mt hsign.mp hs)]
      exact String.empty_append.symm

def magnitudeText (code : Nat) : String :=
  if code = BinaryFormat.double.infinityCode then "inf"
  else if code = 0 then "0"
  else (BinaryFormat.double.shortest code).text

theorem doubleText_nan {x : Float} (h : BinaryFormat.double.infinityCode < doubleCode x) :
    doubleText x = "NaN" := if_pos h

theorem doubleText_number {x : Float} (h : doubleCode x ≤ BinaryFormat.double.infinityCode) :
    doubleText x = (if hasSign x then "-" else "") ++ magnitudeText (doubleCode x) := by
  have hnumber : ¬ BinaryFormat.double.infinityCode < doubleCode x := Nat.not_lt_of_le h
  refine (if_neg hnumber).trans ?_
  change (if hasSign x then "-" ++ magnitudeText (doubleCode x)
    else magnitudeText (doubleCode x)) = _
  split
  · rfl
  · exact String.empty_append.symm

private theorem doubleText_eq {x : Float} (h : doubleCode x < BinaryFormat.double.infinityCode)
    (hn : smallInteger? x = none) :
    doubleText x = (if x < 0.0 then "-" else "") ++
      (BinaryFormat.double.shortest (doubleCode x)).text := by
  have hpos : 0 < doubleCode x := by
    rcases Nat.eq_zero_or_pos (doubleCode x) with hzero | hpos
    · have hsome := smallInteger?_of_zero hzero
      rw [hn] at hsome
      cases hsome
    · exact hpos
  have hinf : ¬ doubleCode x = BinaryFormat.double.infinityCode := by omega
  have hzero : ¬ doubleCode x = 0 := by omega
  rw [doubleText_number (Nat.le_of_lt h), magnitudeText, if_neg hinf, if_neg hzero]
  congr 1
  exact if_congr (lt_zero_iff_hasSign hpos h).symm rfl rfl

/-- The text of a finite double is a decimal that rounds back to it, behind a minus if the double is
less than zero. -/
theorem constantText_finite {x : Float} (h : doubleCode x < BinaryFormat.double.infinityCode) :
    ∃ d : Decimal, d.round .double = doubleCode x ∧
      constantText x = (if x < 0.0 then "-" else "") ++ d.text := by
  have hnan : ¬ x.isNaN = true := by
    rw [isNaN_iff]
    omega
  have hinf : ¬ x.isInf = true := by
    rw [isInf_iff]
    omega
  rw [constantText, if_neg hnan, if_neg hinf]
  cases hn : smallInteger? x with
  | some n => exact toString_smallInteger h hn
  | none => exact ⟨_, BinaryFormat.round_shortest double_exponentBits h, doubleText_eq h hn⟩

end Fluxion
