import Fluxion.Proofs.Number.DoubleSyntax
import Fluxion.Proofs.Number.NearestDouble
import Fluxion.Proofs.Parser.Exactness

/-! Number tokens: which texts denote a number, the number that they denote, and the double that the
parser takes for it. -/
namespace Fluxion
open Fluxion.Parser

def digitOf (c : Char) : Nat := c.toNat - '0'.toNat

/-- The number that digits denote by their places, with powers of ten before the first point and
powers of a tenth behind it. -/
def numeralValue (cs : List Char) : ℚ :=
  let whole := cs.takeWhile (· ≠ '.')
  let fraction := (cs.dropWhile (· ≠ '.')).tail
  Nat.ofDigits 10 (whole.map digitOf).reverse + Nat.ofDigits 10⁻¹ (0 :: fraction.map digitOf)

theorem digitsValue_eq_ofDigits (digits : List Char) :
    digitsValue digits = Nat.ofDigits 10 (digits.map digitOf).reverse := by
  induction digits using List.reverseRecOn with
  | nil => rfl
  | append_singleton digits c ih =>
    rw [digitsValue_append, ih]
    simp [digitsValue, digitOf, Nat.ofDigits_cons, Nat.add_comm]

/-- Digits behind a point are the whole number that they make, moved back by their count. -/
theorem ofDigits_fraction (digits : List Char) :
    Nat.ofDigits (10⁻¹ : ℚ) (0 :: digits.map digitOf) =
      digitsValue digits / 10 ^ digits.length := by
  induction digits with
  | nil => simp [digitsValue, Nat.ofDigits]
  | cons c digits ih =>
    have hcons : digitsValue (c :: digits) = 10 ^ digits.length * digitOf c + digitsValue digits := by
      rw [← List.singleton_append, digitsValue_append]
      simp [digitsValue, digitOf]
    rw [Nat.ofDigits, Nat.cast_zero, zero_add] at ih
    rw [List.map_cons, Nat.ofDigits, Nat.ofDigits, ih, hcons, List.length_cons]
    push_cast
    field_simp
    ring

section
variable {whole fraction : List Char} (h : ∀ c ∈ whole, c.isDigit = true)
include h

private theorem ne_point : ∀ c ∈ whole, decide (c ≠ '.') = true :=
  fun c hc => decide_eq_true (ne_point_of_isDigit (h c hc))

theorem numeralValue_digits : numeralValue whole = digitsValue whole := by
  have htake := List.takeWhile_eq_self_iff.mpr (ne_point h)
  have hdrop := List.dropWhile_eq_nil_iff.mpr (ne_point h)
  have hnone : Nat.ofDigits (10⁻¹ : ℚ) [0] = 0 := by simp [Nat.ofDigits]
  rw [numeralValue, htake, hdrop, List.tail_nil, List.map_nil, hnone, add_zero,
    digitsValue_eq_ofDigits, Nat.coe_ofDigits, Nat.cast_ofNat]

theorem numeralValue_point : numeralValue (whole ++ '.' :: fraction) =
    digitsValue whole + digitsValue fraction / 10 ^ fraction.length := by
  have htake : (whole ++ '.' :: fraction).takeWhile (· ≠ '.') = whole :=
    takeWhile_append_of_stop (List.all_eq_true.mpr (ne_point h)) (by simp)
  have hdrop : (whole ++ '.' :: fraction).dropWhile (· ≠ '.') = '.' :: fraction :=
    dropWhile_append_of_stop (List.all_eq_true.mpr (ne_point h)) (by simp)
  rw [numeralValue, htake, hdrop, List.tail_cons, ofDigits_fraction, digitsValue_eq_ofDigits whole,
    Nat.coe_ofDigits, Nat.cast_ofNat]

end

example : numeralValue "12.5".toList = 25 / 2 := by decide +kernel

/-- The decimal that a text is read as has the value that the text denotes. -/
theorem Decimal.ofPlain?_value {cs : List Char} {d : Decimal} (h : ofPlain? cs = some d) :
    d.value = numeralValue cs := by
  cases ofPlain?_isSome_iff.mp (Option.isSome_of_mem h) with
  | whole hdigits =>
    rw [ofPlain?_digits hdigits.1 hdigits.2] at h
    cases h
    rw [numeralValue_digits hdigits.2, value, zpow_zero, mul_one]
  | point hdigits =>
    obtain ⟨hwhole, hfraction⟩ := List.forall_mem_append.mp hdigits.2
    rw [ofPlain?_point hdigits.1 hwhole hfraction] at h
    cases h
    rw [numeralValue_point hwhole, value, digitsValue_append, zpow_neg, zpow_natCast]
    push_cast
    field_simp

section
variable {cs : List Char} {x : Float} (h : literalValue? cs = some x)
include h

/-- A literal has the value that its number is rounded to, however the text is converted. -/
theorem literalValue?_rounds : RoundsTo (numeralValue cs) x ∧ readDouble cs = .ok x ∧
    ∀ n : UInt64, numeralValue cs = n.toNat → n.toFloat = x := by
  rw [literalValue?_eq] at h
  obtain ⟨d, hplain, rfl⟩ := Option.map_eq_some_iff.mp h
  have hvalue := Decimal.ofPlain?_value hplain
  refine ⟨hvalue ▸ d.toDouble_roundsTo, readDouble_of_unsigned (unsignedDouble?_plain false hplain),
    fun n hn => ?_⟩
  rw [toFloat_eq_toDouble]
  apply Decimal.toDouble_congr
  rw [hvalue, hn, Decimal.value, zpow_zero, mul_one]

/-- A literal is a number, and neither below zero nor the negative zero. -/
theorem literalValue?_unsigned : ¬ x.isNaN ∧ ¬ x < 0.0 ∧ x ≠ -0.0 := by
  obtain ⟨hsign, hcode⟩ := literalValue?_nonnegative h
  have hnegative : hasSign (-0.0) := by decide +kernel
  refine ⟨?_, fun hlt => hsign (lt_zero_iff.mp hlt).1, ?_⟩
  · rw [isNaN_iff]
    exact Nat.not_lt_of_le hcode
  · rintro rfl
    exact hsign hnegative

end

/-- The fault of a number token, which spans its text. -/
theorem numberValue_eq_error_iff {token : Token} (h : isNumberText token.text.toList = true)
    (fault : Diagnostic) :
    numberValue token = .error fault ↔ 2 ≤ token.text.toList.count '.' ∧
      fault = .spanning .invalidNumber
        ⟨token.position, token.position + token.text.utf8ByteSize⟩ := by
  have hsome := literalValue?_isSome h
  unfold numberValue
  cases hvalue : literalValue? token.text.toList with
  | some x =>
    have hpoints := hsome.mp (Option.isSome_of_mem hvalue)
    simp only [reduceCtorEq, false_iff, not_and]
    omega
  | none =>
    rw [hvalue] at hsome
    have hpoints : 2 ≤ token.text.toList.count '.' := Nat.succ_le_of_lt (by simpa using hsome)
    simp only [hpoints, true_and, Except.error.injEq]
    exact eq_comm

/-- A number token is refused, over its whole length, exactly if it has two points or more. Any other
is taken as the double that the number which it denotes is rounded to, and no other double without a
sign is that. It is a number, not below zero and not the negative zero. The general reading of doubles
gives the same one for the text, and so does the conversion of a machine word of that number. -/
theorem numberValue_rounds (token : Token) (h : isNumberText token.text.toList = true) :
    (∀ fault, numberValue token = .error fault ↔ 2 ≤ token.text.toList.count '.' ∧
      fault = .spanning .invalidNumber
        ⟨token.position, token.position + token.text.utf8ByteSize⟩) ∧
    (token.text.toList.count '.' < 2 → ∃ x, numberValue token = .ok x ∧
      RoundsTo (numeralValue token.text.toList) x ∧
      (∀ y, RoundsTo (numeralValue token.text.toList) y → ¬ hasSign y → y = x) ∧
      (¬ x.isNaN ∧ ¬ x < 0.0 ∧ x ≠ -0.0) ∧
      readDouble token.text.toList = .ok x ∧
      ∀ n : UInt64, numeralValue token.text.toList = n.toNat → n.toFloat = x) := by
  refine ⟨numberValue_eq_error_iff h, fun hpoints => ?_⟩
  obtain ⟨x, hx⟩ := Option.isSome_iff_exists.mp
    ((literalValue?_isSome h).mpr (Nat.le_of_lt_succ hpoints))
  have hvalue : numberValue token = .ok x := by rw [numberValue, hx]
  obtain ⟨hround, hread, hword⟩ := literalValue?_rounds hx
  exact ⟨x, hvalue, hround,
    fun y hy hys => hy.unique hround hys (literalValue?_nonnegative hx).1,
    literalValue?_unsigned hx, hread, hword⟩

example : numberValue ⟨.number, "1.2.3", 5⟩ = .error (.spanning .invalidNumber ⟨5, 10⟩) := by decide

/-- A whole number of 54 bits lies halfway between two doubles, and goes to the even one. -/
theorem numberValue_rounds_tie :
    isNumberText "9007199254740993".toList = true ∧
      numberValue ⟨.number, "9007199254740993", 5⟩ = .ok 9007199254740992.0 ∧
      RoundsTo 9007199254740993 9007199254740992.0 ∧
      readDouble "9007199254740993".toList = .ok 9007199254740992.0 ∧
      (9007199254740993 : UInt64).toFloat = 9007199254740992.0 := by
  have hform : isNumberText "9007199254740993".toList = true := by decide
  obtain ⟨-, hvalue⟩ := numberValue_rounds ⟨.number, "9007199254740993", 5⟩ hform
  obtain ⟨x, hx, hround, -, -, hread, hword⟩ := hvalue (by decide)
  have hcomputed : numberValue ⟨.number, "9007199254740993", 5⟩ = .ok 9007199254740992.0 := by
    decide +kernel
  obtain rfl : x = 9007199254740992.0 := Except.ok.inj (hx.symm.trans hcomputed)
  have hnumber : numeralValue "9007199254740993".toList = 9007199254740993 := by decide +kernel
  rw [hnumber] at hround
  exact ⟨hform, hx, by exact_mod_cast hround, hread, hword 9007199254740993 hnumber⟩

end Fluxion
