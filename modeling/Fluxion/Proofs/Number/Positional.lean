import Mathlib.Data.List.TakeWhile
import Fluxion.Proofs.Number.DecimalValue
import Fluxion.Proofs.Token.Flow

/-! Positional notation loses nothing: the text of a decimal reads back as a decimal of the same
value. -/
namespace Fluxion

theorem digitsValue_append (ds es : List Char) :
    digitsValue (ds ++ es) = 10 ^ es.length * digitsValue ds + digitsValue es := by
  change Nat.ofDigitChars 10 (ds ++ es) 0 = _
  rw [Nat.ofDigitChars_append, Nat.ofDigitChars_eq_ofDigitChars_zero]
  rfl

theorem digitsValue_cons_digitChar {digit : Nat} (h : digit < 10) (ds : List Char) :
    digitsValue (Nat.digitChar digit :: ds) = 10 ^ ds.length * digit + digitsValue ds := by
  change Nat.ofDigitChars 10 (Nat.digitChar digit :: ds) 0 = _
  rw [Nat.ofDigitChars_cons_digitChar_of_lt_ten h, Nat.ofDigitChars_eq_ofDigitChars_zero]
  simp [digitsValue, Nat.ofDigitChars]

theorem digitsValue_toString (n : Nat) : digitsValue (toString n).toList = n := by
  rw [Nat.toString_eq_repr, Nat.toList_repr]
  exact Nat.ofDigitChars_ten_toDigits

theorem isDigit_of_mem_toString {n : Nat} {c : Char} (h : c ∈ (toString n).toList) :
    c.isDigit = true := by
  rw [Nat.toString_eq_repr, Nat.toList_repr] at h
  exact Nat.isDigit_of_mem_toDigits (by decide) (by decide) h

theorem toString_toList_ne_nil (n : Nat) : (toString n).toList ≠ [] := by
  rw [Nat.toString_eq_repr, Nat.toList_repr]
  exact Nat.toDigits_ne_nil

theorem isNumberText_append {whole rest : List Char} (hne : whole ≠ [])
    (hwhole : ∀ c ∈ whole, c.isDigit = true) (hrest : ∀ c ∈ rest, continuesNumber c = true) :
    isNumberText (whole ++ rest) = true := by
  cases whole with
  | nil => exact absurd rfl hne
  | cons first digits =>
    have hfirst : first.isDigit = true := hwhole first (by simp)
    have hdigits : ∀ c ∈ digits, continuesNumber c = true := by
      intro c hc
      simp [continuesNumber, hwhole c (by simp [hc])]
    simp only [List.cons_append, isNumberText, hfirst, Bool.true_and, List.all_append,
      Bool.and_eq_true, List.all_eq_true]
    exact ⟨hdigits, hrest⟩

namespace Decimal

theorem isDigit_of_mem_fractionDigits {places value : Nat} (h : value < 10 ^ places) {c : Char}
    (hc : c ∈ fractionDigits places value) : c.isDigit = true := by
  induction places generalizing value with
  | zero => simp [fractionDigits] at hc
  | succ places ih =>
    unfold fractionDigits at hc
    split at hc
    · simp at hc
    · have hdigit : value / 10 ^ places < 10 := by
        rw [Nat.div_lt_iff_lt_mul (Nat.pow_pos (by decide)), ← Nat.pow_succ']
        exact h
      rcases List.mem_cons.mp hc with rfl | hc
      · simpa [Nat.isDigit_digitChar] using hdigit
      · exact ih (Nat.mod_lt _ (Nat.pow_pos (by decide))) hc

/-- The digits behind the point are worth the fraction that they were made from. -/
theorem fractionDigits_value {places value : Nat} (h : value < 10 ^ places) :
    ∃ dropped, places = (fractionDigits places value).length + dropped ∧
      value = digitsValue (fractionDigits places value) * 10 ^ dropped := by
  induction places generalizing value with
  | zero => exact ⟨0, rfl, by simp_all [fractionDigits, digitsValue]⟩
  | succ places ih =>
    by_cases hzero : value = 0
    · exact ⟨places + 1, by simp [fractionDigits, hzero, digitsValue]⟩
    · have hbase : 0 < 10 ^ places := Nat.pow_pos (by decide)
      have hdigit : value / 10 ^ places < 10 := by
        rw [Nat.div_lt_iff_lt_mul hbase, ← Nat.pow_succ']
        exact h
      obtain ⟨dropped, hplaces, hrest⟩ := ih (Nat.mod_lt value hbase)
      refine ⟨dropped, ?_, ?_⟩
      · simp only [fractionDigits, hzero, if_false, List.length_cons]
        omega
      · have hsplit := Nat.div_add_mod value (10 ^ places)
        simp only [fractionDigits, hzero, if_false]
        rw [digitsValue_cons_digitChar hdigit, Nat.add_mul, ← hrest, Nat.mul_right_comm,
          ← Nat.pow_add, ← hplaces, hsplit]

theorem ofPlain?_digits {ds : List Char} (hne : ds ≠ []) (h : ∀ c ∈ ds, c.isDigit = true) :
    ofPlain? ds = some ⟨digitsValue ds, 0⟩ := by
  have htake : ds.takeWhile Char.isDigit = ds := List.takeWhile_eq_self_iff.mpr h
  have hdrop : ds.dropWhile Char.isDigit = [] := List.dropWhile_eq_nil_iff.mpr h
  simp [ofPlain?, htake, hdrop, hne]

theorem ofPlain?_point {whole fraction : List Char} (hne : whole ++ fraction ≠ [])
    (hwhole : ∀ c ∈ whole, c.isDigit = true) (hfraction : ∀ c ∈ fraction, c.isDigit = true) :
    ofPlain? (whole ++ '.' :: fraction) =
      some ⟨digitsValue (whole ++ fraction), -fraction.length⟩ := by
  have hpoint : Char.isDigit '.' = false := by decide
  have htake : (whole ++ '.' :: fraction).takeWhile Char.isDigit = whole := by
    rw [List.takeWhile_append_of_pos hwhole, List.takeWhile_cons_of_neg (by simp [hpoint]),
      List.append_nil]
  have hdrop : (whole ++ '.' :: fraction).dropWhile Char.isDigit = '.' :: fraction := by
    rw [List.dropWhile_append_of_pos hwhole, List.dropWhile_cons_of_neg (by simp [hpoint])]
  simp only [ofPlain?, htake, hdrop]
  rw [if_pos ⟨trivial, List.all_eq_true.mpr hfraction, by simpa using hne⟩]

/-- The text of a decimal is digits, or digits around a point. -/
theorem text_toList (d : Decimal) :
    ∃ (whole : Nat) (fraction : List Char), (∀ c ∈ fraction, c.isDigit = true) ∧
      d.text.toList = (toString whole).toList ++
        (if fraction = [] then [] else '.' :: fraction) ∧
      d.value = whole + (digitsValue fraction : ℚ) / 10 ^ fraction.length := by
  obtain ⟨coefficient, exponent⟩ := d
  cases exponent with
  | ofNat e =>
    refine ⟨coefficient * 10 ^ e, [], by simp, by simp [text], ?_⟩
    simp [value, digitsValue]
  | negSucc k =>
    have hbase : 0 < 10 ^ (k + 1) := Nat.pow_pos (by decide)
    have hremainder := Nat.mod_lt coefficient hbase
    obtain ⟨fraction, hfraction⟩ :
        ∃ fraction, fraction = fractionDigits (k + 1) (coefficient % 10 ^ (k + 1)) := ⟨_, rfl⟩
    obtain ⟨dropped, hplaces, hworth⟩ := fractionDigits_value hremainder
    rw [← hfraction] at hplaces hworth
    refine ⟨coefficient / 10 ^ (k + 1), fraction, ?_, ?_, ?_⟩
    · intro c hc
      rw [hfraction] at hc
      exact isDigit_of_mem_fractionDigits hremainder hc
    · simp only [text, ← hfraction]
      cases fraction with
      | nil => simp
      | cons first rest => simp
    · have hsplit := Nat.div_add_mod coefficient (10 ^ (k + 1))
      rw [hworth] at hsplit
      have hcast : (coefficient : ℚ) = 10 ^ (k + 1) * (coefficient / 10 ^ (k + 1) : Nat) +
          digitsValue fraction * 10 ^ dropped := by exact_mod_cast hsplit.symm
      have hpow : (10 : ℚ) ^ (k + 1) = 10 ^ fraction.length * 10 ^ dropped := by
        rw [hplaces, pow_add]
      rw [value, zpow_negSucc, hcast, hpow]
      field_simp

/-- The text of a decimal has the form of a number, and reads back as a decimal of the same
value. -/
theorem ofPlain?_text (d : Decimal) :
    ∃ d', ofPlain? d.text.toList = some d' ∧ d'.value = d.value ∧
      isNumberText d.text.toList = true := by
  obtain ⟨whole, fraction, hfraction, htext, hvalue⟩ := d.text_toList
  have hdigits : ∀ c ∈ (toString whole).toList, c.isDigit = true :=
    fun c hc => isDigit_of_mem_toString hc
  have hne := toString_toList_ne_nil whole
  have hform : isNumberText d.text.toList = true := by
    rw [htext]
    apply isNumberText_append hne hdigits
    intro c hc
    split at hc
    · simp at hc
    · rcases List.mem_cons.mp hc with rfl | hc
      · rfl
      · simp [continuesNumber, hfraction c hc]
  by_cases hempty : fraction = []
  · subst hempty
    refine ⟨⟨whole, 0⟩, ?_, ?_, hform⟩
    · rw [htext, if_pos rfl, List.append_nil, ofPlain?_digits hne hdigits, digitsValue_toString]
    · rw [hvalue]
      simp [value, digitsValue]
  · refine ⟨⟨digitsValue ((toString whole).toList ++ fraction), -fraction.length⟩, ?_, ?_, hform⟩
    · rw [htext, if_neg hempty, ofPlain?_point (by simp [hempty]) hdigits hfraction]
    · rw [hvalue, value, digitsValue_append, digitsValue_toString, zpow_neg, zpow_natCast]
      push_cast
      field_simp

end Decimal
end Fluxion
