import Fluxion.Number.Shortest
import Fluxion.Proofs.Number.ConstantText
import Fluxion.Proofs.Token.Spelling

/-! The texts that are read as doubles, as a grammar, and what reading makes of the text of a double:
the double, whatever its kind. -/
namespace Fluxion

def IsDigits (cs : List Char) : Prop := cs ≠ [] ∧ ∀ c ∈ cs, c.isDigit = true

theorem IsDigits.head_ne {c d : Char} {cs : List Char} (h : IsDigits (c :: cs))
    (hd : d.isDigit = false) : c ≠ d := by
  rintro rfl
  rw [h.2 c List.mem_cons_self] at hd
  cases hd

def IsSign (cs : List Char) : Prop := cs = [] ∨ cs = ['+'] ∨ cs = ['-']

/-- `IsPlain cs`: digits, with at most one point among, before or after them. -/
inductive IsPlain : List Char → Prop
  | whole {digits : List Char} (h : IsDigits digits) : IsPlain digits
  | point {whole fraction : List Char} (h : IsDigits (whole ++ fraction)) :
      IsPlain (whole ++ '.' :: fraction)

theorem IsPlain.ne_nil {cs : List Char} (h : IsPlain cs) : cs ≠ [] := by
  cases h with
  | whole h => exact h.1
  | point h => simp

theorem IsPlain.continuesNumber {cs : List Char} (h : IsPlain cs) :
    ∀ c ∈ cs, continuesNumber c = true := by
  cases h with
  | whole h => exact fun c hc => by simp [Fluxion.continuesNumber, h.2 c hc]
  | point h =>
    intro c hc
    rw [List.mem_append, List.mem_cons, or_left_comm, ← List.mem_append] at hc
    rcases hc with rfl | hc
    · rfl
    · simp [Fluxion.continuesNumber, h.2 c hc]

inductive IsScale : List Char → Prop
  | none : IsScale []
  | marked {mark : Char} {sign digits : List Char} (hm : mark = 'e' ∨ mark = 'E')
      (hs : IsSign sign) (hd : IsDigits digits) : IsScale (mark :: (sign ++ digits))

/-- `IsMagnitude cs`: a decimal with or without an exponent, or one of the words for infinity and for
no number. Words are read in any mix of cases. -/
inductive IsMagnitude : List Char → Prop
  | decimal {plain scale : List Char} (hp : IsPlain plain) (hs : IsScale scale) :
      IsMagnitude (plain ++ scale)
  | word {cs : List Char}
      (h : cs.map Char.toLower ∈ ["inf".toList, "infinity".toList, "nan".toList]) :
      IsMagnitude cs

def IsDouble (cs : List Char) : Prop :=
  ∃ sign magnitude, cs = sign ++ magnitude ∧ IsSign sign ∧ IsMagnitude magnitude

def isMark (c : Char) : Bool := c = 'e' || c = 'E'

theorem not_isMark_of_continuesNumber {c : Char} (h : continuesNumber c = true) :
    isMark c = false := by
  rw [← Bool.not_eq_true]
  intro hmark
  obtain rfl | rfl : c = 'e' ∨ c = 'E' := by simpa [isMark] using hmark
  all_goals cases h

namespace Decimal

theorem ofPlain?_isSome_iff {cs : List Char} : (ofPlain? cs).isSome ↔ IsPlain cs := by
  constructor
  · intro h
    have hsplit := List.takeWhile_append_dropWhile (p := Char.isDigit) (l := cs)
    have hwhole : ∀ c ∈ cs.takeWhile Char.isDigit, c.isDigit = true :=
      List.all_eq_true.mp List.all_takeWhile
    unfold ofPlain? at h
    dsimp only at h
    split at h
    · next hrest =>
      rw [hrest, List.append_nil] at hsplit
      rw [hsplit] at h hwhole
      exact .whole ⟨by rintro rfl; simp at h, hwhole⟩
    · next c fraction hrest =>
      split at h
      · next hc =>
        obtain ⟨rfl, hfraction, hne⟩ := hc
        rw [hrest] at hsplit
        rw [← hsplit]
        refine .point ⟨by simpa using hne, List.forall_mem_append.mpr ⟨hwhole, ?_⟩⟩
        exact List.all_eq_true.mp hfraction
      · simp at h
  · rintro (⟨hne, hdigits⟩ | ⟨hne, hdigits⟩)
    · rw [ofPlain?_digits hne hdigits]
      rfl
    · obtain ⟨hwhole, hfraction⟩ := List.forall_mem_append.mp hdigits
      rw [ofPlain?_point hne hwhole hfraction]
      rfl

theorem exponent?_isSome_iff {cs : List Char} :
    (exponent? cs).isSome ↔ ∃ sign digits, cs = sign ++ digits ∧ IsSign sign ∧ IsDigits digits := by
  have hdigits (digits : List Char) :
      (if digits.isEmpty || !digits.all Char.isDigit then none
        else some (digitsValue digits : Int)).isSome ↔ IsDigits digits := by
    simp [IsDigits]
  constructor
  · intro h
    unfold exponent? at h
    dsimp only at h
    split at h
    · next digits => exact ⟨['+'], digits, rfl, .inr (.inl rfl), (hdigits digits).mp h⟩
    · next digits =>
      rw [Option.isSome_map] at h
      exact ⟨['-'], digits, rfl, .inr (.inr rfl), (hdigits digits).mp h⟩
    · exact ⟨[], cs, rfl, .inl rfl, (hdigits cs).mp h⟩
  · rintro ⟨sign, digits, rfl, rfl | rfl | rfl, hd⟩
    · obtain ⟨c, rest, rfl⟩ := List.exists_cons_of_ne_nil hd.1
      have hplus : c ≠ '+' := hd.head_ne (by decide)
      have hminus : c ≠ '-' := hd.head_ne (by decide)
      unfold exponent?
      dsimp only [List.nil_append]
      split
      · next heq => exact absurd (List.cons.inj heq).1 hplus
      · next heq => exact absurd (List.cons.inj heq).1 hminus
      · exact (hdigits _).mpr hd
    · exact (hdigits digits).mpr hd
    · exact (Option.isSome_map ..).trans ((hdigits digits).mpr hd)

theorem ofText?_of_unmarked {cs : List Char} (h : ∀ c ∈ cs, isMark c = false) :
    ofText? cs = ofPlain? cs := by
  have hrest : cs.dropWhile (!isMark ·) = [] := List.dropWhile_eq_nil_iff.mpr (by simpa using h)
  unfold isMark at hrest
  simp only [ofText?, hrest]

/-- The first mark splits a text. -/
theorem ofText?_of_marked {plain scale : List Char} {mark : Char}
    (hplain : ∀ c ∈ plain, isMark c = false) (hmark : isMark mark = true) :
    ofText? (plain ++ mark :: scale) = (do
      let d ← ofPlain? plain
      let e ← exponent? scale
      return ⟨d.coefficient, d.exponent + e⟩) := by
  have hall : plain.all (!isMark ·) = true := by simpa using hplain
  have hstop : ∀ c ∈ (mark :: scale).head?, (!isMark c) = false := by simpa using hmark
  have htake := takeWhile_append_of_stop hall hstop
  have hdrop := dropWhile_append_of_stop hall hstop
  unfold isMark at htake hdrop
  simp only [ofText?, htake, hdrop]

theorem ofText?_isSome_iff {cs : List Char} :
    (ofText? cs).isSome ↔ ∃ plain scale, cs = plain ++ scale ∧ IsPlain plain ∧ IsScale scale := by
  constructor
  · intro h
    cases hfind : cs.find? isMark with
    | none =>
      have hunmarked : ∀ c ∈ cs, isMark c = false := by simpa using hfind
      rw [ofText?_of_unmarked hunmarked] at h
      exact ⟨cs, [], (List.append_nil cs).symm, ofPlain?_isSome_iff.mp h, .none⟩
    | some mark =>
      obtain ⟨hmark, plain, scale, rfl, hplain⟩ := List.find?_eq_some_iff_append.mp hfind
      rw [ofText?_of_marked (by simpa using hplain) hmark] at h
      obtain ⟨result, hresult⟩ := Option.isSome_iff_exists.mp h
      obtain ⟨d, hd, hresult⟩ := Option.bind_eq_some_iff.mp hresult
      obtain ⟨e, he, -⟩ := Option.bind_eq_some_iff.mp hresult
      obtain ⟨sign, digits, rfl, hsign, hdigits⟩ :=
        exponent?_isSome_iff.mp (Option.isSome_of_mem he)
      exact ⟨plain, _, rfl, ofPlain?_isSome_iff.mp (Option.isSome_of_mem hd),
        .marked (by simpa [isMark] using hmark) hsign hdigits⟩
  · rintro ⟨plain, scale, rfl, hplain, hscale⟩
    have hunmarked : ∀ c ∈ plain, isMark c = false :=
      fun c hc => not_isMark_of_continuesNumber (hplain.continuesNumber c hc)
    cases hscale with
    | none =>
      rw [List.append_nil, ofText?_of_unmarked hunmarked]
      exact ofPlain?_isSome_iff.mpr hplain
    | marked hmark hsign hdigits =>
      obtain ⟨d, hd⟩ := Option.isSome_iff_exists.mp (ofPlain?_isSome_iff.mpr hplain)
      obtain ⟨e, he⟩ := Option.isSome_iff_exists.mp
        (exponent?_isSome_iff.mpr ⟨_, _, rfl, hsign, hdigits⟩)
      rw [ofText?_of_marked hunmarked (by simpa [isMark] using hmark), hd, he]
      rfl

end Decimal

theorem IsMagnitude.exists_cons {cs : List Char} (h : IsMagnitude cs) :
    ∃ c rest, cs = c :: rest ∧ c ≠ '+' ∧ c ≠ '-' := by
  cases h with
  | decimal hplain hscale =>
    obtain ⟨c, rest, rfl⟩ := List.exists_cons_of_ne_nil hplain.ne_nil
    have hc := hplain.continuesNumber c List.mem_cons_self
    refine ⟨c, _, rfl, ?_, ?_⟩ <;> rintro rfl <;> revert hc <;> decide
  | word h =>
    cases cs with
    | nil => simp at h
    | cons c rest =>
      refine ⟨c, rest, rfl, ?_, ?_⟩ <;> rintro rfl <;> simp at h

theorem IsSign.unblank {cs : List Char} (h : IsSign cs) : ∀ c ∈ cs, isBlank c = false := by
  obtain rfl | rfl | rfl := h
  · simp
  · exact List.forall_mem_singleton.mpr rfl
  · exact List.forall_mem_singleton.mpr rfl

theorem IsPlain.unblank {cs : List Char} (h : IsPlain cs) : ∀ c ∈ cs, isBlank c = false := by
  intro c hc
  rcases continuesNumber_iff.mp (h.continuesNumber c hc) with hdigit | rfl
  · exact not_blank_of_alphanum (.inr hdigit)
  · rfl

theorem IsScale.unblank {cs : List Char} (h : IsScale cs) : ∀ c ∈ cs, isBlank c = false := by
  cases h with
  | none => simp
  | marked hmark hsign hdigits =>
    rw [List.forall_mem_cons, List.forall_mem_append]
    refine ⟨?_, hsign.unblank, (IsPlain.whole hdigits).unblank⟩
    obtain rfl | rfl := hmark <;> rfl

theorem IsMagnitude.unblank {cs : List Char} (h : IsMagnitude cs) :
    ∀ c ∈ cs, isBlank c = false := by
  cases h with
  | decimal hplain hscale => exact List.forall_mem_append.mpr ⟨hplain.unblank, hscale.unblank⟩
  | word h =>
    have hletters : (["inf".toList, "infinity".toList, "nan".toList].all
        fun word => word.all Char.isAlpha) = true := by decide
    intro c hc
    have hletter := List.all_eq_true.mp (List.all_eq_true.mp hletters _ h) _ (List.mem_map_of_mem hc)
    rw [Char.isAlpha_toLower_eq_isAlpha] at hletter
    exact not_blank_of_alphanum (.inl hletter)

/-- The text of a double has no blanks. -/
theorem IsDouble.unblank {cs : List Char} (h : IsDouble cs) : ∀ c ∈ cs, isBlank c = false := by
  obtain ⟨sign, magnitude, rfl, hsign, hmagnitude⟩ := h
  exact List.forall_mem_append.mpr ⟨hsign.unblank, hmagnitude.unblank⟩

/-- Words are tried before decimals. -/
private theorem unsignedDouble?_isSome {negative : Bool} {cs : List Char} :
    (unsignedDouble? negative cs).isSome ↔
      cs.map Char.toLower ∈ ["inf".toList, "infinity".toList, "nan".toList] ∨
        (Decimal.ofText? cs).isSome := by
  unfold unsignedDouble?
  simp only [Bool.or_eq_true, decide_eq_true_eq, String.ofList_eq, List.mem_cons,
    List.not_mem_nil, or_false]
  split
  · next hinf => rcases hinf with hinf | hinf <;> simp [hinf]
  · next hinf =>
    rw [not_or] at hinf
    split
    · next hnan => simp [hnan]
    · next hnan => simp only [hinf.1, hinf.2, hnan, false_or, Option.isSome_map]

theorem unsignedDouble?_isSome_iff {negative : Bool} {cs : List Char} :
    (unsignedDouble? negative cs).isSome ↔ IsMagnitude cs := by
  rw [unsignedDouble?_isSome, Decimal.ofText?_isSome_iff]
  constructor
  · rintro (hword | ⟨plain, scale, rfl, hplain, hscale⟩)
    · exact .word hword
    · exact .decimal hplain hscale
  · rintro (⟨hplain, hscale⟩ | hword)
    · exact .inr ⟨_, _, rfl, hplain, hscale⟩
    · exact .inl hword

/-- A minus before the text makes the double negative. -/
theorem readDouble_of_unsigned {negative : Bool} {cs : List Char} {x : Float}
    (h : unsignedDouble? negative cs = some x) :
    readDouble (if negative then '-' :: cs else cs) = .ok x := by
  cases negative with
  | true => simp [readDouble, h]
  | false =>
    obtain ⟨c, rest, rfl, hplus, hminus⟩ :=
      (unsignedDouble?_isSome_iff.mp (Option.isSome_of_mem h)).exists_cons
    unfold readDouble
    dsimp only [Bool.false_eq_true, if_false]
    split
    · next heq => cases heq
    · next heq => exact absurd (List.cons.inj heq).1 hplus
    · next heq => exact absurd (List.cons.inj heq).1 hminus
    · simp [h]

/-- The texts that are read as doubles. -/
theorem readDouble_isOk_iff {cs : List Char} : (∃ x, readDouble cs = .ok x) ↔ IsDouble cs := by
  have hmagnitude (negative : Bool) {rest : List Char} (h : unsignedDouble? negative rest ≠ none) :
      IsMagnitude rest :=
    unsignedDouble?_isSome_iff.mp (Option.isSome_iff_ne_none.mpr h)
  constructor
  · intro h
    unfold readDouble at h
    dsimp only at h
    split at h
    · simp at h
    · next rest =>
      exact ⟨['+'], rest, rfl, .inr (.inl rfl), hmagnitude false fun hnone => by simp [hnone] at h⟩
    · next rest =>
      exact ⟨['-'], rest, rfl, .inr (.inr rfl), hmagnitude true fun hnone => by simp [hnone] at h⟩
    · exact ⟨[], cs, rfl, .inl rfl, hmagnitude false fun hnone => by simp [hnone] at h⟩
  · rintro ⟨sign, magnitude, rfl, hsign, h⟩
    have hread (negative : Bool) : ∃ x, unsignedDouble? negative magnitude = some x :=
      Option.isSome_iff_exists.mp (unsignedDouble?_isSome_iff.mpr h)
    obtain ⟨x, hx⟩ := hread false
    obtain ⟨y, hy⟩ := hread true
    obtain rfl | rfl | rfl := hsign
    · exact ⟨x, readDouble_of_unsigned hx⟩
    · exact ⟨x, by simp [readDouble, hx]⟩
    · exact ⟨y, readDouble_of_unsigned hy⟩

/-- A plain decimal is read as the double that it rounds to. -/
theorem unsignedDouble?_plain (negative : Bool) {cs : List Char} {d : Decimal}
    (h : Decimal.ofPlain? cs = some d) : unsignedDouble? negative cs = some (d.toDouble negative) := by
  have hplain := Decimal.ofPlain?_isSome_iff.mp (Option.isSome_of_mem h)
  have hdecimal : Decimal.ofText? cs = some d := by
    rw [Decimal.ofText?_of_unmarked, h]
    exact fun c hc => not_isMark_of_continuesNumber (hplain.continuesNumber c hc)
  have hunlettered {c : Char} (hc : c ∈ cs.map Char.toLower) : ¬ c.isAlpha = true := by
    obtain ⟨raw, hraw, rfl⟩ := List.mem_map.mp hc
    rw [Char.isAlpha_toLower_eq_isAlpha]
    intro halpha
    rcases continuesNumber_iff.mp (hplain.continuesNumber raw hraw) with hdigit | rfl
    · exact not_digit_of_alpha halpha hdigit
    · cases halpha
  have hword (word : String) (hn : 'n' ∈ word.toList) :
      String.ofList (cs.map Char.toLower) ≠ word := by
    rintro rfl
    exact hunlettered (by simpa using hn) rfl
  have hinf := hword "inf" (by decide)
  have hinfinity := hword "infinity" (by decide)
  have hnan := hword "nan" (by decide)
  simp [unsignedDouble?, hinf, hinfinity, hnan, hdecimal]

/-- The text of a decimal is read as the double that the decimal rounds to. -/
theorem unsignedDouble?_text (negative : Bool) (d : Decimal) :
    unsignedDouble? negative d.text.toList = some (d.toDouble negative) := by
  obtain ⟨d', hplain, hvalue, -⟩ := d.ofPlain?_text
  rw [unsignedDouble?_plain negative hplain, Decimal.toDouble_congr negative hvalue]

private theorem readDouble_nan : readDouble "NaN".toList = .ok (0.0 / 0.0) := by decide

private theorem doubleCode_nan : BinaryFormat.double.infinityCode < doubleCode (0.0 / 0.0) := by
  decide +kernel

theorem unsignedDouble?_magnitudeText (negative : Bool) {code : Nat}
    (h : code ≤ BinaryFormat.double.infinityCode) :
    unsignedDouble? negative (magnitudeText code).toList = some (Float.ofBits (UInt64.ofNat
      (if negative then BinaryFormat.double.signWeight + code else code))) := by
  rw [magnitudeText]
  split
  · next hinfinity =>
    rw [hinfinity, ofBits_infinity]
    rfl
  · next hfinite =>
    split
    · next hzero =>
      rw [hzero]
      exact unsignedDouble?_text negative ⟨0, 0⟩
    · rw [unsignedDouble?_text, Decimal.toDouble,
        BinaryFormat.round_shortest (by decide) (Nat.lt_of_le_of_ne h hfinite)]

/-- Reading undoes writing: the text of a double is read as that double. -/
theorem readDouble_doubleText (x : Float) : readDouble (doubleText x).toList = .ok x := by
  rcases Nat.lt_or_ge BinaryFormat.double.infinityCode (doubleCode x) with hnan | hnumber
  · rw [doubleText_nan hnan, readDouble_nan, nan_unique hnan doubleCode_nan]
  · have hread := readDouble_of_unsigned
      (unsignedDouble?_magnitudeText (decide (hasSign x)) hnumber)
    have hx := eq_ofBits hnumber
    simp only [decide_eq_true_eq] at hread
    rw [← hx] at hread
    rw [doubleText_number hnumber, ← hread]
    split <;> simp

end Fluxion
