import Fluxion.Proofs.Token.Tiling

/-! Which characters no formula holds. Whether a point is one of them depends on what stands
before it; every other character is judged by itself. -/
namespace Fluxion

def signs : List Char := ['+', '-', '*', '/', '^', '(', ')', ',']

def Detached (before : List Char) : Prop :=
  ∀ c ∈ before.getLast?, c.isAlphanum = false ∧ c ≠ '.'

/-- Whether a text ends in a run of digits and points that starts, with a digit, where a token
does. -/
def EndsInNumber (before : List Char) : Prop :=
  ∃ outer run, before = outer ++ run ∧ isNumberText run = true ∧ Detached outer

/-- Whether a character behind this text has no place in a formula. -/
structure Misfit (before : List Char) (c : Char) : Prop where
  visible : isBlank c = false
  not_alphanum : c.isAlphanum = false
  not_sign : c ∉ signs
  not_point : ¬ (c = '.' ∧ EndsInNumber before)

def Clean (before text : List Char) : Prop :=
  ∀ inner c after, text = inner ++ c :: after → ¬ Misfit (before ++ inner) c

theorem signKind?_eq_none_iff {c : Char} : signKind? c = none ↔ c ∉ signs := by
  unfold signKind? signs
  split <;> simp_all

theorem lexeme?_eq_none_iff {c : Char} {cs : List Char} :
    lexeme? c cs = none ↔ c.isAlphanum = false ∧ c ∉ signs := by
  unfold lexeme? Char.isAlphanum
  by_cases hdigit : c.isDigit = true
  · simp [hdigit]
  · by_cases halpha : c.isAlpha = true
    · simp [hdigit, halpha]
    · by_cases hstars : c = '*' ∧ cs.head? = some '*'
      · simp [hstars, signs]
      · simp [hdigit, halpha, hstars, signKind?_eq_none_iff]

theorem signKind?_mem {c : Char} {kind : TokenKind} (h : signKind? c = some kind) : c ∈ signs := by
  by_contra hc
  rw [← signKind?_eq_none_iff, h] at hc
  cases hc

theorem sign_char {c : Char} (h : c ∈ signs) :
    isBlank c = false ∧ c.isAlphanum = false ∧ c ≠ '.' := by
  simp only [signs, List.mem_cons, List.not_mem_nil, or_false] at h
  rcases h with rfl | rfl | rfl | rfl | rfl | rfl | rfl | rfl <;> decide

theorem blank_char {c : Char} (h : isBlank c = true) : c.isAlphanum = false ∧ c ≠ '.' := by
  constructor
  · by_contra halphanum
    rw [Bool.not_eq_false, Char.isAlphanum, Bool.or_eq_true] at halphanum
    simp [not_blank_of_alphanum halphanum] at h
  · rintro rfl
    revert h
    decide

theorem isAlphanum_of_isDigit {c : Char} (h : c.isDigit = true) : c.isAlphanum = true := by
  simp [Char.isAlphanum, h]

/-- Whether a token may start between these two texts: a point there continues no number, and a
digit there continues nothing. -/
def Ready (before rest : List Char) : Prop :=
  (rest.head? = some '.' → ¬ EndsInNumber before) ∧
    ∀ c ∈ rest.head?, c.isDigit = true → Detached before

theorem detached_append {before text : List Char} (hne : text ≠ [])
    (htext : ∀ c ∈ text, c.isAlphanum = false ∧ c ≠ '.') : Detached (before ++ text) := by
  intro c hc
  rw [List.getLast?_append_of_ne_nil _ hne] at hc
  exact htext c (List.mem_of_getLast? hc)

theorem Detached.exists_mem {before text : List Char} (h : Detached (before ++ text))
    (hne : text ≠ []) : ∃ c ∈ text, c.isAlphanum = false ∧ c ≠ '.' := by
  refine ⟨text.getLast hne, List.getLast_mem hne, h _ ?_⟩
  rw [List.getLast?_append_of_ne_nil _ hne]
  exact List.getLast?_eq_some_getLast hne

theorem isNumberText_continues {run : List Char} (h : isNumberText run = true) :
    run ≠ [] ∧ ∀ c ∈ run, continuesNumber c = true := by
  cases run with
  | nil => cases h
  | cons c run =>
    obtain ⟨hdigit, hrun⟩ := Bool.and_eq_true_iff.mp h
    refine ⟨List.cons_ne_nil c run, List.forall_mem_cons.mpr ⟨?_, List.all_eq_true.mp hrun⟩⟩
    exact continuesNumber_iff.mpr (.inl hdigit)

theorem Detached.not_endsInNumber {before : List Char} (h : Detached before) :
    ¬ EndsInNumber before := by
  rintro ⟨outer, run, rfl, hrun, -⟩
  obtain ⟨hne, hcontinues⟩ := isNumberText_continues hrun
  obtain ⟨last, hlast, halphanum, hpoint⟩ := h.exists_mem hne
  rcases continuesNumber_iff.mp (hcontinues last hlast) with hdigit | hdot
  · simp [isAlphanum_of_isDigit hdigit] at halphanum
  · exact hpoint hdot

theorem Detached.ready {before : List Char} (h : Detached before) (rest : List Char) :
    Ready before rest :=
  ⟨fun _ => h.not_endsInNumber, fun _ _ _ => h⟩

theorem isNameText_alphanum {text : List Char} (h : isNameText text = true) :
    ∀ c ∈ text, c.isAlphanum = true := by
  cases text with
  | nil => cases h
  | cons c text =>
    obtain ⟨halpha, htext⟩ := Bool.and_eq_true_iff.mp h
    have hc : c.isAlphanum = true := by simp [Char.isAlphanum, halpha]
    exact List.forall_mem_cons.mpr ⟨hc, List.all_eq_true.mp htext⟩

/-- A name does not end in a number, though it may end in digits. -/
theorem not_endsInNumber_of_name {before text : List Char} (h : isNameText text = true) :
    ¬ EndsInNumber (before ++ text) := by
  rintro ⟨outer, run, hsplit, hrun, houter⟩
  have hinner := isNameText_alphanum h
  cases text with
  | nil => cases h
  | cons c text =>
    have halpha : c.isAlpha = true := (Bool.and_eq_true_iff.mp h).1
    have hfirst : ¬ c.isDigit = true := not_digit_of_alpha halpha
    rcases List.append_eq_append_iff.mp hsplit with ⟨part, rfl, hpart⟩ | ⟨part, rfl, rfl⟩
    · cases part with
      | nil =>
        -- The run would start where the name does, and that is a letter.
        rw [List.nil_append] at hpart
        rw [← hpart] at hrun
        exact hfirst (Bool.and_eq_true_iff.mp hrun).1
      | cons d part =>
        -- The run would start inside the name, behind a letter or a digit.
        obtain ⟨last, hlast, halphanum, -⟩ := houter.exists_mem (List.cons_ne_nil d part)
        have hmem : last ∈ c :: text := hpart ▸ List.mem_append_left _ hlast
        simp [hinner last hmem] at halphanum
    · -- The run would hold the letter that the name starts with.
      have hc := (isNumberText_continues hrun).2 c (by simp)
      rcases continuesNumber_iff.mp hc with hdigit | rfl
      · exact hfirst hdigit
      · revert halpha
        decide

namespace Clean
variable {before text : List Char}

theorem append {rest : List Char} (h : Clean before text) (hrest : Clean (before ++ text) rest) :
    Clean before (text ++ rest) := by
  intro inner c after hsplit
  rcases split_cases hsplit with ⟨part, rfl, hpart⟩ | ⟨d, part, rfl, hpart⟩
  · rw [← List.append_assoc]
    exact hrest part c after hpart
  · obtain ⟨rfl, -⟩ := List.cons.inj hpart
    exact h inner c part rfl

theorem of_blank (h : ∀ c ∈ text, isBlank c = true) : Clean before text := by
  rintro inner c after rfl hmisfit
  exact absurd (h c (by simp)) (by simp [hmisfit.visible])

theorem of_alphanum (h : ∀ c ∈ text, c.isAlphanum = true) : Clean before text := by
  rintro inner c after rfl hmisfit
  exact absurd (h c (by simp)) (by simp [hmisfit.not_alphanum])

theorem of_signs (h : ∀ c ∈ text, c ∈ signs) : Clean before text := by
  rintro inner c after rfl hmisfit
  exact hmisfit.not_sign (h c (by simp))

/-- A point inside a number has the digits before it to end in. -/
theorem of_number (h : isNumberText text = true) (hbefore : Detached before) :
    Clean before text := by
  rintro inner c after rfl hmisfit
  have hdigit : ¬ c.isDigit = true := fun hc =>
    absurd (isAlphanum_of_isDigit hc) (by simp [hmisfit.not_alphanum])
  cases inner with
  | nil => exact hdigit (Bool.and_eq_true_iff.mp h).1
  | cons d inner =>
    obtain ⟨hd, hrest⟩ := Bool.and_eq_true_iff.mp h
    change (inner ++ c :: after).all continuesNumber = true at hrest
    rw [List.all_append, List.all_cons, Bool.and_eq_true, Bool.and_eq_true] at hrest
    have hinner : isNumberText (d :: inner) = true := Bool.and_eq_true_iff.mpr ⟨hd, hrest.1⟩
    rcases continuesNumber_iff.mp hrest.2.1 with hc | rfl
    · exact hdigit hc
    · exact hmisfit.not_point ⟨rfl, before, d :: inner, rfl, hinner, hbefore⟩

end Clean

/-- Behind signs the text may go on with anything. -/
theorem signs_clean {before text : List Char} (hne : text ≠ []) (h : ∀ d ∈ text, d ∈ signs)
    (rest : List Char) : Clean before text ∧ Ready (before ++ text) rest := by
  have hdetached : Detached (before ++ text) :=
    detached_append hne fun d hd => (sign_char (h d hd)).2
  exact ⟨.of_signs h, hdetached.ready rest⟩

/-- A token holds no misfit, and behind it the text may go on with whatever it goes on with. -/
theorem lexeme?_clean {before cs text rest : List Char} {c : Char} {kind : TokenKind}
    (hready : Ready before (c :: cs)) (hl : lexeme? c cs = some (kind, text, rest)) :
    Clean before text ∧ Ready (before ++ text) rest := by
  have hstops := lexeme?_stops hl
  obtain ⟨hnumber, hname⟩ := lexeme?_wellFormed hl 0
  rw [String.toList_ofList] at hnumber hname
  cases lexeme?_spec hl with
  | number hdigit =>
    have hdetached : Detached before := hready.2 c rfl hdigit
    refine ⟨.of_number (hnumber rfl) hdetached, fun hdot => ?_, fun d hd hdigit => ?_⟩
    · exact absurd ((hstops '.' hdot).1 rfl) (by decide)
    · exact absurd ((hstops d hd).1 rfl) (by simp [continuesNumber, hdigit])
  | name _ =>
    have htext := hname rfl
    refine ⟨.of_alphanum (isNameText_alphanum htext), fun _ => not_endsInNumber_of_name htext, ?_⟩
    intro d hd hdigit
    exact absurd (isAlphanum_of_isDigit hdigit) (by simp [(hstops d hd).2.1 rfl])
  | stars _ _ => exact signs_clean (List.cons_ne_nil _ _) (by simp [signs]) rest
  | sign hsign _ =>
    exact signs_clean (List.cons_ne_nil _ _) (by simpa using signKind?_mem hsign) cs

def ReachesMisfit (before text inner : List Char) : Prop :=
  ∃ c after, text = inner ++ c :: after ∧ Clean before inner ∧ Misfit (before ++ inner) c

theorem ReachesMisfit.append {before text rest inner : List Char} (htext : Clean before text)
    (h : ReachesMisfit (before ++ text) rest inner) :
    ReachesMisfit before (text ++ rest) (text ++ inner) := by
  obtain ⟨c, after, rfl, hclean, hmisfit⟩ := h
  rw [List.append_assoc] at hmisfit
  exact ⟨c, after, (List.append_assoc _ _ _).symm, htext.append hclean, hmisfit⟩

theorem ReachesMisfit.unique {before text inner other : List Char}
    (h : ReachesMisfit before text inner) (hother : ReachesMisfit before text other) :
    inner = other := by
  obtain ⟨c, after, rfl, hclean, hmisfit⟩ := h
  obtain ⟨d, behind, hsplit, hcleanOther, hmisfitOther⟩ := hother
  rcases split_cases hsplit with ⟨part, rfl, hpart⟩ | ⟨e, part, rfl, hpart⟩
  · cases part with
    | nil => exact (List.append_nil inner).symm
    | cons e part =>
      obtain ⟨rfl, -⟩ := List.cons.inj hpart
      exact absurd hmisfit (hcleanOther inner c part rfl)
  · obtain ⟨rfl, -⟩ := List.cons.inj hpart
    exact absurd hmisfitOther (hclean other d part rfl)

/-- The stream of a text is free of faults if the text is free of misfits, and otherwise ends in a
fault at the first of them. -/
theorem streamFrom_misfit (cs : List Char) (position : Nat) : ∀ before, Ready before cs →
    (∃ ts : List Token, streamFrom cs position = ts.map .ok ∧ Clean before cs) ∨
      ∃ (ts : List Token) (inner : List Char), ReachesMisfit before cs inner ∧
        streamFrom cs position =
          ts.map .ok ++ [.error (.located .unknownToken (position + byteLength inner))] := by
  induction cs, position using streamFrom_induction with
  | nil position =>
    intro before _
    exact .inl ⟨[_], streamFrom_nil position, .of_blank (by simp)⟩
  | blank c cs position hc ih =>
    intro before _
    have hclean : Clean before [c] := .of_blank (by simp [hc])
    have hdetached : Detached (before ++ [c]) :=
      detached_append (List.cons_ne_nil c []) (by simp [blank_char hc])
    rw [streamFrom_blank hc]
    rcases ih _ (hdetached.ready cs) with ⟨ts, hstream, hcs⟩ | ⟨ts, inner, hreaches, hstream⟩
    · exact .inl ⟨ts, hstream, hclean.append hcs⟩
    · refine .inr ⟨ts, c :: inner, hreaches.append hclean, ?_⟩
      rw [hstream, byteLength_cons, Nat.add_assoc]
  | unknown c cs position hc hl =>
    intro before hready
    obtain ⟨halphanum, hsign⟩ := lexeme?_eq_none_iff.mp hl
    have hmisfit : Misfit before c :=
      ⟨hc, halphanum, hsign, fun ⟨hdot, hends⟩ => hready.1 (by rw [hdot]; rfl) hends⟩
    refine .inr ⟨[], [], ⟨c, cs, rfl, .of_blank (by simp), by simpa using hmisfit⟩, ?_⟩
    rw [streamFrom_unknown hc hl]
    rfl
  | lexeme c cs position kind text rest hc hl ih =>
    intro before hready
    obtain ⟨hclean, hnext⟩ := lexeme?_clean hready hl
    rw [streamFrom_lexeme hc hl, lexeme?_text hl]
    rcases ih _ hnext with ⟨ts, hstream, hrest⟩ | ⟨ts, inner, hreaches, hstream⟩
    · exact .inl ⟨⟨kind, String.ofList text, position⟩ :: ts, by rw [hstream]; rfl,
        hclean.append hrest⟩
    · refine .inr ⟨⟨kind, String.ofList text, position⟩ :: ts, text ++ inner,
        hreaches.append hclean, ?_⟩
      rw [hstream, byteLength_append, Nat.add_assoc]
      rfl

theorem mapM_id_of_error {ε α : Type} (values : List α) (fault : ε) (rest : List (Except ε α)) :
    (values.map Except.ok ++ Except.error fault :: rest).mapM id = Except.error fault := by
  induction values with
  | nil => rfl
  | cons value values ih =>
    rw [List.map_cons, List.cons_append, List.mapM_cons, id_eq, ih]
    rfl

/-- A formula either tokenizes and holds no misfit, or is refused at its first misfit. -/
theorem tokenize_cases (input : String) :
    (∃ ts, tokenize input = .ok ts) ∧ Clean [] input.toList ∨
      ∃ before, ReachesMisfit [] input.toList before ∧
        tokenize input = .error (.located .unknownToken (byteLength before)) := by
  have hready : Ready [] input.toList := Detached.ready (by simp [Detached]) _
  rcases streamFrom_misfit input.toList 0 [] hready with
    ⟨ts, hstream, hclean⟩ | ⟨ts, before, hreaches, hstream⟩
  · exact .inl ⟨⟨ts, tokenize_eq_ok_iff.mpr (by rw [tokenStream_eq, hstream])⟩, hclean⟩
  · refine .inr ⟨before, hreaches, ?_⟩
    rw [tokenize, tokenStream_eq, hstream, mapM_id_of_error, Nat.zero_add]

theorem tokenize_eq_error_iff {input : String} {fault : Diagnostic} :
    tokenize input = .error fault ↔
      ∃ before c after, input.toList = before ++ c :: after ∧ Misfit before c ∧
        Clean [] before ∧ fault = .located .unknownToken (byteLength before) := by
  constructor
  · intro h
    rcases tokenize_cases input with ⟨⟨ts, hok⟩, -⟩ | ⟨before, hreaches, herror⟩
    · rw [hok] at h
      cases h
    · obtain ⟨c, after, htext, hclean, hmisfit⟩ := hreaches
      rw [herror] at h
      exact ⟨before, c, after, htext, hmisfit, hclean, (Except.error.inj h).symm⟩
  · rintro ⟨before, c, after, htext, hmisfit, hclean, rfl⟩
    have hhere : ReachesMisfit [] input.toList before := ⟨c, after, htext, hclean, hmisfit⟩
    rcases tokenize_cases input with ⟨-, hall⟩ | ⟨other, hreaches, herror⟩
    · exact absurd hmisfit (hall before c after htext)
    · rw [herror, hreaches.unique hhere]

theorem tokenize_refused_iff {input : String} :
    (∃ fault, tokenize input = .error fault) ↔
      ∃ before c after, input.toList = before ++ c :: after ∧ Misfit before c := by
  constructor
  · rintro ⟨fault, h⟩
    obtain ⟨before, c, after, htext, hmisfit, -, -⟩ := tokenize_eq_error_iff.mp h
    exact ⟨before, c, after, htext, hmisfit⟩
  · rintro ⟨before, c, after, htext, hmisfit⟩
    rcases tokenize_cases input with ⟨-, hall⟩ | ⟨other, -, herror⟩
    · exact absurd hmisfit (hall before c after htext)
    · exact ⟨_, herror⟩

end Fluxion
