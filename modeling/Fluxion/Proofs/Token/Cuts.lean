import Fluxion.Proofs.Parser.Alignment

/-! Where a text can be cut so that its two parts are read apart, and what stands before the cut
is read the same whatever replaces the rest. -/
namespace Fluxion

/-- Whether no token at the end of a text can go on into the text after it. -/
def Separate (before rest : List Char) : Prop :=
  Delimits rest ∧ (rest.head? = some '*' → before.getLast? ≠ some '*')

theorem Separate.of_append {outer before rest : List Char} (h : Separate (outer ++ before) rest) :
    Separate before rest := by
  refine ⟨h.1, fun hstar hlast => h.2 hstar ?_⟩
  rw [List.getLast?_append, hlast]
  rfl

theorem Separate.tail {c : Char} {before rest : List Char} (h : Separate (c :: before) rest) :
    Separate before rest :=
  @Separate.of_append [c] before rest h

/-- A token is read the same before any text that it cannot go on into. -/
theorem lexeme?_of_stops {c : Char} {cs text rest other : List Char} {kind : TokenKind}
    (hl : lexeme? c cs = some (kind, text, rest)) (h : kind.StopsAt other) :
    lexeme? c (text.tail ++ other) = some (kind, text, other) := by
  refine Lexeme.lexeme?_eq ?_
  cases lexeme?_spec hl with
  | number hdigit => exact .number_of_stop hdigit List.all_takeWhile fun d hd => (h d hd).1 rfl
  | name halpha => exact .name_of_stop halpha List.all_takeWhile fun d hd => (h d hd).2.1 rfl
  | stars hfirst _ => exact .stars hfirst rfl
  | sign hsign _ =>
    refine .sign hsign ?_
    rintro rfl hstar
    cases hsign
    exact (h '*' hstar).2.2 rfl rfl

/-- A token cannot go on into a text that is separate from it. -/
theorem lexeme?_stopsAt {c : Char} {cs text rest other : List Char} {kind : TokenKind}
    (hl : lexeme? c cs = some (kind, text, rest)) (h : Separate text other) :
    kind.StopsAt other := by
  intro d hd
  refine ⟨fun _ => h.1.not_continuesNumber d hd, fun _ => h.1.not_alphanum d hd, ?_⟩
  rintro rfl rfl
  cases lexeme?_spec hl with
  | sign hsign _ =>
    obtain rfl := (signKind?_ne hsign).2.2.2 rfl
    exact h.2 hd rfl

/-- No token can be cut into two parts that are separate. -/
theorem lexeme?_not_separate {c d : Char} {cs text before part rest after : List Char}
    {kind : TokenKind} (hl : lexeme? c cs = some (kind, text, rest))
    (htext : text = before ++ d :: part) (hbefore : before ≠ []) :
    ¬ Separate before (d :: after) := by
  intro h
  obtain ⟨b, before, rfl⟩ := List.exists_cons_of_ne_nil hbefore
  cases lexeme?_spec hl with
  | number _ =>
    obtain ⟨rfl, hcs⟩ := List.cons.inj htext
    have hd : continuesNumber d = true := List.mem_takeWhile_imp (by rw [hcs]; simp)
    simp [h.1.not_continuesNumber d rfl] at hd
  | name _ =>
    obtain ⟨rfl, hcs⟩ := List.cons.inj htext
    have hd : d.isAlphanum = true := List.mem_takeWhile_imp (by rw [hcs]; simp)
    simp [h.1.not_alphanum d rfl] at hd
  | stars _ _ =>
    obtain ⟨rfl, hcs⟩ := List.cons.inj htext
    cases before with
    | nil =>
      obtain ⟨rfl, -⟩ := List.cons.inj hcs
      exact h.2 rfl rfl
    | cons _ before => cases before <;> simp at hcs
  | sign _ _ => cases before <;> simp at htext

theorem byteLength_pos {cs : List Char} (h : cs ≠ []) : 0 < byteLength cs := by
  obtain ⟨c, cs, rfl⟩ := List.exists_cons_of_ne_nil h
  rw [byteLength_cons]
  exact Nat.lt_of_lt_of_le c.utf8Size_pos (Nat.le_add_right _ _)

/-- Whether the stream of a text can be cut behind its first part: the tokens of that part come
first when the second part is left as it is, and also when it is replaced by one that is
separate. -/
def CutsAt (before after : List Char) (position : Nat) : Prop :=
  ∃ ts, ∀ rest, rest = after ∨ Separate before rest →
    Passes (before ++ rest) position ts rest (position + byteLength before)

theorem CutsAt.nil (after : List Char) (position : Nat) : CutsAt [] after position :=
  ⟨[], fun _ _ => rfl⟩

/-- One token more before a cut. -/
theorem CutsAt.lexeme {c : Char} {cs text before after : List Char} {kind : TokenKind}
    {position : Nat} (hc : isBlank c = false)
    (hl : lexeme? c cs = some (kind, text, before ++ after))
    (h : CutsAt before after (position + byteLength text)) :
    CutsAt (text ++ before) after position := by
  obtain ⟨ts, hts⟩ := h
  refine ⟨⟨kind, String.ofList text, position⟩ :: ts, fun rest hrest => ?_⟩
  -- What follows the token is what followed it, unless the cut is right behind it.
  have hstops : kind.StopsAt (before ++ rest) := by
    have hstops := lexeme?_stops hl
    cases before with
    | nil =>
      rcases hrest with rfl | hrest
      · exact hstops
      · rw [List.append_nil] at hrest
        exact lexeme?_stopsAt hl hrest
    | cons d before => exact hstops
  have hread := lexeme?_of_stops hl hstops
  have hcons : text ++ before ++ rest = c :: (text.tail ++ (before ++ rest)) := by
    obtain ⟨d, tail, rfl⟩ := List.exists_cons_of_ne_nil (lexeme?_text_ne_nil hl)
    obtain ⟨rfl, -⟩ := List.cons.inj (lexeme?_text hl)
    simp
  rw [Passes, hcons, streamFrom_lexeme hc hread, byteLength_append, ← Nat.add_assoc,
    hts rest (hrest.imp_right .of_append)]
  rfl

/-- In a text without faults each place is one where the stream can be cut, unless a token reaches
over it that the text after the place continues. -/
theorem streamFrom_cut (cs : List Char) (position : Nat) : ∀ before after,
    cs = before ++ after → (∀ fault, .error fault ∉ streamFrom cs position) →
      CutsAt before after position ∨ ¬ Separate before after ∧
        ∃ t, .ok t ∈ streamFrom cs position ∧ t.position < position + byteLength before ∧
          position + byteLength before < t.stop := by
  induction cs, position using streamFrom_induction with
  | nil position =>
    intro before after hsplit _
    obtain ⟨rfl, rfl⟩ := List.append_eq_nil_iff.mp hsplit.symm
    exact .inl (.nil [] position)
  | blank c cs position hc ih =>
    intro before after hsplit hok
    cases before with
    | nil => exact .inl (.nil after position)
    | cons d before =>
      obtain ⟨rfl, rfl⟩ := List.cons.inj hsplit
      rw [streamFrom_blank hc] at hok ⊢
      rw [byteLength_cons, ← Nat.add_assoc]
      rcases ih before after rfl hok with ⟨ts, hts⟩ | ⟨hseparate, hcrossing⟩
      · refine .inl ⟨ts, fun rest hrest => ?_⟩
        rw [Passes, List.cons_append, streamFrom_blank hc, byteLength_cons, ← Nat.add_assoc]
        exact hts rest (hrest.imp_right .tail)
      · exact .inr ⟨mt .tail hseparate, hcrossing⟩
  | unknown c cs position hc hl =>
    intro before after _ hok
    rw [streamFrom_unknown hc hl] at hok
    exact absurd (List.mem_singleton_self _) (hok _)
  | lexeme c cs position kind text rest hc hl ih =>
    intro before after hsplit hok
    rw [streamFrom_lexeme hc hl] at hok ⊢
    have hrest : ∀ fault, .error fault ∉ streamFrom rest (position + byteLength text) :=
      fun fault hmem => hok fault (List.mem_cons_of_mem _ hmem)
    rw [lexeme?_text hl] at hsplit
    rcases split_cases hsplit with ⟨part, rfl, rfl⟩ | ⟨d, part, htext, rfl⟩
    · rw [byteLength_append, ← Nat.add_assoc]
      rcases ih part after rfl hrest with hcut | ⟨hseparate, t, hmem, hcrossing⟩
      · exact .inl (hcut.lexeme hc hl)
      · exact .inr ⟨mt .of_append hseparate, t, List.mem_cons_of_mem _ hmem, hcrossing⟩
    · -- The cut is before the token, or inside it.
      cases before with
      | nil => exact .inl (.nil _ position)
      | cons b before =>
        have hne := List.cons_ne_nil b before
        refine .inr ⟨lexeme?_not_separate hl htext hne, _, List.mem_cons_self, ?_, ?_⟩
        · exact Nat.lt_add_of_pos_right (byteLength_pos hne)
        · rw [Token.stop, utf8ByteSize_ofList, htext, byteLength_append]
          have hpart := byteLength_pos (List.cons_ne_nil d part)
          dsimp only
          omega

/-- The place of a text does not matter for what its stream says. -/
theorem streamFrom_alike (cs : List Char) (position : Nat) : ∀ place,
    List.Forall₂ Alike (streamFrom cs position) (streamFrom cs place) := by
  induction cs, position using streamFrom_induction with
  | nil position =>
    intro place
    rw [streamFrom_nil, streamFrom_nil]
    exact .cons (.token rfl fun _ => rfl) .nil
  | blank c cs position hc ih =>
    intro place
    rw [streamFrom_blank hc, streamFrom_blank hc]
    exact ih _
  | unknown c cs position hc hl =>
    intro place
    rw [streamFrom_unknown hc hl, streamFrom_unknown hc hl]
    exact .cons .unknown .nil
  | lexeme c cs position kind text rest hc hl ih =>
    intro place
    rw [streamFrom_lexeme hc hl, streamFrom_lexeme hc hl]
    exact .cons (.token rfl fun _ => rfl) (ih _)

end Fluxion
