import Fluxion.Proofs.Token.Misfit

/-! Where the cursor of a tokenizer can stand, and in one statement what the token stream keeps of
a text. -/
namespace Fluxion

namespace Tokenizer

/-- The cursors that come up in a formula, also between the characters of a token and after a
fault: a cursor passes one character, or the next token is asked for in one of the two ways. -/
inductive Reaches (input : String) : Tokenizer → Prop where
  | start : Reaches input (ofString input)
  | character {t : Tokenizer} {c : Char} {cs : List Char} (before : Reaches input t)
      (ahead : t.rest = c :: cs) : Reaches input (t.advance [c] cs)
  | nextToken {t : Tokenizer} (before : Reaches input t) : Reaches input t.nextToken.2
  | next {t : Tokenizer} (before : Reaches input t) : Reaches input t.next?.2

def StandsWithin (input : String) (t : Tokenizer) : Prop :=
  ∃ before, input.toList = before ++ t.rest ∧ t.position = byteLength before

section
variable {input : String} {t : Tokenizer}

theorem StandsWithin.advance (h : t.StandsWithin input) {taken rest : List Char}
    (hrest : t.rest = taken ++ rest) : (t.advance taken rest).StandsWithin input := by
  obtain ⟨before, htext, hposition⟩ := h
  refine ⟨before ++ taken, ?_, ?_⟩
  · rw [htext, hrest, ← List.append_assoc]
    rfl
  · rw [byteLength_append, ← hposition]
    rfl

theorem StandsWithin.tokenHere (h : t.StandsWithin input) :
    t.tokenHere.2.StandsWithin input := by
  unfold Tokenizer.tokenHere
  split
  · exact h
  · next c cs hrest =>
    split
    · exact h
    · next kind text rest hl => exact h.advance (hrest.trans (lexeme?_text hl))

theorem StandsWithin.nextToken (h : t.StandsWithin input) : t.nextToken.2.StandsWithin input :=
  have hskip : t.skipBlanks.StandsWithin input := h.advance List.takeWhile_append_dropWhile.symm
  hskip.tokenHere

theorem StandsWithin.next (h : t.StandsWithin input) : t.next?.2.StandsWithin input := by
  cases hf : t.finished with
  | true => rwa [next?_of_finished hf]
  | false =>
    rw [next?_of_unfinished hf]
    dsimp only
    split
    · exact h.nextToken
    · exact h.nextToken

theorem Reaches.standsWithin (h : Reaches input t) : t.StandsWithin input := by
  induction h with
  | start => exact ⟨[], rfl, rfl⟩
  | character _ ahead ih => exact ih.advance ahead
  | nextToken _ ih => exact ih.nextToken
  | next _ ih => exact ih.next

/-- No cursor stands inside a character. -/
theorem StandsWithin.isValid (h : t.StandsWithin input) :
    String.Pos.Raw.IsValid input ⟨t.position⟩ := by
  obtain ⟨before, htext, hposition⟩ := h
  refine String.Pos.Raw.isValid_iff_exists_append.mpr
    ⟨String.ofList before, String.ofList t.rest, ?_, ?_⟩
  · rw [← String.ofList_append, ← htext, String.ofList_toList]
  · rw [hposition, ← utf8ByteSize_ofList]
    rfl

theorem tokenHere_advances {token : Token} (h : t.tokenHere.1 = .ok token)
    (hkind : token.kind ≠ .finish) :
    t.position < t.tokenHere.2.position ∧ t.tokenHere.2.position = token.stop := by
  unfold tokenHere at *
  split at h
  · cases h
    exact absurd rfl hkind
  · next c cs hrest =>
    split at h
    · cases h
    · next kind text rest hl =>
      cases h
      have hstop : (t.advance text rest).position =
          Token.stop ⟨kind, String.ofList text, t.position⟩ := by
        rw [Token.stop, utf8ByteSize_ofList]
        rfl
      have hsize : (String.ofList text).utf8ByteSize ≠ 0 := by
        simpa [String.utf8ByteSize_eq_zero_iff] using lexeme?_text_ne_nil hl
      refine ⟨?_, by simpa [hl] using hstop⟩
      simp only [hstop, Token.stop]
      omega

/-- A token that is not the end moves the cursor, namely behind the token. -/
theorem nextToken_advances {token : Token} (h : t.nextToken.1 = .ok token)
    (hkind : token.kind ≠ .finish) :
    t.position < t.nextToken.2.position ∧ t.nextToken.2.position = token.stop := by
  obtain ⟨hmoves, hstop⟩ := tokenHere_advances h hkind
  have hskip : t.position ≤ t.skipBlanks.position := Nat.le_add_right _ _
  exact ⟨Nat.lt_of_le_of_lt hskip hmoves, hstop⟩

theorem next?_advances {token : Token} (h : t.next?.1 = some (.ok token))
    (hkind : token.kind ≠ .finish) :
    t.position < t.next?.2.position ∧ t.next?.2.position = token.stop := by
  cases hf : t.finished with
  | true =>
    rw [next?_of_finished hf] at h
    cases h
  | false =>
    rw [next?_of_unfinished hf] at h ⊢
    have htoken : t.nextToken.1 = .ok token := Option.some.inj h
    have hlast : isLast t.nextToken.1 = false := by simpa [htoken, isLast] using hkind
    rw [hlast]
    exact nextToken_advances htoken hkind

end
end Tokenizer

theorem Token.StandsIn.finish {input : String} {t : Token} (h : t.StandsIn input.toList)
    (hkind : t.kind = .finish) : t.position = input.utf8ByteSize := by
  obtain ⟨before, after, -, hposition, hfinish⟩ := h
  rw [hposition, hfinish hkind, byteLength_toList]

/-- The tokens of a formula and the blanks between them are its text, up to the end or to the
fault. No number, name or star could be longer. A formula is refused exactly if it holds a misfit,
and then at the first one. The cursor never stands inside a character, and every token but the
end moves it on, so that there are no more results than bytes, and one. -/
theorem tokenStream_lossless (input : String) :
    Tiles 0 input.toList (tokenStream input) ∧
      (tokenStream input).Pairwise EndsBefore ∧
      (∀ t, .ok t ∈ tokenStream input →
        bytes t.text = ((bytes input).drop t.position).take t.text.utf8ByteSize ∧
          (t.kind = .finish → t.position = input.utf8ByteSize)) ∧
      (tokenStream input).length ≤ input.utf8ByteSize + 1 ∧
      ((∃ fault, tokenize input = .error fault) ↔
        ∃ before c after, input.toList = before ++ c :: after ∧ Misfit before c) ∧
      (∀ fault, tokenize input = .error fault ↔
        ∃ before c after, input.toList = before ++ c :: after ∧ Misfit before c ∧
          Clean [] before ∧ fault = .located .unknownToken (byteLength before)) ∧
      ∀ t, Tokenizer.Reaches input t →
        String.Pos.Raw.IsValid input ⟨t.position⟩ ∧
          ∀ token, token.kind ≠ .finish →
            (t.nextToken.1 = .ok token → t.position < t.nextToken.2.position ∧
              t.nextToken.2.position = token.stop) ∧
            (t.next?.1 = some (.ok token) → t.position < t.next?.2.position ∧
              t.next?.2.position = token.stop) := by
  have htiles : Tiles 0 input.toList (tokenStream input) := by
    rw [tokenStream_eq]
    exact streamFrom_tiles input.toList 0
  have hlength := htiles.length_le
  rw [byteLength_toList] at hlength
  refine ⟨htiles, htiles.ordered, ?_, hlength, tokenize_refused_iff, fun _ => tokenize_eq_error_iff,
    fun t ht => ⟨ht.standsWithin.isValid, fun token hkind => ⟨?_, ?_⟩⟩⟩
  · intro t ht
    have hplaced : t.StandsIn input.toList := tokenStream_placed input _ ht
    exact ⟨hplaced.slice, hplaced.finish⟩
  · exact fun h => Tokenizer.nextToken_advances h hkind
  · exact fun h => Tokenizer.next?_advances h hkind

/-- A name takes digits, but no point behind them. -/
theorem tokenStream_lossless_point :
    tokenize "a1.5" = .error (.located .unknownToken 2) := by
  have hclean : Clean [] ['a', '1'] := .of_alphanum (by simp)
  have hname : ¬ EndsInNumber ([] ++ ['a', '1']) := not_endsInNumber_of_name rfl
  have hmisfit : Misfit ['a', '1'] '.' := ⟨rfl, rfl, by simp [signs], fun h => hname h.2⟩
  obtain ⟨-, -, -, -, -, hfault, -⟩ := tokenStream_lossless "a1.5"
  exact (hfault _).mpr ⟨['a', '1'], '.', ['5'], rfl, hmisfit, hclean, rfl⟩

end Fluxion
