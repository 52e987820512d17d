import Fluxion.Proofs.Token.Spelling

/-! Where the results of a token stream stand in the text. -/
namespace Fluxion

/-- Whether the text of a token stands in a text at the byte offset that the token names. The end
stands behind the whole text. -/
def Token.StandsIn (text : List Char) (t : Token) : Prop :=
  ∃ before after, text = before ++ t.text.toList ++ after ∧ t.position = byteLength before ∧
    (t.kind = .finish → before = text)

def Diagnostic.NamesUnknown (text : List Char) (fault : Diagnostic) : Prop :=
  ∃ before c after, text = before ++ c :: after ∧ isBlank c = false ∧ lexeme? c after = none ∧
    fault = .located .unknownToken (byteLength before)

def Placed (text : List Char) : Except Diagnostic Token → Prop
  | .ok t => t.StandsIn text
  | .error fault => fault.NamesUnknown text

theorem lexeme?_text {c : Char} {cs text rest : List Char} {kind : TokenKind}
    (hl : lexeme? c cs = some (kind, text, rest)) : c :: cs = text ++ rest := by
  cases lexeme?_spec hl with
  | number _ => simp
  | name _ => simp
  | stars hfirst hsecond =>
    rw [hfirst, hsecond]
    rfl
  | sign _ _ => rfl

/-- From any place of a text the stream names places of the text. -/
theorem streamFrom_placed (cs : List Char) (position : Nat) :
    ∀ before, position = byteLength before →
      ∀ result ∈ streamFrom cs position, Placed (before ++ cs) result := by
  induction cs, position using streamFrom_induction with
  | nil position =>
    intro before hposition result hresult
    rw [streamFrom_nil, List.mem_singleton] at hresult
    subst hresult
    exact ⟨before, [], by simp, hposition, by simp⟩
  | blank c cs position hc ih =>
    intro before hposition result hresult
    rw [streamFrom_blank hc] at hresult
    have hnext : position + c.utf8Size = byteLength (before ++ [c]) := by
      rw [byteLength_append, hposition]
      rfl
    simpa using ih (before ++ [c]) hnext result hresult
  | unknown c cs position hc hl =>
    intro before hposition result hresult
    rw [streamFrom_unknown hc hl, List.mem_singleton] at hresult
    subst hresult
    exact ⟨before, c, cs, rfl, hc, hl, by rw [hposition]⟩
  | lexeme c cs position kind text rest hc hl ih =>
    intro before hposition result hresult
    rw [streamFrom_lexeme hc hl] at hresult
    have htext := lexeme?_text hl
    rcases List.mem_cons.mp hresult with rfl | hresult
    · refine ⟨before, rest, by simp [htext], hposition, ?_⟩
      exact fun hfinish => absurd hfinish (lexeme?_kind hl)
    · have hnext : position + byteLength text = byteLength (before ++ text) := by
        rw [byteLength_append, hposition]
      simpa [htext] using ih (before ++ text) hnext result hresult

theorem tokenStream_placed (input : String) :
    ∀ result ∈ tokenStream input, Placed input.toList result := by
  rw [tokenStream_eq]
  exact streamFrom_placed input.toList 0 [] rfl

end Fluxion
