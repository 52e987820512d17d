import Fluxion.Token.Stream
import Fluxion.Proofs.Outcome

/-! The token stream as a function of the text ahead and its byte offset. -/
namespace Fluxion

namespace Tokenizer

theorem nextToken_finished (t : Tokenizer) : t.nextToken.2.finished = t.finished :=
  tokenHere_finished _

theorem next?_of_finished {t : Tokenizer} (h : t.finished = true) : t.next? = (none, t) := by
  simp [next?, h]

theorem next?_of_unfinished {t : Tokenizer} (h : t.finished = false) :
    t.next? = (some t.nextToken.1,
      if isLast t.nextToken.1 then { t.nextToken.2 with finished := true } else t.nextToken.2) := by
  simp [next?, h]

theorem drain_of_none {t after : Tokenizer} (h : t.next? = (none, after)) :
    t.drain = ([], after) := by
  rw [drain]
  split
  · simp_all
  · simp_all

theorem drain_of_some {t after : Tokenizer} {result : Except Diagnostic Token}
    (h : t.next? = (some result, after)) :
    t.drain = (result :: after.drain.1, after.drain.2) := by
  rw [drain]
  split
  · simp_all
  · next he =>
    obtain ⟨rfl, rfl⟩ : result = _ ∧ after = _ := by simpa using h.symm.trans he
    rfl

theorem drain_of_finished {t : Tokenizer} (h : t.finished = true) : t.drain = ([], t) :=
  drain_of_none (next?_of_finished h)

theorem drain_of_unfinished {t : Tokenizer} (h : t.finished = false) :
    t.drain.1 = t.nextToken.1 ::
      if isLast t.nextToken.1 then [] else t.nextToken.2.drain.1 := by
  rw [drain_of_some (next?_of_unfinished h)]
  split
  · rw [drain_of_finished rfl]
  · rfl

theorem tokenHere_input (t : Tokenizer) (input : String) :
    { t with input := input }.tokenHere =
      (t.tokenHere.1, { t.tokenHere.2 with input := input }) := by
  unfold tokenHere
  dsimp only
  split
  · rfl
  · split <;> rfl

theorem nextToken_input (t : Tokenizer) (input : String) :
    { t with input := input }.nextToken =
      (t.nextToken.1, { t.nextToken.2 with input := input }) :=
  tokenHere_input t.skipBlanks input

theorem nextToken_rest_length {t : Tokenizer} (h : isLast t.nextToken.1 = false) :
    t.nextToken.2.rest.length < t.rest.length :=
  Nat.lt_of_lt_of_le (tokenHere_rest_length h) (List.dropWhile_suffix isBlank).length_le

/-- The text behind the cursor does not matter for the stream. -/
theorem drain_input (t : Tokenizer) (h : t.finished = false) (input : String) :
    { t with input := input }.drain.1 = t.drain.1 := by
  induction hn : t.rest.length using Nat.strongRecOn generalizing t with
  | ind n ih =>
    have hu : { t with input := input }.finished = false := h
    rw [drain_of_unfinished hu, drain_of_unfinished h, nextToken_input]
    cases hl : isLast t.nextToken.1 with
    | true => simp
    | false =>
      have hshort := nextToken_rest_length hl
      have hf : t.nextToken.2.finished = false := (nextToken_finished t).trans h
      simp [ih _ (hn ▸ hshort) _ hf rfl]

end Tokenizer

def streamFrom (rest : List Char) (position : Nat) : List (Except Diagnostic Token) :=
  (Tokenizer.mk "" rest position false).drain.1

theorem drain_eq_streamFrom {t : Tokenizer} (h : t.finished = false) :
    t.drain.1 = streamFrom t.rest t.position := by
  rw [← Tokenizer.drain_input t h "", streamFrom, ← h]

theorem tokenStream_eq (input : String) : tokenStream input = streamFrom input.toList 0 :=
  drain_eq_streamFrom rfl

theorem streamFrom_nil (position : Nat) :
    streamFrom [] position = [.ok ⟨.finish, "", position⟩] := by
  rw [streamFrom, Tokenizer.drain_of_unfinished rfl]
  simp [Tokenizer.nextToken, Tokenizer.skipBlanks, Tokenizer.advance, Tokenizer.tokenHere,
    Tokenizer.isLast, byteLength]

theorem streamFrom_blank {c : Char} (hc : isBlank c = true) (cs : List Char) (position : Nat) :
    streamFrom (c :: cs) position = streamFrom cs (position + c.utf8Size) := by
  have hskip : (Tokenizer.mk "" (c :: cs) position false).nextToken =
      (Tokenizer.mk "" cs (position + c.utf8Size) false).nextToken := by
    simp [Tokenizer.nextToken, Tokenizer.skipBlanks, Tokenizer.advance, hc, byteLength,
      Nat.add_assoc]
  have hunfinished (cs : List Char) (position : Nat) :
      (Tokenizer.mk "" cs position false).finished = false := rfl
  rw [streamFrom, streamFrom, Tokenizer.drain_of_unfinished (hunfinished _ _), hskip,
    Tokenizer.drain_of_unfinished (hunfinished _ _)]

theorem streamFrom_unknown {c : Char} {cs : List Char} (hc : isBlank c = false)
    (hl : lexeme? c cs = none) (position : Nat) :
    streamFrom (c :: cs) position = [.error (.located .unknownToken position)] := by
  rw [streamFrom, Tokenizer.drain_of_unfinished rfl]
  simp [Tokenizer.nextToken, Tokenizer.skipBlanks, Tokenizer.advance, Tokenizer.tokenHere,
    Tokenizer.isLast, hc, hl, byteLength]

/-- What a token at the head of a text `c :: cs` can be: its kind, its characters, and the text
after it. -/
inductive Lexeme (c : Char) (cs : List Char) : TokenKind → List Char → List Char → Prop where
  | number (digit : c.isDigit = true) :
      Lexeme c cs .number (c :: cs.takeWhile continuesNumber) (cs.dropWhile continuesNumber)
  | name (alpha : c.isAlpha = true) :
      Lexeme c cs .name (c :: cs.takeWhile Char.isAlphanum) (cs.dropWhile Char.isAlphanum)
  | stars {rest : List Char} (first : c = '*') (second : cs = '*' :: rest) :
      Lexeme c cs (.operator .pow) ['*', '*'] rest
  | sign {kind : TokenKind} (sign : signKind? c = some kind)
      (single : c = '*' → cs.head? ≠ some '*') : Lexeme c cs kind [c] cs

theorem lexeme?_spec {c : Char} {cs text rest : List Char} {kind : TokenKind}
    (hl : lexeme? c cs = some (kind, text, rest)) : Lexeme c cs kind text rest := by
  unfold lexeme? at hl
  split at hl
  · next hdigit =>
    cases hl
    exact .number hdigit
  · split at hl
    · next halpha =>
      cases hl
      exact .name halpha
    · split at hl
      · next hstars =>
        obtain ⟨hfirst, hsecond⟩ := hstars
        obtain ⟨tail, rfl⟩ := List.head?_eq_some_iff.mp hsecond
        cases hl
        exact .stars hfirst rfl
      · next hstars =>
        obtain ⟨kind', hsign, h⟩ := Option.map_eq_some_iff.mp hl
        cases h
        exact .sign hsign fun hfirst hsecond => hstars ⟨hfirst, hsecond⟩

/-- A sign stands for itself, never for an operand or the end. -/
theorem signKind?_ne {c : Char} {kind : TokenKind} (h : signKind? c = some kind) :
    kind ≠ .number ∧ kind ≠ .name ∧ kind ≠ .finish ∧ (kind = .operator .mul → c = '*') := by
  unfold signKind? at h
  split at h <;> cases h <;> simp

theorem lexeme?_kind {c : Char} {cs text rest : List Char} {kind : TokenKind}
    (hl : lexeme? c cs = some (kind, text, rest)) : kind ≠ .finish := by
  cases lexeme?_spec hl with
  | number _ => exact nofun
  | name _ => exact nofun
  | stars _ _ => exact nofun
  | sign hsign _ => exact (signKind?_ne hsign).2.2.1

theorem streamFrom_lexeme {c : Char} {cs text rest : List Char} {kind : TokenKind}
    (hc : isBlank c = false) (hl : lexeme? c cs = some (kind, text, rest)) (position : Nat) :
    streamFrom (c :: cs) position = .ok ⟨kind, String.ofList text, position⟩ ::
      streamFrom rest (position + byteLength text) := by
  have hk := lexeme?_kind hl
  rw [streamFrom, Tokenizer.drain_of_unfinished rfl]
  simp [Tokenizer.nextToken, Tokenizer.skipBlanks, Tokenizer.advance, Tokenizer.tokenHere,
    Tokenizer.isLast, hc, hl, hk, byteLength, streamFrom]

/-- Induction along a stream: a blank, a token, a character that starts none, the end. -/
theorem streamFrom_induction {motive : List Char → Nat → Prop}
    (nil : ∀ position, motive [] position)
    (blank : ∀ c cs position, isBlank c = true → motive cs (position + c.utf8Size) →
      motive (c :: cs) position)
    (unknown : ∀ c cs position, isBlank c = false → lexeme? c cs = none →
      motive (c :: cs) position)
    (lexeme : ∀ c cs position kind text rest, isBlank c = false →
      lexeme? c cs = some (kind, text, rest) → motive rest (position + byteLength text) →
      motive (c :: cs) position)
    (cs : List Char) (position : Nat) : motive cs position := by
  induction hn : cs.length using Nat.strongRecOn generalizing cs position with
  | ind n ih =>
    cases cs with
    | nil => exact nil position
    | cons c cs =>
      obtain rfl : cs.length + 1 = n := hn
      cases hc : isBlank c with
      | true => exact blank c cs position hc (ih _ (Nat.lt_succ_self _) _ _ rfl)
      | false =>
        cases hl : lexeme? c cs with
        | none => exact unknown c cs position hc hl
        | some found =>
          obtain ⟨kind, text, rest⟩ := found
          have hshort := Nat.lt_succ_of_le (lexeme?_rest_length hl)
          exact lexeme c cs position kind text rest hc hl (ih _ hshort _ _ rfl)

theorem head?_dropWhile {p : Char → Bool} {cs : List Char} :
    ∀ c ∈ (cs.dropWhile p).head?, p c = false := by
  intro c hc
  have h := List.head?_dropWhile_not p cs
  rwa [Option.mem_def.mp hc] at h

theorem continuesNumber_iff {c : Char} :
    continuesNumber c = true ↔ c.isDigit = true ∨ c = '.' := by
  simp [continuesNumber]

theorem ne_point_of_isDigit {c : Char} (h : c.isDigit = true) : c ≠ '.' := by
  rintro rfl
  cases h

def isNumberText : List Char → Bool
  | [] => false
  | c :: cs => c.isDigit && cs.all continuesNumber

def isNameText : List Char → Bool
  | [] => false
  | c :: cs => c.isAlpha && cs.all Char.isAlphanum

def Token.WellFormed (t : Token) : Prop :=
  (t.kind = .number → isNumberText t.text.toList = true) ∧
    (t.kind = .name → isNameText t.text.toList = true)

theorem lexeme?_wellFormed {c : Char} {cs text rest : List Char} {kind : TokenKind}
    (hl : lexeme? c cs = some (kind, text, rest)) (position : Nat) :
    Token.WellFormed ⟨kind, String.ofList text, position⟩ := by
  cases lexeme?_spec hl with
  | number hdigit => simp [Token.WellFormed, isNumberText, hdigit]
  | name halpha => simp [Token.WellFormed, isNameText, halpha]
  | stars _ _ => exact ⟨nofun, nofun⟩
  | sign hsign _ =>
    obtain ⟨hnumber, hname, -⟩ := signKind?_ne hsign
    exact ⟨fun h => absurd h hnumber, fun h => absurd h hname⟩

/-- A stream is a run of well-formed tokens, and last the end or a fault. -/
theorem streamFrom_shape (cs : List Char) (position : Nat) :
    ∃ (body : List Token) (last : Except Diagnostic Token),
      streamFrom cs position = body.map .ok ++ [last] ∧
        Tokenizer.isLast last = true ∧ ∀ t ∈ body, t.kind ≠ .finish ∧ t.WellFormed := by
  induction cs, position using streamFrom_induction with
  | nil position => exact ⟨[], _, streamFrom_nil position, rfl, by simp⟩
  | blank c cs position hc ih => rwa [streamFrom_blank hc]
  | unknown c cs position hc hl => exact ⟨[], _, streamFrom_unknown hc hl position, rfl, by simp⟩
  | lexeme c cs position kind text rest hc hl ih =>
    obtain ⟨body, last, hstream, hlast, hbody⟩ := ih
    refine ⟨⟨kind, String.ofList text, position⟩ :: body, last, ?_, hlast, ?_⟩
    · rw [streamFrom_lexeme hc hl, hstream]
      rfl
    · intro t ht
      rcases List.mem_cons.mp ht with rfl | ht
      · exact ⟨lexeme?_kind hl, lexeme?_wellFormed hl position⟩
      · exact hbody t ht

theorem mapM_id_eq_ok_iff {ε α : Type} {results : List (Except ε α)} {values : List α} :
    results.mapM id = .ok values ↔ results = values.map .ok := by
  induction results generalizing values with
  | nil => cases values <;> simp
  | cons result results ih =>
    rw [List.mapM_cons, bind_eq_ok]
    constructor
    · rintro ⟨value, hvalue, hrest⟩
      obtain ⟨rest, hresults, hcons⟩ := bind_eq_ok.mp hrest
      obtain rfl : value :: rest = values := by simpa using hcons
      obtain rfl : result = .ok value := hvalue
      rw [ih.mp hresults, List.map_cons]
    · intro h
      cases values with
      | nil => simp at h
      | cons value values =>
        obtain ⟨rfl, hresults⟩ := List.cons.inj h
        exact ⟨value, rfl, by rw [ih.mpr hresults]; rfl⟩

/-- A formula tokenizes exactly if its stream holds no fault, and then to what the stream holds. -/
theorem tokenize_eq_ok_iff {input : String} {ts : List Token} :
    tokenize input = .ok ts ↔ tokenStream input = ts.map .ok :=
  mapM_id_eq_ok_iff

/-- What a formula tokenizes to is well-formed tokens and the end. -/
theorem tokenize_shape {input : String} {ts : List Token} (h : tokenize input = .ok ts) :
    ∃ body last, ts = body ++ [last] ∧ last.kind = .finish ∧ ∀ t ∈ body, t.WellFormed := by
  obtain ⟨body, last, hstream, hlast, hbody⟩ := streamFrom_shape input.toList 0
  rw [tokenize_eq_ok_iff, tokenStream_eq, hstream] at h
  have hmem : last ∈ ts.map Except.ok := by simp [← h]
  obtain ⟨t, ht, rfl⟩ := List.mem_map.mp hmem
  refine ⟨body, t, ?_, by simpa [Tokenizer.isLast] using hlast, fun u hu => (hbody u hu).2⟩
  have hmap : ts.map (Except.ok (ε := Diagnostic)) = (body ++ [t]).map Except.ok := by simp [← h]
  exact (List.map_inj_right fun _ _ => Except.ok.inj).mp hmap

end Fluxion
