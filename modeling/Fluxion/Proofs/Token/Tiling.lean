import Fluxion.Proofs.Text.ByteOrder
import Fluxion.Proofs.Token.Placement

/-! The token stream divides the text: every token is as long as it can be, and whatever stands
between two tokens, before the end or before a fault is blank. -/
namespace Fluxion

/-- Whether a token of this kind cannot go on into the text after it. -/
def TokenKind.StopsAt (kind : TokenKind) (rest : List Char) : Prop :=
  ∀ c ∈ rest.head?,
    (kind = .number → continuesNumber c = false) ∧ (kind = .name → c.isAlphanum = false) ∧
      (kind = .operator .mul → c ≠ '*')

theorem lexeme?_stops {c : Char} {cs text rest : List Char} {kind : TokenKind}
    (hl : lexeme? c cs = some (kind, text, rest)) : kind.StopsAt rest := by
  intro d hd
  cases lexeme?_spec hl with
  | number _ => exact ⟨fun _ => head?_dropWhile d hd, nofun, nofun⟩
  | name _ => exact ⟨nofun, fun _ => head?_dropWhile d hd, nofun⟩
  | stars _ _ => exact ⟨nofun, nofun, nofun⟩
  | sign hsign hsingle =>
    obtain ⟨hnumber, hname, -, hmul⟩ := signKind?_ne hsign
    refine ⟨fun h => absurd h hnumber, fun h => absurd h hname, ?_⟩
    rintro h rfl
    exact hsingle (hmul h) hd

theorem lexeme?_text_ne_nil {c : Char} {cs text rest : List Char} {kind : TokenKind}
    (hl : lexeme? c cs = some (kind, text, rest)) : text ≠ [] := by
  cases lexeme?_spec hl with
  | number _ => exact List.cons_ne_nil _ _
  | name _ => exact List.cons_ne_nil _ _
  | stars _ _ => exact List.cons_ne_nil _ _
  | sign _ _ => exact List.cons_ne_nil _ _

/-- Of two ways to split a text, one cuts later than the other. -/
theorem split_cases {as bs cs ds : List Char} (h : as ++ bs = cs ++ ds) :
    (∃ part, cs = as ++ part ∧ bs = part ++ ds) ∨
      ∃ c part, as = cs ++ c :: part ∧ ds = c :: part ++ bs := by
  rcases List.append_eq_append_iff.mp h with hlater | ⟨part, has, hds⟩
  · exact .inl hlater
  · cases part with
    | nil => exact .inl ⟨[], by simpa using has.symm, hds.symm⟩
    | cons c part => exact .inr ⟨c, part, has, hds⟩

theorem byteLength_eq_utf8Len (cs : List Char) : byteLength cs = String.utf8Len cs := by
  induction cs with
  | nil => rfl
  | cons c cs ih => rw [byteLength_cons, ih, String.utf8Len_cons, Nat.add_comm]

theorem utf8ByteSize_ofList (cs : List Char) : (String.ofList cs).utf8ByteSize = byteLength cs := by
  rw [String.utf8ByteSize_ofList, byteLength_eq_utf8Len]

theorem byteLength_toList (text : String) : byteLength text.toList = text.utf8ByteSize := by
  rw [← utf8ByteSize_ofList, String.ofList_toList]

theorem length_flatMap_encode (cs : List Char) :
    (cs.flatMap String.utf8EncodeChar).length = byteLength cs := by
  induction cs with
  | nil => rfl
  | cons c cs ih =>
    rw [List.flatMap_cons, List.length_append, String.length_utf8EncodeChar, ih, byteLength_cons]

/-- The text of a token is the slice of the input that its position and its length name. -/
theorem Token.StandsIn.slice {input : String} {t : Token} (h : t.StandsIn input.toList) :
    bytes t.text = ((bytes input).drop t.position).take t.text.utf8ByteSize := by
  obtain ⟨before, after, htext, hposition, -⟩ := h
  have hbefore := length_flatMap_encode before
  have hlength := length_flatMap_encode t.text.toList
  rw [byteLength_toList, ← bytes_eq_flatMap] at hlength
  rw [bytes_eq_flatMap input, htext, List.append_assoc, List.flatMap_append, List.flatMap_append,
    ← bytes_eq_flatMap, hposition, ← hbefore, List.drop_left, ← hlength, List.take_left]

def Token.stop (t : Token) : Nat := t.position + t.text.utf8ByteSize

/-- Whether a stream of results divides a text that starts at a byte offset. Between two results
there are blanks only, and the end or a fault is the last result. -/
inductive Tiles : Nat → List Char → List (Except Diagnostic Token) → Prop where
  | finish {position : Nat} {gap : List Char} (blank : gap.all isBlank = true) :
      Tiles position gap [.ok ⟨.finish, "", position + byteLength gap⟩]
  | fault {position : Nat} {gap : List Char} {c : Char} {rest : List Char}
      (blank : gap.all isBlank = true) (visible : isBlank c = false) :
      Tiles position (gap ++ c :: rest)
        [.error (.located .unknownToken (position + byteLength gap))]
  | token {position : Nat} {gap : List Char} {t : Token} {rest : List Char}
      {stream : List (Except Diagnostic Token)} (blank : gap.all isBlank = true)
      (kind : t.kind ≠ .finish) (form : t.WellFormed) (taken : t.text ≠ "")
      (starts : t.position = position + byteLength gap) (stops : t.kind.StopsAt rest)
      (tail : Tiles t.stop rest stream) :
      Tiles position (gap ++ (t.text.toList ++ rest)) (.ok t :: stream)

def place? : Except Diagnostic Token → Option Nat
  | .ok t => some t.position
  | .error fault => fault.position?

def EndsBefore (result other : Except Diagnostic Token) : Prop :=
  ∀ t, result = .ok t → ∀ place ∈ place? other, t.stop ≤ place

namespace Tiles
variable {position : Nat} {text : List Char} {stream : List (Except Diagnostic Token)}

/-- A blank more in front of a divided text. -/
theorem cons_blank {c : Char} (hc : isBlank c = true)
    (h : Tiles (position + c.utf8Size) text stream) : Tiles position (c :: text) stream := by
  have hgap {gap : List Char} (hblank : gap.all isBlank = true) :
      (c :: gap).all isBlank = true := by rw [List.all_cons, hc, hblank]; rfl
  have hoffset (gap : List Char) :
      position + c.utf8Size + byteLength gap = position + byteLength (c :: gap) :=
    Nat.add_assoc _ _ _
  cases h with
  | finish blank =>
    rw [hoffset]
    exact .finish (hgap blank)
  | fault blank visible =>
    rw [hoffset]
    exact .fault (hgap blank) visible
  | token blank kind form taken starts stops tail =>
    rw [hoffset] at starts
    exact .token (hgap blank) kind form taken starts stops tail

theorem place_ge (h : Tiles position text stream) :
    ∀ result ∈ stream, ∀ place ∈ place? result, position ≤ place := by
  induction h with
  | finish blank =>
    intro result hresult place hplace
    obtain rfl := List.mem_singleton.mp hresult
    obtain rfl := Option.some.inj hplace
    exact Nat.le_add_right _ _
  | fault blank visible =>
    intro result hresult place hplace
    obtain rfl := List.mem_singleton.mp hresult
    obtain rfl := Option.some.inj hplace
    exact Nat.le_add_right _ _
  | @token _ _ t _ _ blank kind form taken starts stops tail ih =>
    intro result hresult place hplace
    rcases List.mem_cons.mp hresult with rfl | hresult
    · obtain rfl := Option.some.inj hplace
      exact starts ▸ Nat.le_add_right _ _
    · have hstop := ih result hresult place hplace
      unfold Token.stop at hstop
      omega

/-- The results lie in order and do not overlap. -/
theorem ordered (h : Tiles position text stream) : stream.Pairwise EndsBefore := by
  induction h with
  | finish blank => exact List.pairwise_singleton _ _
  | fault blank visible => exact List.pairwise_singleton _ _
  | token blank kind form taken starts stops tail ih =>
    refine List.pairwise_cons.mpr ⟨?_, ih⟩
    rintro result hmem _ ⟨⟩ place hplace
    exact tail.place_ge result hmem place hplace

/-- Every token takes a byte at least. -/
theorem length_le (h : Tiles position text stream) : stream.length ≤ byteLength text + 1 := by
  induction h with
  | finish blank => exact Nat.le_add_left _ _
  | fault blank visible => exact Nat.le_add_left _ _
  | @token _ gap t rest stream blank kind form taken starts stops tail ih =>
    have hsize : t.text.utf8ByteSize ≠ 0 := mt String.utf8ByteSize_eq_zero_iff.mp taken
    rw [byteLength_append, byteLength_append, byteLength_toList, List.length_cons]
    omega

end Tiles

theorem streamFrom_tiles (cs : List Char) (position : Nat) :
    Tiles position cs (streamFrom cs position) := by
  induction cs, position using streamFrom_induction with
  | nil position =>
    rw [streamFrom_nil]
    exact .finish rfl
  | blank c cs position hc ih =>
    rw [streamFrom_blank hc]
    exact ih.cons_blank hc
  | unknown c cs position hc hl =>
    rw [streamFrom_unknown hc hl]
    exact @Tiles.fault position [] c cs rfl hc
  | lexeme c cs position kind text rest hc hl ih =>
    rw [streamFrom_lexeme hc hl, lexeme?_text hl]
    have htaken : String.ofList text ≠ "" := by simpa using lexeme?_text_ne_nil hl
    have htail : Tiles (Token.stop ⟨kind, String.ofList text, position⟩) rest
        (streamFrom rest (position + byteLength text)) := by
      rwa [Token.stop, utf8ByteSize_ofList]
    have htoken := @Tiles.token position [] ⟨kind, String.ofList text, position⟩ rest _ rfl
      (lexeme?_kind hl) (lexeme?_wellFormed hl position) htaken rfl (lexeme?_stops hl) htail
    rwa [List.nil_append, String.toList_ofList] at htoken

end Fluxion
