import Mathlib
import Fluxion.Proofs.Token.Flow

/-! How the texts of numbers, names and signs are read when something follows them. -/
namespace Fluxion

def Delimits (rest : List Char) : Prop :=
  ∀ c ∈ rest.head?, c.isAlphanum = false ∧ c ≠ '.'

theorem delimits_nil : Delimits [] := by simp [Delimits]

theorem delimits_cons {c : Char} {rest : List Char} (h : c.isAlphanum = false) (hpoint : c ≠ '.') :
    Delimits (c :: rest) := by
  simp [Delimits, h, hpoint]

theorem takeWhile_append_of_stop {p : Char → Bool} {cs rest : List Char} (hcs : cs.all p = true)
    (hrest : ∀ c ∈ rest.head?, p c = false) : (cs ++ rest).takeWhile p = cs := by
  rw [List.takeWhile_append_of_pos (List.all_eq_true.mp hcs)]
  cases rest with
  | nil => simp
  | cons c rest => simp [hrest c rfl]

theorem dropWhile_append_of_stop {p : Char → Bool} {cs rest : List Char} (hcs : cs.all p = true)
    (hrest : ∀ c ∈ rest.head?, p c = false) : (cs ++ rest).dropWhile p = rest := by
  rw [List.dropWhile_append_of_pos (List.all_eq_true.mp hcs)]
  cases rest with
  | nil => simp
  | cons c rest => simp [hrest c rfl]

theorem Delimits.not_alphanum {rest : List Char} (h : Delimits rest) :
    ∀ c ∈ rest.head?, c.isAlphanum = false := fun c hc => (h c hc).1

theorem Delimits.not_continuesNumber {rest : List Char} (h : Delimits rest) :
    ∀ c ∈ rest.head?, continuesNumber c = false := by
  intro c hc
  obtain ⟨halphanum, hpoint⟩ := h c hc
  have hdigit : c.isDigit = false := (Bool.or_eq_false_iff.mp halphanum).2
  simp [continuesNumber, hdigit, hpoint]

private theorem isDigit_iff {c : Char} : c.isDigit = true ↔ 48 ≤ c.toNat ∧ c.toNat ≤ 57 := by
  simp only [Char.isDigit, Bool.and_eq_true, decide_eq_true_eq, UInt32.le_iff_toNat_le, ge_iff_le]
  rfl

private theorem isAlpha_iff {c : Char} : c.isAlpha = true ↔
    65 ≤ c.toNat ∧ c.toNat ≤ 90 ∨ 97 ≤ c.toNat ∧ c.toNat ≤ 122 := by
  simp only [Char.isAlpha, Char.isUpper, Char.isLower, Bool.or_eq_true, Bool.and_eq_true,
    decide_eq_true_eq, UInt32.le_iff_toNat_le, ge_iff_le]
  rfl

private theorem isBlank_iff {c : Char} : isBlank c = true ↔
    ∃ range ∈ blankRanges, range.1.toNat ≤ c.toNat ∧ c.toNat ≤ range.2.toNat := by
  simp only [isBlank, List.any_eq_true, Bool.and_eq_true, decide_eq_true_eq,
    UInt32.le_iff_toNat_le]
  rfl

theorem not_blank_of_alphanum {c : Char} (h : c.isAlpha = true ∨ c.isDigit = true) :
    isBlank c = false := by
  rw [isAlpha_iff, isDigit_iff] at h
  rw [← Bool.not_eq_true, isBlank_iff]
  simp [blankRanges]
  omega

theorem not_digit_of_alpha {c : Char} (h : c.isAlpha = true) : ¬ c.isDigit = true := by
  rw [isAlpha_iff] at h
  rw [isDigit_iff]
  omega

/-- Signs are single bytes apart from blanks, letters and digits. -/
theorem signKind?_char {c : Char} {kind : TokenKind} (h : signKind? c = some kind) :
    isBlank c = false ∧ ¬ c.isDigit = true ∧ ¬ c.isAlpha = true ∧ byteLength [c] = 1 := by
  unfold signKind? at h
  split at h
  all_goals first
    | decide
    | cases h

theorem Lexeme.lexeme?_eq {c : Char} {cs text rest : List Char} {kind : TokenKind}
    (h : Lexeme c cs kind text rest) : lexeme? c cs = some (kind, text, rest) := by
  cases h with
  | number hdigit => rw [lexeme?, if_pos hdigit]
  | name halpha => rw [lexeme?, if_neg (not_digit_of_alpha halpha), if_pos halpha]
  | stars hfirst hsecond =>
    subst hfirst hsecond
    rfl
  | sign hsign hsingle =>
    obtain ⟨-, hdigit, halpha, -⟩ := signKind?_char hsign
    rw [lexeme?, if_neg hdigit, if_neg halpha, if_neg fun h => hsingle h.1 h.2, hsign]
    rfl

/-- A number ends before whatever continues none. -/
theorem Lexeme.number_of_stop {c : Char} {cs rest : List Char} (hdigit : c.isDigit = true)
    (hcs : cs.all continuesNumber = true) (hrest : ∀ d ∈ rest.head?, continuesNumber d = false) :
    Lexeme c (cs ++ rest) .number (c :: cs) rest := by
  have hread : Lexeme c (cs ++ rest) .number _ _ := .number hdigit
  rwa [takeWhile_append_of_stop hcs hrest, dropWhile_append_of_stop hcs hrest] at hread

/-- A name ends before whatever is no letter and no digit. -/
theorem Lexeme.name_of_stop {c : Char} {cs rest : List Char} (halpha : c.isAlpha = true)
    (hcs : cs.all Char.isAlphanum = true) (hrest : ∀ d ∈ rest.head?, d.isAlphanum = false) :
    Lexeme c (cs ++ rest) .name (c :: cs) rest := by
  have hread : Lexeme c (cs ++ rest) .name _ _ := .name halpha
  rwa [takeWhile_append_of_stop hcs hrest, dropWhile_append_of_stop hcs hrest] at hread

theorem streamFrom_number {cs rest : List Char} (h : isNumberText cs = true) (hrest : Delimits rest)
    (position : Nat) :
    streamFrom (cs ++ rest) position =
      .ok ⟨.number, String.ofList cs, position⟩ :: streamFrom rest (position + byteLength cs) := by
  cases cs with
  | nil => simp [isNumberText] at h
  | cons c cs =>
    obtain ⟨hdigit, hcs⟩ := Bool.and_eq_true_iff.mp h
    have hlexeme : Lexeme c (cs ++ rest) .number (c :: cs) rest :=
      .number_of_stop hdigit hcs hrest.not_continuesNumber
    have hblank : isBlank c = false := not_blank_of_alphanum (.inr hdigit)
    exact streamFrom_lexeme hblank hlexeme.lexeme?_eq position

theorem streamFrom_name {cs rest : List Char} (h : isNameText cs = true) (hrest : Delimits rest)
    (position : Nat) :
    streamFrom (cs ++ rest) position =
      .ok ⟨.name, String.ofList cs, position⟩ :: streamFrom rest (position + byteLength cs) := by
  cases cs with
  | nil => simp [isNameText] at h
  | cons c cs =>
    obtain ⟨halpha, hcs⟩ := Bool.and_eq_true_iff.mp h
    have hlexeme : Lexeme c (cs ++ rest) .name (c :: cs) rest :=
      .name_of_stop halpha hcs hrest.not_alphanum
    have hblank : isBlank c = false := not_blank_of_alphanum (.inl halpha)
    exact streamFrom_lexeme hblank hlexeme.lexeme?_eq position

/-- A sign is a token by itself, whatever follows, unless it is the first of two stars. -/
theorem streamFrom_sign {c : Char} {kind : TokenKind} {rest : List Char}
    (h : signKind? c = some kind) (hstars : c = '*' → rest.head? ≠ some '*') (position : Nat) :
    streamFrom (c :: rest) position =
      .ok ⟨kind, String.ofList [c], position⟩ :: streamFrom rest (position + 1) := by
  obtain ⟨hblank, -, -, hsize⟩ := signKind?_char h
  have hlexeme : Lexeme c rest kind [c] rest := .sign h hstars
  rw [streamFrom_lexeme hblank hlexeme.lexeme?_eq, hsize]

theorem byteLength_cons (c : Char) (cs : List Char) :
    byteLength (c :: cs) = c.utf8Size + byteLength cs := rfl

theorem byteLength_append (cs ds : List Char) :
    byteLength (cs ++ ds) = byteLength cs + byteLength ds := by
  induction cs with
  | nil => exact (Nat.zero_add _).symm
  | cons c cs ih => rw [List.cons_append, byteLength_cons, byteLength_cons, ih, Nat.add_assoc]

/-- From one place of a text the stream passes these tokens and comes to another place. -/
def Passes (cs : List Char) (position : Nat) (ts : List Token) (rest : List Char)
    (next : Nat) : Prop :=
  streamFrom cs position = ts.map .ok ++ streamFrom rest next

namespace Passes
variable {cs rest : List Char} {position next : Nat} {ts : List Token}

theorem trans {us : List Token} {last : List Char} {final : Nat}
    (h : Passes cs position ts rest next) (h' : Passes rest next us last final) :
    Passes cs position (ts ++ us) last final := by
  rw [Passes, h, h', List.map_append, List.append_assoc]

theorem number (h : isNumberText cs = true) (hrest : Delimits rest) (position : Nat) :
    Passes (cs ++ rest) position [⟨.number, String.ofList cs, position⟩] rest
      (position + byteLength cs) :=
  streamFrom_number h hrest position

theorem name (h : isNameText cs = true) (hrest : Delimits rest) (position : Nat) :
    Passes (cs ++ rest) position [⟨.name, String.ofList cs, position⟩] rest
      (position + byteLength cs) :=
  streamFrom_name h hrest position

theorem openParen (rest : List Char) (position : Nat) :
    Passes ('(' :: rest) position [⟨.openParen, "(", position⟩] rest (position + 1) :=
  streamFrom_sign rfl (fun h => absurd h (by decide)) position

theorem closeParen (rest : List Char) (position : Nat) :
    Passes (')' :: rest) position [⟨.closeParen, ")", position⟩] rest (position + 1) :=
  streamFrom_sign rfl (fun h => absurd h (by decide)) position

theorem minus (rest : List Char) (position : Nat) :
    Passes ('-' :: rest) position [⟨.operator .sub, "-", position⟩] rest (position + 1) :=
  streamFrom_sign rfl (fun h => absurd h (by decide)) position

theorem raise (rest : List Char) (position : Nat) :
    Passes ('^' :: rest) position [⟨.operator .pow, "^", position⟩] rest (position + 1) :=
  streamFrom_sign rfl (fun h => absurd h (by decide)) position

/-- An operator between two blanks. -/
theorem operator (op : Operator) (rest : List Char) (position : Nat) :
    Passes (' ' :: (op.symbol.toList ++ ' ' :: rest)) position
      [⟨.operator op, op.symbol, position + 1⟩] rest (position + 3) := by
  obtain ⟨c, hsymbol, hsign⟩ : ∃ c, op.symbol.toList = [c] ∧ signKind? c = some (.operator op) := by
    cases op
    · exact ⟨'+', rfl, rfl⟩
    · exact ⟨'-', rfl, rfl⟩
    · exact ⟨'*', rfl, rfl⟩
    · exact ⟨'/', rfl, rfl⟩
    · exact ⟨'^', rfl, rfl⟩
  have hblank (cs : List Char) (position : Nat) :
      streamFrom (' ' :: cs) position = streamFrom cs (position + 1) :=
    streamFrom_blank (by decide) cs position
  rw [Passes, hsymbol, hblank, List.singleton_append, streamFrom_sign hsign fun _ => by simp,
    hblank, ← hsymbol, String.ofList_toList]
  rfl

end Passes
end Fluxion
