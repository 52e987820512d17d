import Fluxion.Token.Basic
import Fluxion.Diagnostic
import Fluxion.Text.Blank

/-! Splitting a formula into tokens. A token is as long as it can be, and blanks separate tokens
but belong to none. -/
namespace Fluxion

/-- Whether a character continues a number. Any count of points is taken here. -/
def continuesNumber (c : Char) : Bool := c.isDigit || c = '.'

def signKind? : Char → Option TokenKind
  | '+' => some (.operator .add)
  | '-' => some (.operator .sub)
  | '*' => some (.operator .mul)
  | '/' => some (.operator .div)
  | '^' => some (.operator .pow)
  | '(' => some .openParen
  | ')' => some .closeParen
  | ',' => some .comma
  | _ => none

/-- The token that starts with `c` in a text `c :: cs`: its kind, its characters, and the text
after it. Letters and digits are those of ASCII, and two stars are one power sign. -/
def lexeme? (c : Char) (cs : List Char) : Option (TokenKind × List Char × List Char) :=
  if c.isDigit then
    some (.number, c :: cs.takeWhile continuesNumber, cs.dropWhile continuesNumber)
  else if c.isAlpha then
    some (.name, c :: cs.takeWhile Char.isAlphanum, cs.dropWhile Char.isAlphanum)
  else if c = '*' ∧ cs.head? = some '*' then some (.operator .pow, ['*', '*'], cs.tail)
  else (signKind? c).map fun kind => (kind, [c], cs)

/-- The text after a token is no longer than the text after its first character. -/
theorem lexeme?_rest_length {c : Char} {cs text rest : List Char} {kind : TokenKind}
    (h : lexeme? c cs = some (kind, text, rest)) : rest.length ≤ cs.length := by
  unfold lexeme? at h
  split at h
  · cases h; exact (List.dropWhile_suffix _).length_le
  · split at h
    · cases h; exact (List.dropWhile_suffix _).length_le
    · split at h
      · cases h; simp
      · obtain ⟨_, _, h⟩ := Option.map_eq_some_iff.1 h
        cases h; exact Nat.le_refl _

/-- A cursor in a formula. Only `next?` looks at `finished`. -/
structure Tokenizer where
  input : String
  rest : List Char
  /-- Byte offset of `rest` in the input. -/
  position : Nat
  finished : Bool
  deriving DecidableEq, Repr

namespace Tokenizer

def ofString (input : String) : Tokenizer := ⟨input, input.toList, 0, false⟩

def advance (t : Tokenizer) (taken rest : List Char) : Tokenizer :=
  { t with rest := rest, position := t.position + byteLength taken }

def skipBlanks (t : Tokenizer) : Tokenizer :=
  t.advance (t.rest.takeWhile isBlank) (t.rest.dropWhile isBlank)

def tokenHere (t : Tokenizer) : Except Diagnostic Token × Tokenizer :=
  match t.rest with
  | [] => (.ok ⟨.finish, "", t.position⟩, t)
  | c :: cs =>
    match lexeme? c cs with
    | none => (.error (.located .unknownToken t.position), t)
    | some (kind, text, rest) => (.ok ⟨kind, String.ofList text, t.position⟩, t.advance text rest)

/-- The token ahead. The cursor moves past it, and past the blanks before it; at the end of the
text and before a character that starts no token it stays, so that asking again answers the
same. -/
def nextToken (t : Tokenizer) : Except Diagnostic Token × Tokenizer :=
  t.skipBlanks.tokenHere

def isLast : Except Diagnostic Token → Bool
  | .ok token => token.kind = .finish
  | .error _ => true

/-- The next token of the stream. Nothing comes after the first end or fault that was drawn
here. -/
def next? (t : Tokenizer) : Option (Except Diagnostic Token) × Tokenizer :=
  if t.finished then (none, t)
  else
    let (result, after) := t.nextToken
    (some result, if isLast result then { after with finished := true } else after)

def remaining (t : Tokenizer) : Nat := if t.finished then 0 else t.rest.length + 1

/-- A token that is not the last one takes characters. -/
theorem tokenHere_rest_length {t : Tokenizer} (h : isLast t.tokenHere.1 = false) :
    t.tokenHere.2.rest.length < t.rest.length := by
  unfold tokenHere at *
  split at h
  · simp [isLast] at h
  · next hc =>
    split at h
    · simp [isLast] at h
    · next hl => simpa [hc, hl, advance] using Nat.lt_succ_of_le (lexeme?_rest_length hl)

/-- Looking at a token does not end the stream. -/
theorem tokenHere_finished (t : Tokenizer) : t.tokenHere.2.finished = t.finished := by
  unfold tokenHere
  split
  · rfl
  · split <;> rfl

/-- Each result that the stream yields brings its end nearer. -/
theorem next?_remaining {t : Tokenizer} {result : Except Diagnostic Token}
    (h : t.next?.1 = some result) : t.next?.2.remaining < t.remaining := by
  unfold next? at *
  by_cases hf : t.finished
  · simp [hf] at h
  · by_cases hl : isLast t.nextToken.1
    · simp [hf, hl, remaining]
    · have hs : t.skipBlanks.rest.length ≤ t.rest.length :=
        (List.dropWhile_suffix isBlank).length_le
      have hr := tokenHere_rest_length (Bool.eq_false_iff.2 hl)
      have hn : t.nextToken.2.finished = t.finished := tokenHere_finished _
      simp only [hf, hl, remaining, hn, Bool.false_eq_true, if_false]
      simp only [nextToken]
      omega

def drain (t : Tokenizer) : List (Except Diagnostic Token) × Tokenizer :=
  match h : t.next? with
  | (none, after) => ([], after)
  | (some result, after) =>
    have : after.remaining < t.remaining := by
      simpa only [h] using @next?_remaining t result (by rw [h])
    let (results, last) := after.drain
    (result :: results, last)
termination_by t.remaining

end Tokenizer

/-- The stream of a formula: its tokens, and last the end or the first fault. -/
def tokenStream (input : String) : List (Except Diagnostic Token) :=
  (Tokenizer.ofString input).drain.1

def tokenize (input : String) : Except Diagnostic (List Token) :=
  (tokenStream input).mapM id

end Fluxion
