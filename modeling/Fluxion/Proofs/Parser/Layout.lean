import Fluxion.Proofs.Token.Cuts
import Fluxion.Proofs.Token.Misfit

/-! Blanks, commas and the spelling of the power sign do not matter: what they change in a formula
is the places of its tokens, and nothing that the parser looks at. -/
namespace Fluxion

def AtBoundary (tokens : List Token) (place : Nat) : Prop :=
  ∀ t ∈ tokens, ¬ (t.position < place ∧ place < t.stop)

/-- Changes to the text of a formula with these tokens that leave its reading as it is. -/
inductive Relayout (tokens : List Token) : List Char → List Char → Prop where
  | blanks {before gap after : List Char} (blank : gap.all isBlank = true)
      (boundary : AtBoundary tokens (byteLength before)) :
      Relayout tokens (before ++ after) (before ++ (gap ++ after))
  | comma {before after : List Char} :
      Relayout tokens (before ++ ',' :: after) (before ++ ' ' :: after)
  | caret {before after : List Char} (left : before.getLast? ≠ some '*') :
      Relayout tokens (before ++ '*' :: '*' :: after) (before ++ '^' :: after)
  | stars {before after : List Char} (left : before.getLast? ≠ some '*') :
      Relayout tokens (before ++ '^' :: after) (before ++ '*' :: '*' :: after)

theorem separate_blank {c : Char} (hc : isBlank c = true) (before rest : List Char) :
    Separate before (c :: rest) := by
  obtain ⟨halphanum, hpoint⟩ := blank_char hc
  refine ⟨delimits_cons halphanum hpoint, fun hstar => ?_⟩
  obtain rfl := Option.some.inj hstar
  exact absurd hc (by decide)

theorem separate_sign {c : Char} (hc : c ∈ signs) (hstar : c ≠ '*') (before rest : List Char) :
    Separate before (c :: rest) := by
  obtain ⟨-, halphanum, hpoint⟩ := sign_char hc
  exact ⟨delimits_cons halphanum hpoint, fun h => absurd (Option.some.inj h) hstar⟩

theorem separate_comma (before rest : List Char) : Separate before (',' :: rest) :=
  separate_sign (by simp [signs]) (by decide) before rest

theorem separate_raise (before rest : List Char) : Separate before ('^' :: rest) :=
  separate_sign (by simp [signs]) (by decide) before rest

theorem separate_star {before : List Char} (left : before.getLast? ≠ some '*')
    (rest : List Char) : Separate before ('*' :: rest) :=
  ⟨delimits_cons rfl (by decide), fun _ => left⟩

theorem streamFrom_blanks {gap : List Char} (hgap : gap.all isBlank = true) (rest : List Char)
    (position : Nat) :
    streamFrom (gap ++ rest) position = streamFrom rest (position + byteLength gap) := by
  induction gap generalizing position with
  | nil => rfl
  | cons c gap ih =>
    rw [List.all_cons, Bool.and_eq_true] at hgap
    rw [List.cons_append, streamFrom_blank hgap.1, ih hgap.2, byteLength_cons, Nat.add_assoc]

theorem streamFrom_comma (rest : List Char) (position : Nat) :
    streamFrom (',' :: rest) position =
      .ok ⟨.comma, ",", position⟩ :: streamFrom rest (position + 1) :=
  streamFrom_sign rfl (fun h => absurd h (by decide)) position

theorem streamFrom_stars (rest : List Char) (position : Nat) :
    streamFrom ('*' :: '*' :: rest) position =
      .ok ⟨.operator .pow, "**", position⟩ :: streamFrom rest (position + 2) :=
  streamFrom_lexeme rfl (Lexeme.stars rfl rfl).lexeme?_eq position

/-- Dropping the commas of two streams that are alike leaves them alike. -/
theorem withoutCommas_alike {stream stream' : List (Except Diagnostic Token)}
    (h : List.Forall₂ Alike stream stream') :
    List.Forall₂ Alike (withoutCommas stream) (withoutCommas stream') := by
  refine List.rel_filter (fun result result' hresult => ?_) h
  cases hresult with
  | token hkind _ => simp [isComma, hkind]
  | unknown => rfl

/-- Where the stream can be cut, the text after the cut may be replaced by one that reads alike. -/
theorem CutsAt.alike {before old new : List Char} {position : Nat} (h : CutsAt before old position)
    (hnew : Separate before new)
    (hrest : List.Forall₂ Alike (withoutCommas (streamFrom old (position + byteLength before)))
      (withoutCommas (streamFrom new (position + byteLength before)))) :
    List.Forall₂ Alike (withoutCommas (streamFrom (before ++ old) position))
      (withoutCommas (streamFrom (before ++ new) position)) := by
  obtain ⟨ts, hts⟩ := h
  rw [hts old (.inl rfl), hts new (.inr hnew)]
  unfold withoutCommas
  rw [List.filter_append, List.filter_append]
  refine List.rel_append (List.forall₂_same.mpr fun result hmem => ?_) hrest
  obtain ⟨t, -, rfl⟩ := List.mem_map.mp (List.mem_filter.mp hmem).1
  exact .token rfl fun _ => rfl

section
variable {input : String} {tokens : List Token} (htokens : tokenize input = .ok tokens)
include htokens

/-- A formula that tokenizes can be cut wherever no token reaches over the cut. -/
theorem cutsAt_of_boundary {before after : List Char} (htext : input.toList = before ++ after)
    (h : AtBoundary tokens (byteLength before) ∨ Separate before after) :
    CutsAt before after 0 := by
  have hstream : streamFrom input.toList 0 = tokens.map .ok := by
    rw [← tokenStream_eq, tokenize_eq_ok_iff.mp htokens]
  rcases streamFrom_cut input.toList 0 before after htext (by simp [hstream]) with
    hcut | ⟨hseparate, t, hmem, hstart, hstop⟩
  · exact hcut
  · rw [Nat.zero_add] at hstart hstop
    rcases h with hboundary | h
    · exact absurd ⟨hstart, hstop⟩ (hboundary t (by simpa [hstream] using hmem))
    · exact absurd h hseparate

theorem Relayout.sameReading {other : String}
    (h : Relayout tokens input.toList other.toList) : SameReading input other := by
  rw [SameReading, tokenStream_eq, tokenStream_eq]
  generalize htext : input.toList = text at h
  generalize other.toList = text' at h
  cases h with
  | @blanks before gap after blank boundary =>
    have hcut := cutsAt_of_boundary htokens htext (.inl boundary)
    cases gap with
    | nil => exact withoutCommas_alike (streamFrom_alike _ 0 0)
    | cons c gap =>
      have hc : isBlank c = true := (Bool.and_eq_true_iff.mp blank).1
      refine hcut.alike (separate_blank hc _ _) ?_
      rw [streamFrom_blanks blank]
      exact withoutCommas_alike (streamFrom_alike after _ _)
  | @comma before after =>
    have hcut := cutsAt_of_boundary htokens htext (.inr (separate_comma before after))
    refine hcut.alike (separate_blank rfl before after) ?_
    rw [streamFrom_comma, withoutCommas_comma rfl, streamFrom_blank rfl]
    exact withoutCommas_alike (streamFrom_alike after _ _)
  | @caret before after left =>
    have hcut := cutsAt_of_boundary htokens htext (.inr (separate_star left _))
    refine hcut.alike (separate_raise before after) ?_
    rw [streamFrom_stars, Passes.raise]
    exact withoutCommas_alike (.cons (.token rfl (by simp)) (streamFrom_alike after _ _))
  | @stars before after left =>
    have hcut := cutsAt_of_boundary htokens htext (.inr (separate_raise before after))
    refine hcut.alike (separate_star left _) ?_
    rw [streamFrom_stars, Passes.raise]
    exact withoutCommas_alike (.cons (.token rfl (by simp)) (streamFrom_alike after _ _))

end

/-- Formulas whose streams are the same up to places, commas and the spelling of signs are parsed
alike under every limit: as one expression, or with faults of one cause at tokens that correspond.
Blanks between tokens, a blank for a comma, and the other spelling of a power lead from a formula
that tokenizes to such a formula. -/
theorem parse_ignores_layout (input other : String) :
    (SameReading input other → ∀ limit,
      Agree (Corresponding input other) Eq (Expr.parseWithin limit input)
        (Expr.parseWithin limit other)) ∧
      ∀ tokens, tokenize input = .ok tokens → Relayout tokens input.toList other.toList →
        SameReading input other :=
  ⟨SameReading.parseWithin_agrees, fun _ htokens h => h.sameReading htokens⟩

/-- A power within a limit that it exceeds is refused for its sign, however that is spelled. -/
theorem parse_ignores_layout_power :
    Agree (Corresponding "x^2" "x**2") Eq (Expr.parseWithin 1 "x^2")
      (Expr.parseWithin 1 "x**2") := by
  let tokens : List Token := [⟨.name, "x", 0⟩, ⟨.operator .pow, "^", 1⟩, ⟨.number, "2", 2⟩,
    ⟨.finish, "", 3⟩]
  have htokens : tokenize "x^2" = .ok tokens := tokenize_eq_ok_iff.mpr (by decide +kernel)
  have hrelayout : Relayout tokens ['x', '^', '2'] ['x', '*', '*', '2'] :=
    @Relayout.stars tokens ['x'] ['2'] (by simp)
  obtain ⟨hparse, hreading⟩ := parse_ignores_layout "x^2" "x**2"
  exact hparse (hreading tokens htokens hrelayout) 1

end Fluxion
