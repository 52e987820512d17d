import Fluxion.Proofs.Parser.Reading
import Fluxion.Proofs.Token.Flow

/-! The parser accepts exactly what the grammar derives, within its limit on depth, and returns the
expression of the derivation. -/
namespace Fluxion
open Fluxion.Parser

private theorem count_point_of_digits {cs : List Char} (h : ∀ c ∈ cs, c.isDigit = true) :
    cs.count '.' = 0 :=
  List.count_eq_zero.mpr fun hpoint => ne_point_of_isDigit (h _ hpoint) rfl

/-- Text in the form of a number token denotes a number unless it has two points. -/
theorem literalValue?_isSome {cs : List Char} (h : isNumberText cs = true) :
    (literalValue? cs).isSome ↔ cs.count '.' ≤ 1 := by
  cases cs with
  | nil => simp [isNumberText] at h
  | cons first rest =>
    obtain ⟨hfirst, hrest⟩ := Bool.and_eq_true_iff.mp h
    have hwhole : ∀ c ∈ rest.takeWhile Char.isDigit, c.isDigit = true :=
      fun c hc => List.all_eq_true.mp List.all_takeWhile c hc
    have hcount : (first :: rest).count '.' = (rest.dropWhile Char.isDigit).count '.' := by
      rw [← List.takeWhile_append_dropWhile (p := Char.isDigit) (l := rest), ← List.cons_append,
        List.count_append, count_point_of_digits (by simpa [hfirst] using hwhole)]
      simp
    have hafter : ∀ c ∈ rest.dropWhile Char.isDigit, continuesNumber c = true :=
      fun c hc => List.all_eq_true.mp hrest c ((List.dropWhile_suffix _).subset hc)
    rw [hcount, literalValue?, Option.isSome_map, Decimal.ofPlain?]
    simp only [List.dropWhile_cons, List.takeWhile_cons, hfirst, if_true]
    cases hdrop : rest.dropWhile Char.isDigit with
    | nil => simp
    | cons c fraction =>
      have hc : c = '.' := by
        have hno := List.head?_dropWhile_not Char.isDigit rest
        have hyes := hafter c (by simp [hdrop])
        simp_all [continuesNumber]
      subst hc
      by_cases hdigits : ∀ c ∈ fraction, c.isDigit = true
      · have hnone := count_point_of_digits hdigits
        simpa [hnone] using hdigits
      · have hpoint : '.' ∈ fraction := by
          obtain ⟨d, hd, hno⟩ := by simpa using hdigits
          have hyes := hafter d (by simp [hdrop, hd])
          simp_all [continuesNumber]
        have hpos := List.count_pos_iff.mpr hpoint
        simp [hdigits]
        omega

namespace Parser
variable {limit : Nat} {s : State}

/-- Tokens other than the end are taken one after the other. -/
theorem consume_append {body : List Token} (hbody : ∀ t ∈ body, t.kind ≠ .finish)
    (rest : List (Except Diagnostic Token)) :
    consume limit s (body.map .ok ++ rest) =
      run limit s body >>= fun s => consume limit s rest := by
  induction body generalizing s with
  | nil => rfl
  | cons t body ih =>
    have ht : t.kind ≠ .finish := hbody t (by simp)
    have htail : ∀ t ∈ body, t.kind ≠ .finish := fun u hu => hbody u (by simp [hu])
    simp only [List.map_cons, List.cons_append, consume, ht, if_false, bind_eq_bind, run_cons,
      bind_assoc, ih htail]

theorem consume_finish {t : Token} (ht : t.kind = .finish) :
    consume limit s [.ok t] = complete limit s t.position := by
  simp [consume, ht]

end Parser

theorem significant_append_finish {body : List Token} {t : Token} (ht : t.kind = .finish) :
    significant (body ++ [t]) = significant body := by
  simp [significant, Token.isSignificant, ht]

/-- A formula is parsed exactly if its stream has no fault and is derivable, up to commas, with a
syntax tree that settles. -/
theorem parseWithin_eq_ok_iff_derived {limit : Nat} {input : String} {e : Expr} :
    Expr.parseWithin limit input = .ok e ↔
      ∃ (body : List Token) (last : Token) (phrase : Phrase),
        tokenize input = .ok (body ++ [last]) ∧ last.kind = .finish ∧
          (∀ t ∈ body, t.WellFormed) ∧ Derives .sum (significant body) phrase ∧
          phrase.WellNumbered ∧ phrase.expr.depth ≤ limit ∧ e = phrase.expr := by
  obtain ⟨body, last, hstream, hlast, hbody⟩ := streamFrom_shape input.toList 0
  have hkind : ∀ t ∈ body, t.kind ≠ .finish := fun t ht => (hbody t ht).1
  rw [Expr.parseWithin, tokenStream_eq, hstream, consume_append hkind]
  simp only [tokenize_eq_ok_iff, tokenStream_eq, hstream]
  cases last with
  | error fault =>
    constructor
    · intro h
      obtain ⟨_, _, h⟩ := bind_eq_ok.mp h
      simp [consume] at h
    · rintro ⟨body', last', _, htokens, _⟩
      have hmem : Except.error fault ∈ (body' ++ [last']).map Except.ok := by simp [← htokens]
      simp at hmem
  | ok t =>
    have ht : t.kind = .finish := by simpa [Tokenizer.isLast] using hlast
    simp only [consume_finish ht]
    constructor
    · intro h
      obtain ⟨phrase, hp⟩ := derives_of_run h
      rw [← run_significant] at h
      obtain ⟨hn, hd, he⟩ := hp.complete_eq_ok_iff.mp h
      exact ⟨body, t, phrase, by simp, ht, fun u hu => (hbody u hu).2, hp, hn, hd, he⟩
    · rintro ⟨body', last', phrase, htokens, -, -, hp, hn, hd, rfl⟩
      obtain ⟨hbodies, -⟩ := by simpa using htokens
      obtain rfl : body = body' := (List.map_inj_right fun _ _ => Except.ok.inj).mp hbodies
      rw [← run_significant]
      exact hp.complete_eq_ok_iff.mpr ⟨hn, hd, rfl⟩

/-- The numbers of derivable tokens denote numbers exactly if none has two points. -/
theorem Derives.wellNumbered_iff {body : List Token} {phrase : Phrase}
    (h : Derives .sum (significant body) phrase) (hbody : ∀ t ∈ body, t.WellFormed) :
    phrase.WellNumbered ↔ ∀ t ∈ body, t.kind = .number → t.text.toList.count '.' ≤ 1 := by
  rw [Phrase.WellNumbered, h.leaves_eq]
  constructor
  · intro hn t ht hnumber
    have hleaf : t ∈ (significant body).filter fun t => t.kind = .number ∨ t.kind = .name := by
      simp [significant, Token.isSignificant, ht, hnumber]
    exact (literalValue?_isSome ((hbody t ht).1 hnumber)).mp (hn t hleaf hnumber)
  · intro hn t hleaf hnumber
    have ht : t ∈ body := (List.mem_filter.mp (List.mem_filter.mp hleaf).1).1
    exact (literalValue?_isSome ((hbody t ht).1 hnumber)).mpr (hn t ht hnumber)

/-- A formula is parsed as an expression exactly if it splits into tokens, the grammar derives
those that are no commas, no number has two points, and the tree of the derivation is within the
limit. The expression is the tree of the derivation, which holds each operand and sign once, in the
order of the text. -/
theorem parseWithin_eq_ok_iff (limit : Nat) (input : String) (e : Expr) :
    Expr.parseWithin limit input = .ok e ↔
      ∃ (tokens : List Token) (phrase : Phrase),
        tokenize input = .ok tokens ∧ Derives .sum (significant tokens) phrase ∧
          (∀ t ∈ tokens, t.kind = .number → t.text.toList.count '.' ≤ 1) ∧
          phrase.expr.depth ≤ limit ∧ e = phrase.expr ∧
          phrase.tokens = (significant tokens).filter fun t =>
            t.kind ≠ .openParen ∧ t.kind ≠ .closeParen := by
  rw [parseWithin_eq_ok_iff_derived]
  constructor
  · rintro ⟨body, last, phrase, htokens, hlast, hbody, hp, hn, hd, rfl⟩
    refine ⟨_, phrase, htokens, ?_, ?_, hd, rfl, ?_⟩
    · rwa [significant_append_finish hlast]
    · intro t ht hnumber
      rcases List.mem_append.mp ht with ht | ht
      · exact (hp.wellNumbered_iff hbody).mp hn t ht hnumber
      · rw [List.mem_singleton.mp ht, hlast] at hnumber
        cases hnumber
    · rw [significant_append_finish hlast, hp.tokens_eq]
  · rintro ⟨tokens, phrase, htokens, hp, hn, hd, he, -⟩
    obtain ⟨body, last, rfl, hlast, hbody⟩ := tokenize_shape htokens
    rw [significant_append_finish hlast] at hp
    have hnumbers := (hp.wellNumbered_iff hbody).mpr fun t ht => hn t (by simp [ht])
    exact ⟨body, last, phrase, htokens, hlast, hbody, hp, hnumbers, hd, he⟩

end Fluxion
