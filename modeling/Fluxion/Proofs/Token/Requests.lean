import Mathlib.Data.List.ReduceOption
import Fluxion.Proofs.Token.Lossless

/-! A tokenizer that is asked now in one and now in the other of its two ways. The answers go along
its one token stream, without gap and without repetition, and the last result of the stream
stays. -/
namespace Fluxion

theorem Tiles.last {position : Nat} {text : List Char} {stream : List (Except Diagnostic Token)}
    (h : Tiles position text stream) :
    ∃ (body : List Token) (last : Except Diagnostic Token), stream = body.map .ok ++ [last] ∧
      (∀ token ∈ body, token.kind ≠ .finish) ∧
      (last = .ok ⟨.finish, "", position + byteLength text⟩ ∨
        ∃ place, last = .error (.located .unknownToken place)) := by
  induction h with
  | finish blank => exact ⟨[], _, rfl, nofun, .inl rfl⟩
  | fault blank visible => exact ⟨[], _, rfl, nofun, .inr ⟨_, rfl⟩⟩
  | @token position gap t rest stream blank kind form taken starts stops tail ih =>
    obtain ⟨body, last, hstream, hbody, hlast⟩ := ih
    have hstop : t.stop + byteLength rest =
        position + byteLength (gap ++ (t.text.toList ++ rest)) := by
      rw [Token.stop, starts, byteLength_append, byteLength_append, byteLength_toList]
      omega
    refine ⟨t :: body, last, by rw [hstream]; rfl, ?_, hstop ▸ hlast⟩
    exact List.forall_mem_cons.mpr ⟨kind, hbody⟩

namespace Tokenizer

inductive Request where
  | nextToken
  | next
  deriving DecidableEq, Repr

def ask (t : Tokenizer) : Request → Option (Except Diagnostic Token) × Tokenizer
  | .nextToken => (some t.nextToken.1, t.nextToken.2)
  | .next => t.next?

def answers (t : Tokenizer) : List Request → List (Option (Except Diagnostic Token))
  | [] => []
  | request :: requests => (t.ask request).1 :: (t.ask request).2.answers requests

def after (t : Tokenizer) : List Request → Tokenizer
  | [] => t
  | request :: requests => (t.ask request).2.after requests

/-- The stream ahead of a cursor, as if none of it had been given out. -/
def ahead (t : Tokenizer) : List (Except Diagnostic Token) := streamFrom t.rest t.position

variable {t : Tokenizer} {last : Except Diagnostic Token}

/-! What one request does. -/

theorem nextToken_flag (t : Tokenizer) (finished : Bool) :
    { t with finished := finished }.nextToken =
      (t.nextToken.1, { t.nextToken.2 with finished := finished }) := by
  change { t.skipBlanks with finished := finished }.tokenHere = _
  unfold nextToken tokenHere
  dsimp only
  split
  · rfl
  · split <;> rfl

/-- Only `next` is ever left without an answer, and only once the stream has ended for it. Any other
request is answered with the token ahead; the stream ends for `next` as soon as `next` gives out its
last result. -/
theorem ask_cases (t : Tokenizer) (request : Request) :
    (request = .next ∧ t.finished = true ∧ t.ask request = (none, t)) ∨
      ∃ finished,
        t.ask request = (some t.nextToken.1, { t.nextToken.2 with finished := finished }) ∧
        (request = .next → t.finished = false) ∧
        (finished = true ↔
          t.finished = true ∨ request = .next ∧ isLast t.nextToken.1 = true) := by
  cases request with
  | nextToken =>
    refine .inr ⟨t.finished, ?_, nofun, by simp⟩
    rw [← nextToken_finished]
    rfl
  | next =>
    cases hf : t.finished with
    | true => exact .inl ⟨rfl, rfl, next?_of_finished hf⟩
    | false =>
      refine .inr ⟨isLast t.nextToken.1, ?_, fun _ => rfl, by simp⟩
      rw [ask, next?_of_unfinished hf]
      cases hl : isLast t.nextToken.1 with
      | true => rfl
      | false => rw [if_neg Bool.false_ne_true, ← hf, ← nextToken_finished]

/-- The cursor stays at the end and before a fault. -/
theorem tokenHere_of_last (h : isLast t.tokenHere.1 = true) : t.tokenHere.2 = t := by
  unfold tokenHere at *
  split at h
  · rfl
  · split at h
    · rfl
    · next hl => exact absurd (by simpa [isLast] using h) (lexeme?_kind hl)

theorem skipBlanks_skipBlanks (t : Tokenizer) : t.skipBlanks.skipBlanks = t.skipBlanks := by
  have hnone : (t.rest.dropWhile isBlank).takeWhile isBlank = [] := by
    rw [List.takeWhile_eq_nil_iff]
    intro hpos
    simpa using List.dropWhile_get_zero_not isBlank t.rest hpos
  simp [skipBlanks, advance, hnone, byteLength, List.dropWhile_idempotent]

/-- Once it is there, asking again gives the last result again. -/
theorem nextToken_of_last (h : isLast t.nextToken.1 = true) :
    t.nextToken.2 = t.skipBlanks ∧ t.skipBlanks.nextToken = t.nextToken := by
  refine ⟨tokenHere_of_last h, ?_⟩
  rw [nextToken, skipBlanks_skipBlanks, nextToken]

theorem ahead_eq (t : Tokenizer) :
    t.ahead = t.nextToken.1 ::
      if isLast t.nextToken.1 then [] else t.nextToken.2.ahead := by
  have hfresh : (Tokenizer.mk "" t.rest t.position false).nextToken =
      (t.nextToken.1, { t.nextToken.2 with input := "", finished := false }) := by
    change { { t with input := "" } with finished := false }.nextToken = _
    rw [nextToken_flag, nextToken_input]
  rw [ahead, streamFrom, drain_of_unfinished rfl, hfresh, drain_eq_streamFrom rfl]
  rfl

/-! What the stream ahead says of its own last result. -/

def EndsWith (t : Tokenizer) (last : Except Diagnostic Token) : Prop :=
  isLast last = true ∧ t.ahead.getLast? = some last

theorem EndsWith.isLast_iff (h : t.EndsWith last) :
    isLast t.nextToken.1 = true ↔ t.nextToken.1 = last := by
  obtain ⟨hlast, hahead⟩ := h
  refine ⟨fun hnext => ?_, fun hnext => hnext ▸ hlast⟩
  rw [ahead_eq, if_pos hnext] at hahead
  exact Option.some.inj hahead

/-- The last result stays ahead for ever, and in the sequence that repeats it without end a request
goes one place on. -/
theorem EndsWith.nextToken (h : t.EndsWith last) :
    t.nextToken.2.EndsWith last ∧ t.ahead.getD 0 last = t.nextToken.1 ∧
      ∀ k, t.ahead.getD (k + 1) last = t.nextToken.2.ahead.getD k last := by
  obtain ⟨hlast, hahead⟩ := h
  cases hnext : isLast t.nextToken.1 with
  | true =>
    -- The cursor only passes blanks here, so the same one-element stream is ahead again.
    obtain ⟨hstays, hagain⟩ := nextToken_of_last hnext
    have hend : t.ahead = [t.nextToken.1] := by rw [ahead_eq, if_pos hnext]
    have hsame : t.nextToken.2.ahead = t.ahead := by
      rw [hend, hstays, ahead_eq, hagain, if_pos hnext]
    obtain rfl : t.nextToken.1 = last := Option.some.inj (by rw [← hahead, hend]; rfl)
    refine ⟨⟨hlast, by rw [hsame, hahead]⟩, by rw [hend]; rfl, fun k => ?_⟩
    rw [hsame, hend]
    cases k <;> rfl
  | false =>
    have hmore : t.ahead = t.nextToken.1 :: t.nextToken.2.ahead := by
      rw [ahead_eq, hnext]
      rfl
    have hne : t.nextToken.2.ahead ≠ [] := by
      rw [ahead_eq]
      exact List.cons_ne_nil _ _
    refine ⟨⟨hlast, ?_⟩, by rw [hmore]; rfl, fun k => by rw [hmore]; rfl⟩
    rw [← hahead, hmore, List.getLast?_cons_of_ne_nil hne]

theorem EndsWith.ask (h : t.EndsWith last) (request : Request) :
    (t.ask request).2.EndsWith last := by
  obtain ⟨-, -, hask⟩ | ⟨finished, hask, -, -⟩ := ask_cases t request
  · rwa [hask]
  · rw [hask]
    exact h.nextToken.1

/-! What a run of requests gives. -/

/-- The results that are given out are those of the stream ahead, in order, and then the last one
over and over. -/
theorem EndsWith.answers (h : t.EndsWith last) (requests : List Request) (k : Nat)
    {result : Except Diagnostic Token}
    (hresult : (t.answers requests).reduceOption[k]? = some result) :
    result = t.ahead.getD k last := by
  induction requests generalizing t k with
  | nil => simp [Tokenizer.answers] at hresult
  | cons request requests ih =>
    rw [Tokenizer.answers] at hresult
    obtain ⟨-, -, hask⟩ | ⟨finished, hask, -, -⟩ := ask_cases t request
    · rw [hask, List.reduceOption_cons_of_none] at hresult
      exact ih h k hresult
    · obtain ⟨hnext, hhead, htail⟩ := h.nextToken
      rw [hask, List.reduceOption_cons_of_some] at hresult
      cases k with
      | zero => rw [hhead, ← Option.some.inj hresult]
      | succ k =>
        have hflagged : { t.nextToken.2 with finished := finished }.EndsWith last := hnext
        rw [htail]
        exact ih hflagged k hresult

/-- The stream has ended for `next` exactly if it had before, or `next` just gave out its last
result. -/
theorem EndsWith.finished_ask (h : t.EndsWith last) (request : Request) :
    (t.ask request).2.finished = true ↔
      t.finished = true ∨ request = .next ∧ (t.ask request).1 = some last := by
  obtain ⟨rfl, hfinished, hask⟩ | ⟨finished, hask, -, hflag⟩ := ask_cases t request
  · simp [hask, hfinished]
  · rw [hask, hflag, h.isLast_iff, Option.some.injEq]

/-- No answer comes exactly to the requests of `next` behind the one that gave out the last
result. -/
theorem EndsWith.unanswered_iff (h : t.EndsWith last) (requests : List Request) (i : Nat) :
    (t.answers requests)[i]? = some none ↔
      requests[i]? = some .next ∧ (t.finished = true ∨
        ∃ j < i, requests[j]? = some .next ∧ (t.answers requests)[j]? = some (some last)) := by
  induction requests generalizing t i with
  | nil => simp [Tokenizer.answers]
  | cons request requests ih =>
    cases i with
    | zero =>
      obtain ⟨rfl, hfinished, hask⟩ | ⟨finished, hask, hopen, -⟩ := ask_cases t request
      · simp [Tokenizer.answers, hask, hfinished]
      · simpa [Tokenizer.answers, hask] using hopen
    | succ i =>
      -- The flag with which the rest starts says whether the first request ended the stream.
      rw [Tokenizer.answers, List.getElem?_cons_succ, List.getElem?_cons_succ, ih (h.ask request),
        h.finished_ask, Nat.exists_lt_succ_left]
      simp [or_assoc]

theorem answers_length (t : Tokenizer) (requests : List Request) :
    (t.answers requests).length = requests.length := by
  induction requests generalizing t with
  | nil => rfl
  | cons request requests ih => rw [answers, List.length_cons, List.length_cons, ih]

/-- Whether a cursor stands right before the end or before a character that starts no token. -/
def Settled (t : Tokenizer) : Prop := t.skipBlanks = t ∧ isLast t.nextToken.1 = true

theorem Settled.flag (h : t.Settled) (finished : Bool) :
    { t with finished := finished }.Settled := by
  refine ⟨?_, ?_⟩
  · change { t.skipBlanks with finished := finished } = _
    rw [h.1]
  · rw [nextToken_flag]
    exact h.2

theorem settled_of_last (h : isLast t.nextToken.1 = true) : t.nextToken.2.Settled := by
  obtain ⟨hstays, hagain⟩ := nextToken_of_last h
  rw [hstays]
  exact ⟨skipBlanks_skipBlanks t, by rwa [hagain]⟩

theorem Settled.ask (h : t.Settled) (request : Request) :
    (t.ask request).2.Settled ∧ (t.ask request).2.position = t.position := by
  obtain ⟨-, -, hask⟩ | ⟨finished, hask, -, -⟩ := ask_cases t request
  · rw [hask]
    exact ⟨h, rfl⟩
  · have hstays : t.nextToken.2 = t := (nextToken_of_last h.2).1.trans h.1
    rw [hask, hstays]
    exact ⟨h.flag finished, rfl⟩

/-- Behind the last result of the stream the cursor is settled. -/
theorem EndsWith.ask_settled (h : t.EndsWith last) {request : Request}
    (hanswer : (t.ask request).1 = some last) : (t.ask request).2.Settled := by
  obtain ⟨-, -, hask⟩ | ⟨finished, hask, -, -⟩ := ask_cases t request
  · rw [hask] at hanswer
    cases hanswer
  · rw [hask] at hanswer ⊢
    have hlast := h.isLast_iff.mpr (Option.some.inj hanswer)
    exact (settled_of_last hlast).flag finished

theorem after_append (t : Tokenizer) (requests more : List Request) :
    t.after (requests ++ more) = (t.after requests).after more := by
  induction requests generalizing t with
  | nil => rfl
  | cons request requests ih => exact ih _

theorem Settled.after (h : t.Settled) (requests : List Request) :
    (t.after requests).Settled ∧ (t.after requests).position = t.position := by
  induction requests generalizing t with
  | nil => exact ⟨h, rfl⟩
  | cons request requests ih =>
    obtain ⟨hask, hposition⟩ := h.ask request
    exact ⟨(ih hask).1, (ih hask).2.trans hposition⟩

theorem EndsWith.settled_after (h : t.EndsWith last) {requests : List Request}
    (hanswer : some last ∈ t.answers requests) : (t.after requests).Settled := by
  induction requests generalizing t with
  | nil => cases hanswer
  | cons request requests ih =>
    rcases List.mem_cons.mp hanswer with hfirst | hlater
    · exact ((h.ask_settled hfirst.symm).after requests).1
    · exact ih (h.ask request) hlater

theorem getD_concat {α : Type} (items : List α) (last : α) (k : Nat) :
    (items ++ [last]).getD k last = items.getD k last := by
  rcases Nat.lt_or_ge k items.length with hk | hk
  · exact List.getD_append items [last] last k hk
  · rw [List.getD_append_right items [last] last k hk, List.getD_eq_default items last hk]
    cases k - items.length <;> rfl

/-- However a fresh tokenizer is asked, the answers that it gives are the tokens of the formula in
their order, and behind them the end or the fault, over and over. An answer fails to come exactly to
the requests of `next` behind the one by which `next` itself gave out the end or the fault. Once the
end or the fault is given out, in either way, the cursor stays. -/
theorem answers_follow_stream (input : String) :
    ∃ (body : List Token) (last : Except Diagnostic Token),
      Tiles 0 input.toList (body.map .ok ++ [last]) ∧
      tokenStream input = body.map .ok ++ [last] ∧
      (∀ token ∈ body, token.kind ≠ .finish) ∧
      (last = .ok ⟨.finish, "", input.utf8ByteSize⟩ ∨
        ∃ place, last = .error (.located .unknownToken place)) ∧
      ∀ requests : List Request,
        ((ofString input).answers requests).length = requests.length ∧
        (∀ k result, ((ofString input).answers requests).reduceOption[k]? = some result →
          result = (body.map .ok).getD k last) ∧
        (∀ i : Nat, ((ofString input).answers requests)[i]? = some none ↔
          requests[i]? = some .next ∧ ∃ j < i, requests[j]? = some .next ∧
            ((ofString input).answers requests)[j]? = some (some last)) ∧
        (some last ∈ (ofString input).answers requests → ∀ more,
          ((ofString input).after (requests ++ more)).position =
            ((ofString input).after requests).position) := by
  have htiles := streamFrom_tiles input.toList 0
  obtain ⟨body, last, hstream, hbody, hlast⟩ := htiles.last
  rw [Nat.zero_add, byteLength_toList] at hlast
  have hends : (ofString input).EndsWith last := by
    refine ⟨?_, ?_⟩
    · rcases hlast with rfl | ⟨place, rfl⟩ <;> rfl
    · change (streamFrom input.toList 0).getLast? = some last
      rw [hstream, List.getLast?_concat]
  refine ⟨body, last, hstream ▸ htiles, (tokenStream_eq input).trans hstream, hbody, hlast,
    fun requests => ⟨answers_length _ requests, fun k result hresult => ?_, fun i => ?_,
      fun hanswer more => ?_⟩⟩
  · have hdrawn := hends.answers requests k hresult
    change result = (streamFrom input.toList 0).getD k last at hdrawn
    rw [hdrawn, hstream, getD_concat]
  · rw [hends.unanswered_iff]
    simp [ofString]
  · rw [after_append]
    exact ((hends.settled_after hanswer).after more).2

/-- A fault that `nextToken` gives out first is still given out by `next`, once. -/
example :
    let fault := .error (.located .unknownToken 2)
    (ofString "1 $").answers [.next, .nextToken, .next, .next, .nextToken] =
      [some (.ok ⟨.number, "1", 0⟩), some fault, some fault, none, some fault] := by decide

end Tokenizer
end Fluxion
