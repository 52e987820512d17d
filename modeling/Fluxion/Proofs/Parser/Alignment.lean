import Fluxion.Parser
import Fluxion.Proofs.Outcome
import Fluxion.Proofs.Token.Tiling

/-! Two runs of the parser side by side. They see the same kinds of token at other places, so they
hold the same operands and blame places that correspond. -/
namespace Fluxion

/-- Whether two results of a token stream are the same to the parser, wherever they stand. -/
inductive Alike : Except Diagnostic Token → Except Diagnostic Token → Prop where
  | token {t u : Token} (kind : t.kind = u.kind)
      (text : t.kind = .number ∨ t.kind = .name → t.text = u.text) : Alike (.ok t) (.ok u)
  | unknown {position place : Nat} :
      Alike (.error (.located .unknownToken position)) (.error (.located .unknownToken place))

def isComma : Except Diagnostic Token → Bool
  | .ok t => t.kind = .comma
  | .error _ => false

def withoutCommas (stream : List (Except Diagnostic Token)) : List (Except Diagnostic Token) :=
  stream.filter fun result => !isComma result

theorem withoutCommas_comma {t : Token} (h : t.kind = .comma)
    (stream : List (Except Diagnostic Token)) :
    withoutCommas (.ok t :: stream) = withoutCommas stream := by
  simp [withoutCommas, isComma, h]

theorem withoutCommas_token {t : Token} (h : t.kind ≠ .comma)
    (stream : List (Except Diagnostic Token)) :
    withoutCommas (.ok t :: stream) = .ok t :: withoutCommas stream := by
  simp [withoutCommas, isComma, h]

def SameReading (input other : String) : Prop :=
  List.Forall₂ Alike (withoutCommas (tokenStream input)) (withoutCommas (tokenStream other))

/-- Whether a place of one formula and a place of another are those of results that come at the
same turn when commas are not counted. -/
def Corresponding (input other : String) (position place : Nat) : Prop :=
  ∃ pair ∈ (withoutCommas (tokenStream input)).zip (withoutCommas (tokenStream other)),
    place? pair.1 = some position ∧ place? pair.2 = some place

/-- Whether two diagnostics have one cause, and ranges of one length that start at places in the
relation. -/
def Diagnostic.Matches (R : Nat → Nat → Prop) (fault other : Diagnostic) : Prop :=
  fault.cause = other.cause ∧ ∃ position place size, R position place ∧
    fault.span = some ⟨position, position + size⟩ ∧ other.span = some ⟨place, place + size⟩

inductive Agree (R : Nat → Nat → Prop) {α β : Type} (post : α → β → Prop) :
    Except Diagnostic α → Except Diagnostic β → Prop where
  | ok {a : α} {b : β} (h : post a b) : Agree R post (.ok a) (.ok b)
  | error {fault other : Diagnostic} (h : fault.Matches R other) :
      Agree R post (.error fault) (.error other)

namespace Agree
variable {R : Nat → Nat → Prop} {α β γ δ : Type} {post : α → β → Prop} {last : γ → δ → Prop}

theorem located (cause : Cause) {position place : Nat} (h : R position place) :
    Agree R post (.error (.located cause position)) (.error (.located cause place)) :=
  .error ⟨rfl, position, place, 1, h, rfl, rfl⟩

theorem miscounted (cause : Cause) {position place : Nat} (h : R position place) :
    Agree R post (.error (Parser.miscounted cause position))
      (.error (Parser.miscounted cause place)) :=
  .error ⟨rfl, position, place, 0, h, rfl, rfl⟩

theorem bind {x : Except Diagnostic α} {y : Except Diagnostic β} {f : α → Except Diagnostic γ}
    {g : β → Except Diagnostic δ} (h : Agree R post x y)
    (hnext : ∀ a b, post a b → Agree R last (f a) (g b)) : Agree R last (x >>= f) (y >>= g) := by
  cases h with
  | ok h => exact hnext _ _ h
  | error h => exact .error h

/-- Sequencing behind a result on which both runs agree exactly. -/
theorem bind_eq {x y : Except Diagnostic α} {f : α → Except Diagnostic γ}
    {g : α → Except Diagnostic δ} (h : Agree R Eq x y) (hnext : ∀ a, Agree R last (f a) (g a)) :
    Agree R last (x >>= f) (y >>= g) :=
  h.bind fun a _ hab => hab ▸ hnext a

end Agree

namespace Parser

inductive Waiting.Matches (R : Nat → Nat → Prop) : Waiting → Waiting → Prop where
  | operator (op : Operator) {position place : Nat} (h : R position place) :
      Matches R (.operator op position) (.operator op place)
  | openParen {position place : Nat} (h : R position place) :
      Matches R (.openParen position) (.openParen place)

def StacksMatch (R : Nat → Nat → Prop) (pair pair' : List Waiting × List Operand) : Prop :=
  List.Forall₂ (Waiting.Matches R) pair.1 pair'.1 ∧ pair.2 = pair'.2

structure State.Matches (R : Nat → Nat → Prop) (s s' : State) : Prop where
  waiting : List.Forall₂ (Waiting.Matches R) s.waiting s'.waiting
  operands : s.operands = s'.operands
  due : s.operandDue = s'.operandDue

section
variable {R : Nat → Nat → Prop} {limit position place : Nat}

theorem place_agrees (hR : R position place) (operand : Operand) (operands : List Operand) :
    Agree R Eq (Parser.place limit operand position operands)
      (Parser.place limit operand place operands) := by
  unfold Parser.place
  split
  · exact .located _ hR
  · exact .ok rfl

theorem reduce_agrees (hR : R position place) (op : Operator) (operands : List Operand) :
    Agree R Eq (reduce limit op position operands) (reduce limit op place operands) := by
  unfold reduce
  split
  · exact place_agrees hR _ _
  · exact .miscounted _ hR
  · exact .miscounted _ hR

section
variable {waiting waiting' : List Waiting}
  (hw : List.Forall₂ (Waiting.Matches R) waiting waiting')
include hw

theorem reduceBefore_agrees (arriving : Operator) (operands : List Operand) :
    Agree R (StacksMatch R) (reduceBefore limit arriving waiting operands)
      (reduceBefore limit arriving waiting' operands) := by
  induction hw generalizing operands with
  | nil => exact .ok ⟨.nil, rfl⟩
  | cons hfirst hrest ih =>
    cases hfirst with
    | openParen hR => exact .ok ⟨.cons (.openParen hR) hrest, rfl⟩
    | operator top hR =>
      rw [reduceBefore, reduceBefore]
      split
      · exact (reduce_agrees hR top operands).bind_eq ih
      · exact .ok ⟨.cons (.operator top hR) hrest, rfl⟩

theorem reduceToParen_agrees (hR : R position place) (operands : List Operand) :
    Agree R (StacksMatch R) (reduceToParen limit position waiting operands)
      (reduceToParen limit place waiting' operands) := by
  induction hw generalizing operands with
  | nil => exact .located _ hR
  | cons hfirst hrest ih =>
    cases hfirst with
    | openParen _ => exact .ok ⟨hrest, rfl⟩
    | operator top htop =>
      exact (reduce_agrees htop top operands).bind_eq ih

theorem reduceAll_agrees (operands : List Operand) :
    Agree R Eq (reduceAll limit waiting operands) (reduceAll limit waiting' operands) := by
  induction hw generalizing operands with
  | nil => exact .ok rfl
  | cons hfirst hrest ih =>
    cases hfirst with
    | openParen hR => exact .located _ hR
    | operator top hR =>
      exact (reduce_agrees hR top operands).bind_eq ih

end

theorem numberValue_agrees {t u : Token} (htext : t.text = u.text)
    (hR : R t.position u.position) : Agree R Eq (numberValue t) (numberValue u) := by
  unfold numberValue
  rw [htext]
  cases literalValue? u.text.toList with
  | some value => exact .ok rfl
  | none => exact .error ⟨rfl, _, _, _, hR, rfl, rfl⟩

section
variable {s s' : State} (hs : s.Matches R s')
include hs

theorem requireOperandDue_agrees (hR : R position place) :
    Agree R Eq (requireOperandDue s position) (requireOperandDue s' place) := by
  unfold requireOperandDue
  rw [hs.due]
  split
  · exact .ok rfl
  · exact .located _ hR

theorem requireOperatorDue_agrees (hR : R position place) :
    Agree R Eq (requireOperatorDue s position) (requireOperatorDue s' place) := by
  unfold requireOperatorDue
  rw [hs.due]
  split
  · exact .located _ hR
  · exact .ok rfl

theorem placeLeaf_agrees (hR : R position place) (leaf : Expr) :
    Agree R (State.Matches R) (placeLeaf limit leaf position s)
      (placeLeaf limit leaf place s') := by
  unfold placeLeaf
  rw [hs.operands]
  refine (place_agrees hR _ _).bind_eq fun operands => .ok ?_
  exact ⟨hs.waiting, rfl, rfl⟩

/-- Tokens of one kind at places that correspond lead to states that match, or to faults that
match. -/
theorem step_agrees {t u : Token} (hkind : t.kind = u.kind)
    (htext : t.kind = .number ∨ t.kind = .name → t.text = u.text)
    (hR : R t.position u.position) :
    Agree R (State.Matches R) (step limit s t) (step limit s' u) := by
  unfold step
  rw [← hkind]
  cases hk : t.kind with
  | number =>
    refine (requireOperandDue_agrees hs hR).bind_eq fun _ => ?_
    exact (numberValue_agrees (htext (.inl hk)) hR).bind_eq fun value =>
      placeLeaf_agrees hs hR _
  | name =>
    refine (requireOperandDue_agrees hs hR).bind_eq fun _ => ?_
    rw [htext (.inr hk)]
    exact placeLeaf_agrees hs hR _
  | openParen =>
    refine (requireOperandDue_agrees hs hR).bind_eq fun _ => .ok ?_
    exact ⟨.cons (.openParen hR) hs.waiting, hs.operands, hs.due⟩
  | closeParen =>
    refine (requireOperatorDue_agrees hs hR).bind_eq fun _ => ?_
    rw [hs.operands]
    refine (reduceToParen_agrees hs.waiting hR _).bind fun left left' hleft => .ok ?_
    exact ⟨hleft.1, hleft.2, hs.due⟩
  | operator op =>
    refine (requireOperatorDue_agrees hs hR).bind_eq fun _ => ?_
    rw [hs.operands]
    refine (reduceBefore_agrees hs.waiting op _).bind fun left left' hleft => .ok ?_
    exact ⟨.cons (.operator op hR) hleft.1, hleft.2, rfl⟩
  | comma => exact .ok hs
  | finish => exact .ok hs

theorem complete_agrees (hR : R position place) :
    Agree R Eq (complete limit s position) (complete limit s' place) := by
  unfold complete
  refine (requireOperatorDue_agrees hs hR).bind_eq fun _ => ?_
  rw [hs.operands]
  refine (reduceAll_agrees hs.waiting _).bind_eq fun left => ?_
  split
  · exact .ok rfl
  · exact .miscounted _ hR
  · exact .miscounted _ hR

/-- Streams that are alike, at places that correspond, are consumed alike from states that match.
The induction is on the two streams together, with the states general. -/
theorem consume_agrees {stream stream' : List (Except Diagnostic Token)}
    (h : List.Forall₂ (fun result result' => Alike result result' ∧
      ∀ position ∈ place? result, ∀ place ∈ place? result', R position place) stream stream')
    (hlast : ∃ result ∈ stream, Tokenizer.isLast result = true) :
    Agree R Eq (consume limit s stream) (consume limit s' stream') := by
  induction h generalizing s s' with
  | nil =>
    obtain ⟨_, hmem, -⟩ := hlast
    cases hmem
  | cons hfirst hrest ih =>
    obtain ⟨halike, hplaces⟩ := hfirst
    cases halike with
    | unknown => exact .located _ (hplaces _ rfl _ rfl)
    | @token t u hkind htext =>
      have hR : R t.position u.position := hplaces _ rfl _ rfl
      rw [consume, consume, ← hkind]
      split
      · exact complete_agrees hs hR
      · next hfinish =>
        refine (step_agrees hs hkind htext hR).bind fun after after' hafter => ih hafter ?_
        obtain ⟨result, hmem, hresult⟩ := hlast
        rcases List.mem_cons.mp hmem with rfl | hmem
        · exact absurd hresult (by simp [Tokenizer.isLast, hfinish])
        · exact ⟨result, hmem, hresult⟩

end

/-- Commas are inert in every state. -/
theorem consume_withoutCommas (s : State) (stream : List (Except Diagnostic Token)) :
    consume limit s (withoutCommas stream) = consume limit s stream := by
  induction stream generalizing s with
  | nil => rfl
  | cons result stream ih =>
    cases result with
    | error fault => rfl
    | ok t =>
      by_cases hcomma : t.kind = .comma
      · have hstep : step limit s t = .ok s := by simp [step, hcomma]
        rw [withoutCommas_comma hcomma, ih, consume, if_neg (by simp [hcomma]), hstep]
        rfl
      · rw [withoutCommas_token hcomma, consume, consume]
        simp only [ih]

end

theorem State.matches_initial (R : Nat → Nat → Prop) : State.initial.Matches R State.initial :=
  ⟨.nil, rfl, rfl⟩

end Parser

theorem exists_last_withoutCommas (input : String) :
    ∃ result ∈ withoutCommas (tokenStream input), Tokenizer.isLast result = true := by
  obtain ⟨body, last, hstream, hlast, -⟩ := streamFrom_shape input.toList 0
  rw [tokenStream_eq, hstream]
  refine ⟨last, List.mem_filter.mpr ⟨by simp, ?_⟩, hlast⟩
  cases last with
  | error fault => rfl
  | ok t =>
    have hkind : t.kind = .finish := by simpa [Tokenizer.isLast] using hlast
    simp [isComma, hkind]

/-- Formulas that read the same are parsed as the same expression, or refused for the same reason
at results of the streams that correspond. -/
theorem SameReading.parseWithin_agrees {input other : String} (h : SameReading input other)
    (limit : Nat) :
    Agree (Corresponding input other) Eq (Expr.parseWithin limit input)
      (Expr.parseWithin limit other) := by
  rw [Expr.parseWithin, Expr.parseWithin, ← Parser.consume_withoutCommas,
    ← Parser.consume_withoutCommas .initial (tokenStream other)]
  refine Parser.consume_agrees (Parser.State.matches_initial _) ?_ (exists_last_withoutCommas input)
  obtain ⟨hlength, halike⟩ := List.forall₂_iff_zip.mp h
  exact List.forall₂_iff_zip.mpr ⟨hlength, fun hpair =>
    ⟨halike hpair, fun _ hposition _ hplace => ⟨_, hpair, hposition, hplace⟩⟩⟩

end Fluxion
