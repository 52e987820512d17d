import Fluxion.Proofs.Parser.Scan
import Fluxion.Proofs.Token.Lossless

/-! What the two stacks of the parser look like in every state that it gets into. There is an operand
for each operator that waits, so whatever the parser takes from a stack is there. -/
namespace Fluxion
open Fluxion.Parser

namespace Parser

/-- The faults of the branches that are there only for stacks that do not fit and for a stream
without an end. -/
inductive NeverDue : Diagnostic → Prop where
  | operand (position : Nat) : NeverDue (miscounted .missingOperand position)
  | operator (position : Nat) : NeverDue (miscounted .missingOperator position)
  | token {fault : Diagnostic} (h : fault.cause = .streamEnded) : NeverDue fault

theorem located_ne_miscounted (cause other : Cause) (position place : Nat) :
    Diagnostic.located cause position ≠ miscounted other place := by
  intro h
  have hspan : Span.single position = ⟨place, place⟩ :=
    Option.some.inj (congrArg Diagnostic.span h)
  obtain ⟨hstart, hstop⟩ := Span.mk.inj hspan
  omega

theorem not_neverDue_located {cause : Cause} (h : cause ≠ .streamEnded) (position : Nat) :
    ¬ NeverDue (.located cause position) := by
  generalize hfault : Diagnostic.located cause position = fault
  rintro (place | place | hended)
  · exact located_ne_miscounted _ _ _ _ hfault
  · exact located_ne_miscounted _ _ _ _ hfault
  · subst hfault
    exact h hended

/-- `x` ends with a result that satisfies `post`, or with a fault at an admitted place, and not by a
branch for stacks that do not fit. -/
def Keeps (places : Nat → Prop) {α : Type} (post : α → Prop) : Except Diagnostic α → Prop
  | .ok a => post a
  | .error fault => ¬ NeverDue fault ∧ ∃ position ∈ fault.position?, places position

section
variable {places : Nat → Prop} {α β : Type} {post : α → Prop} {last : β → Prop}

theorem Keeps.located {cause : Cause} {position : Nat} (hcause : cause ≠ .streamEnded)
    (hp : places position) : Keeps places post (.error (.located cause position)) :=
  ⟨not_neverDue_located hcause position, position, rfl, hp⟩

theorem Keeps.bind {x : Except Diagnostic α} {f : α → Except Diagnostic β}
    (hx : Keeps places post x) (hf : ∀ a, post a → Keeps places last (f a)) :
    Keeps places last (x >>= f) := by
  cases x with
  | ok a => exact hf a hx
  | error fault => exact hx

theorem Keeps.error_of_eq {x : Except Diagnostic α} (hx : Keeps places post x) {fault : Diagnostic}
    (h : x = .error fault) : ¬ NeverDue fault ∧
      ∃ span, fault.span = some span ∧ places span.start := by
  rw [h] at hx
  obtain ⟨hdue, position, hposition, hp⟩ := hx
  obtain ⟨span, hspan, rfl⟩ := Option.map_eq_some_iff.mp hposition
  exact ⟨hdue, span, hspan, hp⟩

end

def Waiting.position : Waiting → Nat
  | .operator _ position | .openParen position => position

/-- Whether an entry may wait above another one: an operator above an operator that does not bind
before it. -/
def Waiting.MayWaitOn : Waiting → Waiting → Prop
  | .operator upper _, .operator lower _ => bindsBefore lower upper = false
  | _, _ => True

/-- What holds of the two stacks at all times. Besides one operand for each operator there are
`extra` more. -/
structure Stacked (limit : Nat) (places : Nat → Prop) (extra : Nat) (waiting : List Waiting)
    (operands : List Operand) : Prop where
  count : operands.length = (signs waiting).length + extra
  ordered : waiting.IsChain Waiting.MayWaitOn
  depths : ∀ o ∈ operands, o.depth = o.expr.depth ∧ o.depth ≤ limit
  placed : ∀ w ∈ waiting, places w.position

def State.Sound (limit : Nat) (places : Nat → Prop) (s : State) : Prop :=
  Stacked limit places (if s.operandDue then 0 else 1) s.waiting s.operands

section
variable {limit extra position : Nat} {places : Nat → Prop} {waiting : List Waiting}
  {operands : List Operand}

theorem State.sound_initial (limit : Nat) (places : Nat → Prop) :
    State.initial.Sound limit places where
  count := rfl
  ordered := .nil
  depths := by simp [State.initial]
  placed := by simp [State.initial]

theorem place_keeps (hp : places position) {operand : Operand}
    (h : operand.depth ≤ limit → Stacked limit places extra waiting (operand :: operands)) :
    Keeps places (Stacked limit places extra waiting) (place limit operand position operands) := by
  unfold place
  split
  · exact .located nofun hp
  · next hlimit => exact h (Nat.le_of_not_lt hlimit)

/-- The topmost operator finds both operands, and they become one. -/
theorem reduce_keeps {op : Operator}
    (h : Stacked limit places 1 (.operator op position :: waiting) operands) :
    Keeps places (Stacked limit places 1 waiting) (reduce limit op position operands) := by
  have hcount : operands.length = (signs waiting).length + 2 := h.count
  obtain ⟨hp, hplaced⟩ := List.forall_mem_cons.mp h.placed
  match operands with
  | [] | [_] => simp at hcount
  | right :: left :: operands =>
    obtain ⟨⟨hright, -⟩, hrest⟩ := List.forall_mem_cons.mp h.depths
    obtain ⟨⟨hleft, -⟩, hdepths⟩ := List.forall_mem_cons.mp hrest
    have hdepth : 1 + max left.depth right.depth = (Expr.binary op left.expr right.expr).depth := by
      rw [hleft, hright, Expr.depth]
    exact place_keeps hp fun hlimit =>
      ⟨Nat.succ.inj hcount, h.ordered.tail, List.forall_mem_cons.mpr ⟨⟨hdepth, hlimit⟩, hdepths⟩,
        hplaced⟩

/-- What is left when an operator arrives lets it wait on top. -/
theorem reduceBefore_keeps (h : Stacked limit places 1 waiting operands) (arriving : Operator)
    (place : Nat) :
    Keeps places (fun left => Stacked limit places 1 left.1 left.2 ∧
        ∀ w ∈ left.1.head?, (Waiting.operator arriving place).MayWaitOn w)
      (reduceBefore limit arriving waiting operands) := by
  induction waiting generalizing operands with
  | nil => exact ⟨h, nofun⟩
  | cons first waiting ih =>
    cases first with
    | openParen position => exact ⟨h, by simp [Waiting.MayWaitOn]⟩
    | operator top position =>
      rw [reduceBefore]
      split
      · exact (reduce_keeps h).bind fun _ hreduced => ih hreduced
      · next hbinds => exact ⟨h, by simpa [Waiting.MayWaitOn] using hbinds⟩

theorem reduceToParen_keeps (hp : places position) (h : Stacked limit places 1 waiting operands) :
    Keeps places (fun left => Stacked limit places 1 left.1 left.2)
      (reduceToParen limit position waiting operands) := by
  induction waiting generalizing operands with
  | nil => exact .located nofun hp
  | cons first waiting ih =>
    cases first with
    | openParen opened =>
      exact ⟨h.count, h.ordered.tail, h.depths, (List.forall_mem_cons.mp h.placed).2⟩
    | operator top _ => exact (reduce_keeps h).bind fun _ hreduced => ih hreduced

theorem reduceAll_keeps (h : Stacked limit places 1 waiting operands) :
    Keeps places (Stacked limit places 1 []) (reduceAll limit waiting operands) := by
  induction waiting generalizing operands with
  | nil => exact h
  | cons first waiting ih =>
    cases first with
    | openParen opened => exact .located nofun (List.forall_mem_cons.mp h.placed).1
    | operator top _ => exact (reduce_keeps h).bind fun _ hreduced => ih hreduced

section
variable {s : State} {t : Token}

theorem requireOperandDue_keeps (hp : places position) :
    Keeps places (fun _ => s.operandDue = true) (requireOperandDue s position) := by
  unfold requireOperandDue
  split
  · assumption
  · exact .located nofun hp

theorem requireOperatorDue_keeps (hp : places position) :
    Keeps places (fun _ => s.operandDue = false) (requireOperatorDue s position) := by
  unfold requireOperatorDue
  split
  · exact .located nofun hp
  · next hdue => exact Bool.eq_false_iff.mpr hdue

theorem numberValue_keeps (hp : places t.position) :
    Keeps places (fun _ => True) (numberValue t) := by
  unfold numberValue
  split
  · trivial
  · exact ⟨fun hdue => by cases hdue; contradiction, t.position, rfl, hp⟩

theorem State.Sound.stacked (h : s.Sound limit places) (hdue : s.operandDue = false) :
    Stacked limit places 1 s.waiting s.operands := by
  unfold State.Sound at h
  rwa [hdue] at h

theorem placeLeaf_keeps (hp : places position) (h : s.Sound limit places)
    (hdue : s.operandDue = true) {leaf : Expr} (hleaf : leaf.depth = 1) :
    Keeps places (State.Sound limit places) (placeLeaf limit leaf position s) := by
  unfold State.Sound at h
  rw [hdue] at h
  have hplaced : Keeps places (Stacked limit places 1 s.waiting)
      (place limit ⟨leaf, 1⟩ position s.operands) :=
    place_keeps hp fun hlimit => ⟨congrArg Nat.succ h.count, h.ordered,
      List.forall_mem_cons.mpr ⟨⟨hleaf.symm, hlimit⟩, h.depths⟩, h.placed⟩
  exact hplaced.bind fun _ hstacked => hstacked

/-- Every token leaves a sound state sound, or is refused. -/
theorem step_keeps (h : s.Sound limit places) (hp : places t.position) :
    Keeps places (State.Sound limit places) (step limit s t) := by
  unfold step
  split
  · refine (requireOperandDue_keeps hp).bind fun _ hdue => ?_
    exact (numberValue_keeps hp).bind fun _ _ => placeLeaf_keeps hp h hdue rfl
  · exact (requireOperandDue_keeps hp).bind fun _ hdue => placeLeaf_keeps hp h hdue rfl
  · refine (requireOperandDue_keeps hp).bind fun _ _ => ?_
    exact ⟨h.count, h.ordered.cons (by simp [Waiting.MayWaitOn]), h.depths,
      List.forall_mem_cons.mpr ⟨hp, h.placed⟩⟩
  · refine (requireOperatorDue_keeps hp).bind fun _ hdue => ?_
    refine (reduceToParen_keeps hp (h.stacked hdue)).bind fun left hleft => ?_
    simpa [Keeps, State.Sound, hdue] using hleft
  · next op _ =>
    refine (requireOperatorDue_keeps hp).bind fun _ hdue => ?_
    refine (reduceBefore_keeps (h.stacked hdue) op t.position).bind fun left hleft => ?_
    obtain ⟨hstacked, hhead⟩ := hleft
    exact ⟨hstacked.count, hstacked.ordered.cons hhead, hstacked.depths,
      List.forall_mem_cons.mpr ⟨hp, hstacked.placed⟩⟩
  · exact h
  · exact h

theorem run_keeps {ts : List Token} (h : s.Sound limit places) (hp : ∀ t ∈ ts, places t.position) :
    Keeps places (State.Sound limit places) (run limit s ts) := by
  induction ts generalizing s with
  | nil => exact h
  | cons t ts ih =>
    obtain ⟨ht, hts⟩ := List.forall_mem_cons.mp hp
    exact (step_keeps h ht).bind fun _ hnext => ih hnext hts

/-- At the end one operand is left, and it is within the limit. -/
theorem complete_keeps (h : s.Sound limit places) (hp : places position) :
    Keeps places (fun e => e.depth ≤ limit) (complete limit s position) := by
  unfold complete
  refine (requireOperatorDue_keeps hp).bind fun _ hdue => ?_
  refine (reduceAll_keeps (h.stacked hdue)).bind fun left hleft => ?_
  match left, hleft.count with
  | [operand], _ =>
    obtain ⟨hdepth, hlimit⟩ := hleft.depths operand (List.mem_singleton_self operand)
    rw [hdepth] at hlimit
    exact hlimit

end
end

theorem bindsBefore_eq_false_iff {lower upper : Operator} :
    bindsBefore lower upper = false ↔ lower.precedence ≤ upper.precedence ∧
      (lower.precedence = upper.precedence → lower = .pow ∧ upper = .pow) := by
  cases lower <;> cases upper <;> decide

/-- Among operators that wait without a parenthesis between them, precedences do not decrease towards
the top, and only powers wait on their equals. -/
theorem pending_ordered {waiting : List Waiting} (h : waiting.IsChain Waiting.MayWaitOn)
    {ops : List (Operator × Nat)} (hops : pending ops <:+: waiting) :
    ops.Pairwise (fun upper lower => lower.1.precedence ≤ upper.1.precedence) ∧
      ops.IsChain fun upper lower =>
        lower.1.precedence = upper.1.precedence → lower.1 = .pow ∧ upper.1 = .pow := by
  have hchain := h.infix hops
  rw [pending, List.isChain_map] at hchain
  have hneighbours := hchain.imp fun upper lower h => bindsBefore_eq_false_iff.mp h
  have htrans : IsTrans (Operator × Nat)
      fun upper lower => lower.1.precedence ≤ upper.1.precedence :=
    ⟨fun _ _ _ hupper hlower => Nat.le_trans hlower hupper⟩
  exact ⟨List.isChain_iff_pairwise.mp (hneighbours.imp fun _ _ h => h.1),
    hneighbours.imp fun _ _ h => h.2⟩

end Parser

theorem Token.StandsIn.isValid {input : String} {t : Token} (h : t.StandsIn input.toList) :
    String.Pos.Raw.IsValid input ⟨t.position⟩ := by
  obtain ⟨before, after, htext, hposition, -⟩ := h
  have hcursor : (Tokenizer.mk input (t.text.toList ++ after) t.position false).StandsWithin input :=
    ⟨before, by rw [htext, List.append_assoc], hposition⟩
  exact hcursor.isValid

theorem parseWithin_keeps (limit : Nat) (input : String) :
    Keeps (fun position => String.Pos.Raw.IsValid input ⟨position⟩) (fun e => e.depth ≤ limit)
      (Expr.parseWithin limit input) := by
  obtain ⟨body, last, hstream, hlast, hbody⟩ := streamFrom_shape input.toList 0
  rw [← tokenStream_eq] at hstream
  have hplaced := tokenStream_placed input
  rw [hstream] at hplaced
  have htokens : ∀ t ∈ body, String.Pos.Raw.IsValid input ⟨t.position⟩ := fun t ht =>
    Token.StandsIn.isValid (hplaced (.ok t) (by simp [ht]))
  rw [Expr.parseWithin, hstream, consume_append fun t ht => (hbody t ht).1]
  refine (run_keeps (State.sound_initial limit _) htokens).bind fun s hs => ?_
  have hend : Placed input.toList last := hplaced last (by simp)
  cases last with
  | ok t =>
    have hkind : t.kind = .finish := by simpa [Tokenizer.isLast] using hlast
    rw [consume_finish hkind]
    exact complete_keeps hs (Token.StandsIn.isValid hend)
  | error fault =>
    obtain ⟨before, c, after, htext, -, -, rfl⟩ := hend
    have hcursor : (Tokenizer.mk input (c :: after) (byteLength before) false).StandsWithin input :=
      ⟨before, htext, rfl⟩
    exact .located (by simp) hcursor.isValid

/-- In each state that tokens lead to, whatever the tokens and the limit are, there is an operand for
each operator that waits, and one more where an operator is due; among operators without a
parenthesis between them precedences do not decrease towards the top, and only powers wait on their
equals; and operands carry the depths of their trees, which are within the limit. So neither the
tokens nor the end ever find an operand missing or one too many, the stream never ends early, and each
fault of a formula has a span that starts at a character or at the end. -/
theorem stacks_sound (limit : Nat) :
    (∀ ts s, run limit .initial ts = .ok s →
      s.operands.length = (Parser.signs s.waiting).length + (if s.operandDue then 0 else 1) ∧
      (∀ ops, pending ops <:+: s.waiting →
        ops.Pairwise (fun upper lower => lower.1.precedence ≤ upper.1.precedence) ∧
        ops.IsChain fun upper lower =>
          lower.1.precedence = upper.1.precedence → lower.1 = .pow ∧ upper.1 = .pow) ∧
      (∀ o ∈ s.operands, o.depth = o.expr.depth ∧ o.depth ≤ limit) ∧
      ∀ position fault, complete limit s position = .error fault → ¬ NeverDue fault) ∧
    (∀ ts fault, run limit .initial ts = .error fault → ¬ NeverDue fault) ∧
    ∀ input fault, Expr.parseWithin limit input = .error fault →
      ¬ NeverDue fault ∧ ∃ span, fault.span = some span ∧
        span.start ≤ input.utf8ByteSize ∧ String.Pos.Raw.IsValid input ⟨span.start⟩ := by
  have hrun (ts : List Token) :
      Keeps (fun _ => True) (State.Sound limit fun _ => True) (run limit .initial ts) :=
    run_keeps (State.sound_initial limit _) fun _ _ => trivial
  refine ⟨fun ts s h => ?_, fun ts fault h => ((hrun ts).error_of_eq h).1, fun input fault h => ?_⟩
  · have hs := hrun ts
    rw [h] at hs
    refine ⟨hs.count, fun _ => pending_ordered hs.ordered, hs.depths, fun position fault hfault => ?_⟩
    have hp : (fun _ : Nat => True) position := trivial
    exact ((complete_keeps hs hp).error_of_eq hfault).1
  · obtain ⟨hdue, span, hspan, hvalid⟩ := (parseWithin_keeps limit input).error_of_eq h
    exact ⟨hdue, span, hspan, hvalid.le_utf8ByteSize, hvalid⟩

/-- Behind the parenthesis of a formula that leaves it open: three operands for two operators. -/
theorem stacks_sound_unclosed :
    let tokens : List Token := [⟨.name, "a", 0⟩, ⟨.operator .add, "+", 2⟩, ⟨.name, "b", 4⟩,
      ⟨.operator .mul, "*", 6⟩, ⟨.openParen, "(", 8⟩, ⟨.name, "c", 9⟩]
    let s : State := ⟨[.openParen 8, .operator .mul 6, .operator .add 2],
      [⟨.variable "c", 1⟩, ⟨.variable "b", 1⟩, ⟨.variable "a", 1⟩], false⟩
    run 2 .initial tokens = .ok s ∧
      s.operands.length = (Parser.signs s.waiting).length + 1 ∧
      [(Operator.mul, 6), (Operator.add, 2)].Pairwise
        (fun upper lower => lower.1.precedence ≤ upper.1.precedence) ∧
      (∀ o ∈ s.operands, o.depth = o.expr.depth ∧ o.depth ≤ 2) ∧
      Expr.parseWithin 2 "a + b * (c" = .error (.located .missingOperator 8) ∧
      ∃ span, (Diagnostic.located .missingOperator 8).span = some span ∧
        String.Pos.Raw.IsValid "a + b * (c" ⟨span.start⟩ := by
  intro tokens s
  have hrun : run 2 .initial tokens = .ok s := by decide
  have hinfix : pending [(.mul, 6), (.add, 2)] <:+: s.waiting :=
    ⟨[.openParen 8], [], rfl⟩
  have hrefused : Expr.parseWithin 2 "a + b * (c" = .error (.located .missingOperator 8) := by
    decide +kernel
  obtain ⟨hstates, -, hfaults⟩ := stacks_sound 2
  obtain ⟨hcount, hordered, hdepths, -⟩ := hstates tokens s hrun
  obtain ⟨-, span, hspan, -, hvalid⟩ := hfaults _ _ hrefused
  exact ⟨hrun, hcount, (hordered _ hinfix).1, hdepths, hrefused, span, hspan, hvalid⟩

end Fluxion
