import Fluxion.Proofs.Parser.Exactness
import Fluxion.Proofs.Token.Placement

/-! A scan of the tokens that remembers one bit and the open parentheses finds the same first fault
as the parser, unless a tree is too deep first. -/
namespace Fluxion
open Fluxion.Parser

/-- A scan between two tokens: whether an operand is due, and where the parentheses that are open
stand, the last one first. -/
structure Scan where
  operandDue : Bool
  opened : List Nat
  deriving DecidableEq, Repr

namespace Scan

def initial : Scan := ⟨true, []⟩

def operandFault? (s : Scan) (position : Nat) : Option Diagnostic :=
  if s.operandDue then none else some (.located .missingOperator position)

def operatorFault? (s : Scan) (position : Nat) : Option Diagnostic :=
  if s.operandDue then some (.located .missingOperand position) else none

def violation? (s : Scan) (t : Token) : Option Diagnostic :=
  match t.kind with
  | .number => (s.operandFault? t.position).or <|
    if 2 ≤ t.text.toList.count '.' then
      some (.spanning .invalidNumber ⟨t.position, t.position + t.text.utf8ByteSize⟩)
    else none
  | .name | .openParen => s.operandFault? t.position
  | .operator _ => s.operatorFault? t.position
  | .closeParen => (s.operatorFault? t.position).or <|
    if s.opened = [] then some (.located .missingOperator t.position) else none
  | .comma => none
  | .finish => (s.operatorFault? t.position).or (s.opened.head?.map (.located .missingOperator))

def after (s : Scan) (t : Token) : Scan :=
  match t.kind with
  | .number | .name => { s with operandDue := false }
  | .operator _ => { s with operandDue := true }
  | .openParen => { s with opened := t.position :: s.opened }
  | .closeParen => { s with opened := s.opened.tail }
  | .comma | .finish => s

def fault? (s : Scan) : List (Except Diagnostic Token) → Option Diagnostic
  | [] => none
  | .error fault :: _ => some fault
  | .ok t :: rest => (s.violation? t).or ((s.after t).fault? rest)

end Scan

def Token.isOperand (t : Token) : Bool := t.kind = .number || t.kind = .name

def Token.isOperator (t : Token) : Bool := t.kind matches .operator _

def operandCount : List (Except Diagnostic Token) → Nat
  | [] => 0
  | .error _ :: rest => operandCount rest
  | .ok t :: rest => (if t.isOperand then 1 else 0) + operandCount rest

namespace Parser

/-- `x` ends as `expected` says: with that fault, or else with a result that satisfies `post`. It may
also find a tree too deep, if the limit is below `weight`, and then blames a place that `blame`
admits. -/
def Obeys {α : Type} (limit weight : Nat) (blame : Nat → Prop) (expected : Option Diagnostic)
    (x : Except Diagnostic α) (post : α → Prop) : Prop :=
  (limit < weight ∧ ∃ position, blame position ∧ x = .error (.located .tooDeep position)) ∨
    match expected with
    | some fault => x = .error fault
    | none => ∃ a, x = .ok a ∧ post a

section
variable {limit weight : Nat} {blame : Nat → Prop}

namespace Obeys
variable {α β : Type} {expected next : Option Diagnostic} {x : Except Diagnostic α}
  {f : α → Except Diagnostic β} {post : α → Prop} {last : β → Prop}

theorem ok {a : α} (h : post a) : Obeys limit weight blame none (.ok a) post := .inr ⟨a, rfl, h⟩

theorem error (fault : Diagnostic) : Obeys limit weight blame (some fault) (.error fault) post :=
  .inr rfl

theorem tooDeep {position : Nat} (hw : limit < weight) (hb : blame position) :
    Obeys limit weight blame expected (.error (.located .tooDeep position)) post :=
  .inl ⟨hw, position, hb, rfl⟩

theorem bind {more : Nat} (hx : Obeys limit weight blame expected x post)
    (hle : weight ≤ more) (hf : ∀ a, post a → Obeys limit more blame next (f a) last) :
    Obeys limit more blame (expected.or next) (x >>= f) last := by
  rcases hx with ⟨hw, position, hb, rfl⟩ | h
  · exact .tooDeep (Nat.lt_of_lt_of_le hw hle) hb
  · cases expected with
    | some fault =>
      obtain rfl : x = .error fault := h
      exact .error fault
    | none =>
      obtain ⟨a, rfl, ha⟩ := h
      exact hf a ha

theorem iff_of_le (h : Obeys limit weight blame expected x post) (hle : weight ≤ limit)
    (fault : Diagnostic) : x = .error fault ↔ expected = some fault := by
  rcases h with ⟨hw, -⟩ | h
  · omega
  · cases expected with
    | some expected =>
      obtain rfl : x = .error expected := h
      simp
    | none =>
      obtain ⟨a, rfl, -⟩ := h
      simp

end Obeys

/-- A stack of `count` operands. A tree is no deeper than it has leaves, so `weight` bounds what the
depths add up to. -/
structure Supplies (count weight : Nat) (operands : List Operand) : Prop where
  length_eq : operands.length = count
  pos : ∀ o ∈ operands, 1 ≤ o.depth
  sum_le : (operands.map Operand.depth).sum ≤ weight

theorem place_obeys {count position : Nat} {operand : Operand} {operands : List Operand}
    (hb : blame position) (hs : Supplies count weight (operand :: operands)) :
    Obeys limit weight blame none (place limit operand position operands)
      (Supplies count weight) := by
  unfold place
  split
  · next hdeep =>
    have hsum := hs.sum_le
    rw [List.map_cons, List.sum_cons] at hsum
    exact .tooDeep (by omega) hb
  · exact .ok hs

/-- Two operands become one, which is no deeper than the two together. -/
theorem reduce_obeys {op : Operator} {count position : Nat} {operands : List Operand}
    (hb : blame position) (hs : Supplies (count + 2) weight operands) :
    Obeys limit weight blame none (reduce limit op position operands)
      (Supplies (count + 1) weight) := by
  match operands, hs with
  | [], hs | [_], hs => exact absurd hs.length_eq (by simp)
  | right :: left :: operands, hs =>
    have hright := hs.pos right (by simp)
    have hleft := hs.pos left (by simp)
    have hsum := hs.sum_le
    refine place_obeys hb ⟨by simpa using hs.length_eq, ?_, ?_⟩
    · intro o ho
      rcases List.mem_cons.mp ho with rfl | ho
      · exact Nat.le_add_right 1 _
      · exact hs.pos o (by simp [ho])
    · simp only [List.map_cons, List.sum_cons] at hsum ⊢
      omega

def signs (waiting : List Waiting) : List Nat :=
  waiting.filterMap fun | .operator _ position => some position | .openParen _ => none

def openings (waiting : List Waiting) : List Nat :=
  waiting.filterMap fun | .openParen position => some position | .operator _ _ => none

theorem signs_operator {op : Operator} {position : Nat} {waiting : List Waiting}
    (hb : ∀ p ∈ signs (.operator op position :: waiting), blame p) :
    blame position ∧ ∀ p ∈ signs waiting, blame p :=
  List.forall_mem_cons.mp hb

section
variable {waiting : List Waiting} {operands : List Operand}
  (hb : ∀ position ∈ signs waiting, blame position)
  (hs : Supplies ((signs waiting).length + 1) weight operands)
include hb hs

theorem reduceBefore_obeys (arriving : Operator) :
    Obeys limit weight blame none (reduceBefore limit arriving waiting operands) fun left =>
      openings left.1 = openings waiting ∧ (∀ position ∈ signs left.1, blame position) ∧
        Supplies ((signs left.1).length + 1) weight left.2 := by
  induction waiting generalizing operands with
  | nil => exact .ok ⟨rfl, hb, hs⟩
  | cons first waiting ih =>
    cases first with
    | openParen position => exact .ok ⟨rfl, hb, hs⟩
    | operator top position =>
      rw [reduceBefore]
      split
      · obtain ⟨htop, hwaiting⟩ := signs_operator hb
        exact (reduce_obeys htop hs).bind (Nat.le_refl _) fun _ h => ih hwaiting h
      · exact .ok ⟨rfl, hb, hs⟩

theorem reduceToParen_obeys (position : Nat) :
    Obeys limit weight blame
      (if openings waiting = [] then some (.located .missingOperator position) else none)
      (reduceToParen limit position waiting operands) fun left =>
        openings left.1 = (openings waiting).tail ∧ (∀ position ∈ signs left.1, blame position) ∧
          Supplies ((signs left.1).length + 1) weight left.2 := by
  induction waiting generalizing operands with
  | nil => exact .error _
  | cons first waiting ih =>
    cases first with
    | openParen position => exact .ok ⟨rfl, hb, hs⟩
    | operator top position =>
      obtain ⟨htop, hwaiting⟩ := signs_operator hb
      exact (reduce_obeys htop hs).bind (Nat.le_refl _) fun _ h => ih hwaiting h

theorem reduceAll_obeys :
    Obeys limit weight blame ((openings waiting).head?.map (.located .missingOperator))
      (reduceAll limit waiting operands) (Supplies 1 weight) := by
  induction waiting generalizing operands with
  | nil => exact .ok hs
  | cons first waiting ih =>
    cases first with
    | openParen position => exact .error _
    | operator top position =>
      obtain ⟨htop, hwaiting⟩ := signs_operator hb
      exact (reduce_obeys htop hs).bind (Nat.le_refl _) fun _ h => ih hwaiting h

end

/-- `s.Follows blame weight scan`: the state has got as far as the scan. An operand is on the stack
for each operator that waits, and one more where no operand is due. -/
structure State.Follows (blame : Nat → Prop) (weight : Nat) (scan : Scan) (s : State) : Prop where
  due : s.operandDue = scan.operandDue
  opened : openings s.waiting = scan.opened
  signs : ∀ position ∈ signs s.waiting, blame position
  operands : Supplies ((Parser.signs s.waiting).length + if scan.operandDue then 0 else 1) weight
    s.operands

theorem Supplies.mono {count more : Nat} {operands : List Operand} (hle : weight ≤ more)
    (h : Supplies count weight operands) : Supplies count more operands :=
  ⟨h.length_eq, h.pos, Nat.le_trans h.sum_le hle⟩

theorem State.Follows.mono {more : Nat} {scan : Scan} {s : State} (hle : weight ≤ more)
    (h : s.Follows blame weight scan) : s.Follows blame more scan :=
  { h with operands := h.operands.mono hle }

theorem State.follows_initial : State.initial.Follows blame 0 .initial where
  due := rfl
  opened := rfl
  signs := by simp [State.initial, Parser.signs]
  operands := ⟨rfl, by simp [State.initial], by simp [State.initial]⟩

section
variable {scan : Scan} {s : State} {t : Token} (hf : s.Follows blame weight scan)
include hf

theorem requireOperandDue_obeys (position : Nat) :
    Obeys limit weight blame (scan.operandFault? position) (requireOperandDue s position)
      fun _ => scan.operandDue = true := by
  rw [requireOperandDue, Scan.operandFault?, hf.due]
  split
  · exact .ok ‹_›
  · exact .error _

theorem requireOperatorDue_obeys (position : Nat) :
    Obeys limit weight blame (scan.operatorFault? position) (requireOperatorDue s position)
      fun _ => scan.operandDue = false := by
  rw [requireOperatorDue, Scan.operatorFault?, hf.due]
  split
  · exact .error _
  · exact .ok (by simpa using ‹¬ scan.operandDue = true›)

theorem State.Follows.supplies (hdue : scan.operandDue = false) :
    Supplies ((Parser.signs s.waiting).length + 1) weight s.operands := by
  have hs := hf.operands
  rw [hdue] at hs
  exact hs

/-- A leaf adds one to the weight. -/
theorem placeLeaf_obeys (hb : blame t.position) (hdue : scan.operandDue = true) (leaf : Expr) :
    Obeys limit (weight + 1) blame none (placeLeaf limit leaf t.position s)
      (State.Follows blame (weight + 1) { scan with operandDue := false }) := by
  have hs := hf.operands
  rw [hdue] at hs
  have hplaced : Supplies ((Parser.signs s.waiting).length + 1) (weight + 1)
      (⟨leaf, 1⟩ :: s.operands) := by
    refine ⟨by simpa using hs.length_eq, ?_, ?_⟩
    · exact List.forall_mem_cons.mpr ⟨Nat.le_refl 1, hs.pos⟩
    · simpa [Nat.add_comm 1] using hs.sum_le
  refine (place_obeys hb hplaced).bind (Nat.le_refl _) fun operands h => .ok ?_
  exact ⟨rfl, hf.opened, hf.signs, h⟩

end

theorem numberValue_obeys {t : Token} (ht : isNumberText t.text.toList = true) :
    Obeys limit weight blame
      (if 2 ≤ t.text.toList.count '.' then
        some (.spanning .invalidNumber ⟨t.position, t.position + t.text.utf8ByteSize⟩)
      else none)
      (numberValue t) fun _ => True := by
  have hvalue := literalValue?_isSome ht
  unfold numberValue
  cases h : literalValue? t.text.toList with
  | some value =>
    rw [if_neg (by simp [h] at hvalue; omega)]
    exact .ok trivial
  | none =>
    rw [if_pos (by simp [h] at hvalue; omega)]
    exact .error _

section
variable {scan : Scan} {s : State} {t : Token} (hf : s.Follows blame weight scan)
include hf

/-- A token that is taken moves the state and the scan alike. -/
theorem step_obeys (ht : t.WellFormed) (hk : t.kind ≠ .finish)
    (hb : t.isOperand = true ∨ t.isOperator = true → blame t.position) :
    Obeys limit (weight + if t.isOperand then 1 else 0) blame (scan.violation? t) (step limit s t)
      (State.Follows blame (weight + if t.isOperand then 1 else 0) (scan.after t)) := by
  have hmono := hf.mono (Nat.le_add_right weight (if t.isOperand then 1 else 0))
  unfold step Scan.violation? Scan.after
  cases hkind : t.kind with
  | number =>
    have hoperand : t.isOperand = true := by simp [Token.isOperand, hkind]
    rw [if_pos hoperand]
    refine (requireOperandDue_obeys hf t.position).bind (Nat.le_add_right weight 1) fun _ hdue => ?_
    rw [← Option.or_none (o := ite _ _ _)]
    refine (numberValue_obeys (ht.1 hkind)).bind (Nat.le_refl _) fun value _ => ?_
    exact placeLeaf_obeys hf (hb (.inl hoperand)) hdue _
  | name =>
    have hoperand : t.isOperand = true := by simp [Token.isOperand, hkind]
    rw [if_pos hoperand]
    rw [← Option.or_none (o := scan.operandFault? _)]
    refine (requireOperandDue_obeys hf t.position).bind (Nat.le_add_right weight 1) fun _ hdue => ?_
    exact placeLeaf_obeys hf (hb (.inl hoperand)) hdue _
  | openParen =>
    rw [← Option.or_none (o := scan.operandFault? _)]
    refine (requireOperandDue_obeys hmono t.position).bind (Nat.le_refl _) fun _ hdue => .ok ?_
    exact ⟨hmono.due, congrArg (t.position :: ·) hmono.opened, hmono.signs, hmono.operands⟩
  | closeParen =>
    refine (requireOperatorDue_obeys hmono t.position).bind (Nat.le_refl _) fun _ hdue => ?_
    rw [← Option.or_none (o := ite _ _ _), ← hmono.opened]
    refine (reduceToParen_obeys hmono.signs (hmono.supplies hdue) t.position).bind (Nat.le_refl _)
      fun left ⟨hopened, hsigns, hleft⟩ => .ok ⟨hmono.due, hopened, hsigns, ?_⟩
    rw [hdue]
    exact hleft
  | operator op =>
    rw [← Option.or_none (o := scan.operatorFault? _)]
    refine (requireOperatorDue_obeys hmono t.position).bind (Nat.le_refl _) fun _ hdue => ?_
    rw [← Option.or_none (o := none)]
    refine (reduceBefore_obeys hmono.signs (hmono.supplies hdue) op).bind (Nat.le_refl _)
      fun left ⟨hopened, hsigns, hleft⟩ => .ok ?_
    have hhere : blame t.position := hb (.inr (by simp [Token.isOperator, hkind]))
    exact ⟨rfl, hopened.trans hmono.opened, List.forall_mem_cons.mpr ⟨hhere, hsigns⟩, hleft⟩
  | comma => exact .ok hmono
  | finish => exact absurd hkind hk

theorem complete_obeys (hk : t.kind = .finish) :
    Obeys limit weight blame (scan.violation? t) (complete limit s t.position)
      fun _ => True := by
  unfold Scan.violation? complete
  simp only [hk]
  refine (requireOperatorDue_obeys hf t.position).bind (Nat.le_refl _) fun _ hdue => ?_
  rw [← Option.or_none (o := Option.map _ _), ← hf.opened]
  refine (reduceAll_obeys hf.signs (hf.supplies hdue)).bind (Nat.le_refl _) fun left hleft => ?_
  match left, hleft with
  | [operand], _ => exact .ok trivial
  | [], hleft | _ :: _ :: _, hleft => exact absurd hleft.length_eq (by simp)

end

/-- From any state that has got as far as the scan, the rest of the stream is treated alike. -/
theorem consume_obeys {body : List Token} {last : Except Diagnostic Token}
    (hlast : Tokenizer.isLast last = true) (hbody : ∀ t ∈ body, t.kind ≠ .finish ∧ t.WellFormed)
    (hb : ∀ t ∈ body, t.isOperand = true ∨ t.isOperator = true → blame t.position)
    {scan : Scan} {s : State} (hf : s.Follows blame weight scan) :
    Obeys limit (weight + operandCount (body.map .ok ++ [last])) blame
      (scan.fault? (body.map .ok ++ [last])) (consume limit s (body.map .ok ++ [last]))
      fun _ => True := by
  induction body generalizing weight scan s with
  | nil =>
    cases last with
    | error fault => exact .error fault
    | ok t =>
      have ht : t.kind = .finish := by simpa [Tokenizer.isLast] using hlast
      have hoperand : t.isOperand = false := by simp [Token.isOperand, ht]
      simpa [consume_finish ht, Scan.fault?, operandCount, hoperand] using complete_obeys hf ht
  | cons t body ih =>
    obtain ⟨⟨hk, hw⟩, hrest⟩ := List.forall_mem_cons.mp hbody
    obtain ⟨hbt, hbrest⟩ := List.forall_mem_cons.mp hb
    simp only [List.map_cons, List.cons_append, consume, hk, if_false, operandCount, Scan.fault?,
      ← Nat.add_assoc]
    exact (step_obeys hf hw hk hbt).bind (Nat.le_add_right _ _) fun _ h => ih hrest hbrest h

end

end Parser

def IsBlamable (stream : List (Except Diagnostic Token)) (position : Nat) : Prop :=
  ∃ t, .ok t ∈ stream ∧ (t.isOperand = true ∨ t.isOperator = true) ∧ t.position = position

/-- The parser ends as the scan of its tokens says, but for a tree that is too deep. -/
theorem parseWithin_obeys (limit : Nat) (input : String) :
    Obeys limit (operandCount (tokenStream input)) (IsBlamable (tokenStream input))
      (Scan.initial.fault? (tokenStream input)) (Expr.parseWithin limit input) fun _ => True := by
  obtain ⟨body, last, hstream, hlast, hbody⟩ := streamFrom_shape input.toList 0
  rw [Expr.parseWithin, tokenStream_eq, hstream, ← Nat.zero_add (operandCount _)]
  refine consume_obeys hlast hbody (fun t ht hkind => ?_) State.follows_initial
  exact ⟨t, by simp [ht], hkind, rfl⟩

/-- Under a limit that allows for all operands of a formula, the formula is refused exactly if the
scan of its tokens meets a violation, and for the first one. The tokens and the fault of the stream
stand in the text where they say. -/
theorem parseWithin_eq_error_iff {limit : Nat} {input : String}
    (h : operandCount (tokenStream input) ≤ limit) :
    (∀ fault, Expr.parseWithin limit input = .error fault ↔
      Scan.initial.fault? (tokenStream input) = some fault) ∧
    ∀ result ∈ tokenStream input, Placed input.toList result :=
  ⟨(parseWithin_obeys limit input).iff_of_le h, tokenStream_placed input⟩

/-- A number with two points comes before a character that starts no token, and a comma between
them changes nothing. -/
theorem parseWithin_eq_error_point :
    operandCount (tokenStream "(2, + 1.2.3 $") ≤ 2 ∧
      Expr.parseWithin 2 "(2, + 1.2.3 $" = .error (.spanning .invalidNumber ⟨6, 11⟩) := by
  have hcount : operandCount (tokenStream "(2, + 1.2.3 $") ≤ 2 := by decide +kernel
  have hscan : Scan.initial.fault? (tokenStream "(2, + 1.2.3 $") =
      some (.spanning .invalidNumber ⟨6, 11⟩) := by
    decide +kernel
  exact ⟨hcount, ((parseWithin_eq_error_iff hcount).1 _).mpr hscan⟩

end Fluxion
