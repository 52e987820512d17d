import Fluxion.Proofs.Outcome
import Fluxion.Proofs.Parser.Grammar

/-! What the two stacks make of derivable tokens: nothing but the syntax tree, visited left, right,
root. Whatever follows the tokens may be any continuation that combines waiting operators first. -/
namespace Fluxion
open Fluxion.Parser

def Phrase.settle (limit : Nat) : Phrase → List Operand → Except Diagnostic (List Operand)
  | .leaf t, operands =>
    if t.kind = .number then do
      let value ← numberValue t
      place limit ⟨.constant value, 1⟩ t.position operands
    else place limit ⟨.variable t.text, 1⟩ t.position operands
  | .node op sign left right, operands => do
    let operands ← left.settle limit operands
    let operands ← right.settle limit operands
    reduce limit op sign.position operands

namespace Stratum

/-- Whether an operand of this stratum may start here: the topmost waiting operator takes no
operand that an operator of the stratum still claims. -/
def MayStart (σ : Stratum) : List Waiting → Prop
  | .operator top _ :: _ => ∀ op : Operator, σ.level ≤ op.precedence → bindsBefore top op = false
  | _ => True

def Combines (σ : Stratum) (limit : Nat) {α : Type} (next : State → Except Diagnostic α) : Prop :=
  ∀ (op : Operator) (position : Nat) (waiting : List Waiting) (operands : List Operand),
    σ.level ≤ op.precedence →
      next ⟨.operator op position :: waiting, operands, false⟩ =
        reduce limit op position operands >>= fun operands => next ⟨waiting, operands, false⟩

end Stratum

namespace Parser
variable {limit : Nat}

def run (limit : Nat) (s : State) (ts : List Token) : Except Diagnostic State :=
  ts.foldlM (step limit) s

@[simp] theorem run_nil (limit : Nat) (s : State) : run limit s [] = .ok s := rfl

@[simp] theorem run_cons (limit : Nat) (s : State) (t : Token) (ts : List Token) :
    run limit s (t :: ts) = step limit s t >>= fun s => run limit s ts := rfl

theorem run_append (limit : Nat) (s : State) (ts us : List Token) :
    run limit s (ts ++ us) = run limit s ts >>= fun s => run limit s us :=
  List.foldlM_append

/-- Commas leave no trace. -/
theorem run_significant (limit : Nat) (s : State) (ts : List Token) :
    run limit s (significant ts) = run limit s ts := by
  induction ts generalizing s with
  | nil => rfl
  | cons t ts ih =>
    cases h : t.isSignificant with
    | true => simp [significant, h, ← ih]
    | false =>
      have hstep : step limit s t = .ok s := by
        unfold step
        grind [Token.isSignificant]
      simp [significant, h, hstep, ← ih]

/-! Each kind of token on a state that is ready for it. -/

theorem step_leaf {t : Token} (ht : t.kind = .number ∨ t.kind = .name) (waiting : List Waiting)
    (operands : List Operand) :
    step limit ⟨waiting, operands, true⟩ t =
      (Phrase.leaf t).settle limit operands >>= fun operands => .ok ⟨waiting, operands, false⟩ := by
  rcases ht with ht | ht
  · simp [step, Phrase.settle, ht, requireOperandDue, placeLeaf]
  · simp [step, Phrase.settle, ht, requireOperandDue, placeLeaf]

theorem step_openParen {t : Token} (ht : t.kind = .openParen) (waiting : List Waiting)
    (operands : List Operand) :
    step limit ⟨waiting, operands, true⟩ t =
      .ok ⟨.openParen t.position :: waiting, operands, true⟩ := by
  simp [step, ht, requireOperandDue]

theorem step_operator {t : Token} {op : Operator} (ht : t.kind = .operator op)
    (waiting : List Waiting) (operands : List Operand) :
    step limit ⟨waiting, operands, false⟩ t = reduceBefore limit op waiting operands >>= fun s =>
      .ok ⟨.operator op t.position :: s.1, s.2, true⟩ := by
  simp [step, ht, requireOperatorDue]

theorem step_closeParen {t : Token} (ht : t.kind = .closeParen) (waiting : List Waiting)
    (operands : List Operand) :
    step limit ⟨waiting, operands, false⟩ t =
      reduceToParen limit t.position waiting operands >>= fun s => .ok ⟨s.1, s.2, false⟩ := by
  simp [step, ht, requireOperatorDue]

/-! The three kinds of token that combine waiting operators, and the end. -/

theorem combines_operator (limit : Nat) {α : Type} {σ : Stratum} {t : Token} {arriving : Operator}
    (ht : t.kind = .operator arriving)
    (hb : ∀ op : Operator, σ.level ≤ op.precedence → bindsBefore op arriving = true)
    (next : State → Except Diagnostic α) :
    σ.Combines limit fun s => step limit s t >>= next := by
  intro op position waiting operands hop
  simp [step_operator ht, reduceBefore, hb op hop]

theorem combines_closeParen (limit : Nat) {α : Type} {t : Token} (ht : t.kind = .closeParen)
    (next : State → Except Diagnostic α) :
    Stratum.sum.Combines limit fun s => step limit s t >>= next := by
  intro op position waiting operands _
  simp [step_closeParen ht, reduceToParen]

theorem combines_complete (limit position : Nat) :
    Stratum.sum.Combines limit fun s => complete limit s position := by
  intro op opPosition waiting operands _
  simp [complete, requireOperatorDue, reduceAll]

/-- An operator that arrives where an operand of its stratum has just ended combines nothing. -/
theorem reduceBefore_of_mayStart {σ : Stratum} {waiting : List Waiting} (h : σ.MayStart waiting)
    {arriving : Operator} (ha : σ.level ≤ arriving.precedence) (operands : List Operand) :
    reduceBefore limit arriving waiting operands = .ok (waiting, operands) := by
  unfold reduceBefore
  split
  · simp [h _ ha]
  · rfl

end Parser

namespace Stratum
variable {σ τ : Stratum}

/-- A tighter stratum may start wherever a looser one may. -/
theorem MayStart.mono (hle : σ.level ≤ τ.level) {waiting : List Waiting} (h : σ.MayStart waiting) :
    τ.MayStart waiting := by
  unfold MayStart at *
  split
  · intro op hop
    exact h op (Nat.le_trans hle hop)
  · trivial

theorem mayStart_operator {top : Operator}
    (h : ∀ op : Operator, σ.level ≤ op.precedence → bindsBefore top op = false) (position : Nat)
    (waiting : List Waiting) : σ.MayStart (.operator top position :: waiting) := h

theorem Combines.mono (hle : σ.level ≤ τ.level) {limit : Nat} {α : Type}
    {next : State → Except Diagnostic α} (h : σ.Combines limit next) : τ.Combines limit next :=
  fun op position waiting operands hop => h op position waiting operands (Nat.le_trans hle hop)

end Stratum

/-- Taking the tokens and going on amounts to settling the syntax tree and going on, if the stratum
may start here and what follows combines the operators of the stratum. -/
def Stratum.Settles (σ : Stratum) (limit : Nat) (ts : List Token) (p : Phrase) : Prop :=
  ∀ {α : Type} {next : State → Except Diagnostic α} {waiting : List Waiting},
    σ.MayStart waiting → σ.Combines limit next → ∀ operands : List Operand,
      run limit ⟨waiting, operands, true⟩ ts >>= next =
        p.settle limit operands >>= fun operands => next ⟨waiting, operands, false⟩

namespace Stratum.Settles
variable {limit : Nat} {σ lower upper : Stratum} {ts ls rs : List Token} {p l r : Phrase}

theorem mono (hle : σ.level ≤ lower.level) (h : lower.Settles limit ts p) :
    σ.Settles limit ts p :=
  fun hw hn operands => h (hw.mono hle) (hn.mono hle) operands

/-- An operator combines what waits of its left operand and leaves its right operand alone. -/
theorem node {op : Operator} {sign : Token} (hs : sign.kind = .operator op)
    (hl : op.leftStratum.Settles limit ls l) (hr : op.rightStratum.Settles limit rs r) :
    op.stratum.Settles limit (ls ++ sign :: rs) (.node op sign l r) := by
  intro α next waiting hw hn operands
  have hop : op.stratum.level ≤ op.precedence := Nat.le_of_eq op.stratum_level
  have hsign := combines_operator limit hs (fun _ => Operator.bindsBefore_left)
    fun s => run limit s rs >>= next
  have hrest (operands : List Operand) :
      (step limit ⟨waiting, operands, false⟩ sign >>= fun s => run limit s rs >>= next) =
        r.settle limit operands >>= fun operands =>
          reduce limit op sign.position operands >>= fun operands =>
            next ⟨waiting, operands, false⟩ := by
    rw [step_operator hs, reduceBefore_of_mayStart hw hop, ok_bind, ok_bind,
      hr (mayStart_operator (fun _ => Operator.bindsBefore_right) sign.position waiting)
        (hn.mono op.stratum_le_rightStratum)]
    simp only [hn op sign.position waiting _ hop]
  calc run limit ⟨waiting, operands, true⟩ (ls ++ sign :: rs) >>= next
      = run limit ⟨waiting, operands, true⟩ ls >>= fun s =>
          step limit s sign >>= fun s => run limit s rs >>= next := by
        simp [run_append]
    _ = l.settle limit operands >>= fun operands =>
          step limit ⟨waiting, operands, false⟩ sign >>= fun s => run limit s rs >>= next :=
        hl (hw.mono op.stratum_le_leftStratum) hsign operands
    _ = (Phrase.node op sign l r).settle limit operands >>= fun operands =>
          next ⟨waiting, operands, false⟩ := by
        simp only [hrest, Phrase.settle, bind_assoc]

end Stratum.Settles

/-- Derivable tokens settle their syntax tree, whatever waits below and whatever follows. -/
theorem Derives.settles {limit : Nat} {σ : Stratum} {ts : List Token} {p : Phrase}
    (h : Derives σ ts p) : σ.Settles limit ts p := by
  induction h with
  | sum hop hs hl hr ihl ihr =>
    rcases hop with rfl | rfl
    · exact Stratum.Settles.node hs ihl ihr
    · exact Stratum.Settles.node hs ihl ihr
  | ofProduct h ih => exact ih.mono (by decide)
  | product hop hs hl hr ihl ihr =>
    rcases hop with rfl | rfl
    · exact Stratum.Settles.node hs ihl ihr
    · exact Stratum.Settles.node hs ihl ihr
  | ofPower h ih => exact ih.mono (by decide)
  | power hs hl hr ihl ihr => exact Stratum.Settles.node hs ihl ihr
  | ofAtom h ih => exact ih.mono (by decide)
  | number ht => exact fun _ _ operands => by simp [step_leaf (.inl ht)]
  | name ht => exact fun _ _ operands => by simp [step_leaf (.inr ht)]
  | @group o c ts p ho hc h ih =>
    intro α next waiting hw hn operands
    have hw' : Stratum.sum.MayStart (.openParen o.position :: waiting) := trivial
    have hrun := ih hw' (combines_closeParen limit hc next) operands
    simpa [run_append, step_openParen ho, step_closeParen hc, reduceToParen] using hrun

namespace Phrase
variable {limit : Nat} {p : Phrase} {operands : List Operand}

def WellNumbered (p : Phrase) : Prop :=
  ∀ t ∈ p.leaves, t.kind = .number → (literalValue? t.text.toList).isSome

theorem wellNumbered_node {op : Operator} {sign : Token} {l r : Phrase} :
    (node op sign l r).WellNumbered ↔ l.WellNumbered ∧ r.WellNumbered := by
  simp only [WellNumbered, leaves, List.mem_append]
  grind

theorem place_eq_ok_iff {operand : Operand} {position : Nat} {result : List Operand} :
    place limit operand position operands = .ok result ↔
      operand.depth ≤ limit ∧ result = operand :: operands := by
  unfold place
  split
  · simp; omega
  · simp; grind

theorem settle_leaf_eq_ok_iff {t : Token} {result : List Operand} :
    (leaf t).settle limit operands = .ok result ↔
      (leaf t).WellNumbered ∧ 1 ≤ limit ∧ result = ⟨leafExpr t, 1⟩ :: operands := by
  by_cases hk : t.kind = .number
  · cases hv : literalValue? t.text.toList <;>
      simp [settle, numberValue, WellNumbered, leaves, leafExpr, hk, hv, place_eq_ok_iff]
  · simp [settle, WellNumbered, leaves, leafExpr, hk, place_eq_ok_iff]

/-- A syntax tree settles exactly if its numbers are numbers and its expression is not too deep;
and then it adds its expression, with its true depth, to the operands. -/
theorem settle_eq_ok_iff {result : List Operand} :
    p.settle limit operands = .ok result ↔
      p.WellNumbered ∧ p.expr.depth ≤ limit ∧ result = ⟨p.expr, p.expr.depth⟩ :: operands := by
  induction p generalizing operands result with
  | leaf t =>
    have hdepth : (leafExpr t).depth = 1 := by unfold leafExpr; split <;> rfl
    simpa only [expr, hdepth] using settle_leaf_eq_ok_iff
  | node op sign l r ihl ihr =>
    simp only [settle, bind_eq_ok, ihl, ihr, wellNumbered_node, expr, Expr.depth]
    constructor
    · rintro ⟨_, ⟨hl, hld, rfl⟩, _, ⟨hr, hrd, rfl⟩, h⟩
      obtain ⟨hd, rfl⟩ := place_eq_ok_iff.mp h
      exact ⟨⟨hl, hr⟩, hd, rfl⟩
    · rintro ⟨⟨hl, hr⟩, hd, rfl⟩
      exact ⟨_, ⟨hl, by omega, rfl⟩, _, ⟨hr, by omega, rfl⟩, place_eq_ok_iff.mpr ⟨hd, rfl⟩⟩

end Phrase

/-- Derivable tokens make an expression exactly if their syntax tree settles, and it is the
expression of that tree. -/
theorem Derives.complete_eq_ok_iff {limit position : Nat} {ts : List Token} {p : Phrase} {e : Expr}
    (h : Derives .sum ts p) :
    run limit .initial ts >>= (fun s => complete limit s position) = .ok e ↔
      p.WellNumbered ∧ p.expr.depth ≤ limit ∧ e = p.expr := by
  have hstart : Stratum.sum.MayStart [] := trivial
  have hrun := h.settles hstart (combines_complete limit position) []
  rw [State.initial, hrun]
  simp only [bind_eq_ok, Phrase.settle_eq_ok_iff]
  constructor
  · rintro ⟨_, ⟨hn, hd, rfl⟩, hc⟩
    have he : p.expr = e := by simpa [complete, requireOperatorDue, reduceAll] using hc
    exact ⟨hn, hd, he.symm⟩
  · rintro ⟨hn, hd, rfl⟩
    exact ⟨_, ⟨hn, hd, rfl⟩, by simp [complete, requireOperatorDue, reduceAll]⟩

end Fluxion
