import Fluxion.Parser

/-! The grammar of formulas, in four strata, as a relation between tokens and syntax trees. Chains
of sums and of products group to the left, chains of powers to the right. -/
namespace Fluxion

/-- A syntax tree over tokens. A node keeps the token of its sign; parentheses leave no trace. -/
inductive Phrase where
  | leaf (token : Token)
  | node (op : Operator) (sign : Token) (left right : Phrase)

namespace Phrase

/-- The expression of a leaf. A number token that denotes no number counts as zero, so this is of
use only where such tokens are excluded. -/
def leafExpr (t : Token) : Expr :=
  if t.kind = .number then .constant ((literalValue? t.text.toList).getD 0.0)
  else .variable t.text

def expr : Phrase → Expr
  | .leaf token => leafExpr token
  | .node op _ left right => .binary op left.expr right.expr

def tokens : Phrase → List Token
  | .leaf token => [token]
  | .node _ sign left right => left.tokens ++ sign :: right.tokens

def leaves : Phrase → List Token
  | .leaf token => [token]
  | .node _ _ left right => left.leaves ++ right.leaves

end Phrase

inductive Stratum where
  | sum
  | product
  | power
  | atom
  deriving DecidableEq, Repr

namespace Stratum

def level : Stratum → Nat
  | .sum => 10
  | .product => 20
  | .power => 30
  | .atom => 40

end Stratum

namespace Operator

def stratum : Operator → Stratum
  | .add | .sub => .sum
  | .mul | .div => .product
  | .pow => .power

/-- The stratum of the left operand: chains of sums and of products continue there. -/
def leftStratum : Operator → Stratum
  | .add | .sub => .sum
  | .mul | .div => .product
  | .pow => .atom

/-- The stratum of the right operand: chains of powers continue there. -/
def rightStratum : Operator → Stratum
  | .add | .sub => .product
  | .mul | .div | .pow => .power

@[simp] theorem stratum_level (op : Operator) : op.stratum.level = op.precedence := by
  cases op <;> rfl

theorem stratum_le_leftStratum (op : Operator) : op.stratum.level ≤ op.leftStratum.level := by
  cases op <;> decide

theorem stratum_le_rightStratum (op : Operator) : op.stratum.level ≤ op.rightStratum.level := by
  cases op <;> decide

/-- An arriving operator combines what its left operand may show. -/
theorem bindsBefore_left {op o : Operator} (h : op.leftStratum.level ≤ o.precedence) :
    Parser.bindsBefore o op = true := by
  revert h
  cases op <;> cases o <;> decide

/-- What an arriving operator combines fits its left operand. -/
theorem left_of_bindsBefore {op o : Operator} (h : Parser.bindsBefore o op = true) :
    op.leftStratum.level ≤ o.stratum.level := by
  revert h
  cases op <;> cases o <;> decide

/-- A waiting operator lets its right operand take what that may show. -/
theorem bindsBefore_right {op o : Operator} (h : op.rightStratum.level ≤ o.precedence) :
    Parser.bindsBefore op o = false := by
  revert h
  cases op <;> cases o <;> decide

/-- What a waiting operator does not take first fits its right operand. -/
theorem right_of_bindsBefore {op o : Operator} (h : Parser.bindsBefore op o = false) :
    op.rightStratum.level ≤ o.stratum.level := by
  revert h
  cases op <;> cases o <;> decide

end Operator

/-- `Derives σ ts p`: the stratum `σ` derives the tokens `ts`, with the syntax tree `p`. -/
inductive Derives : Stratum → List Token → Phrase → Prop
  | sum {op : Operator} {sign : Token} {ls rs : List Token} {l r : Phrase}
      (hop : op = .add ∨ op = .sub) (hs : sign.kind = .operator op)
      (hl : Derives .sum ls l) (hr : Derives .product rs r) :
      Derives .sum (ls ++ sign :: rs) (.node op sign l r)
  | ofProduct {ts : List Token} {p : Phrase} (h : Derives .product ts p) : Derives .sum ts p
  | product {op : Operator} {sign : Token} {ls rs : List Token} {l r : Phrase}
      (hop : op = .mul ∨ op = .div) (hs : sign.kind = .operator op)
      (hl : Derives .product ls l) (hr : Derives .power rs r) :
      Derives .product (ls ++ sign :: rs) (.node op sign l r)
  | ofPower {ts : List Token} {p : Phrase} (h : Derives .power ts p) : Derives .product ts p
  | power {sign : Token} {ls rs : List Token} {l r : Phrase} (hs : sign.kind = .operator .pow)
      (hl : Derives .atom ls l) (hr : Derives .power rs r) :
      Derives .power (ls ++ sign :: rs) (.node .pow sign l r)
  | ofAtom {ts : List Token} {p : Phrase} (h : Derives .atom ts p) : Derives .power ts p
  | number {t : Token} (ht : t.kind = .number) : Derives .atom [t] (.leaf t)
  | name {t : Token} (ht : t.kind = .name) : Derives .atom [t] (.leaf t)
  | group {o c : Token} {ts : List Token} {p : Phrase} (ho : o.kind = .openParen)
      (hc : c.kind = .closeParen) (h : Derives .sum ts p) : Derives .atom (o :: ts ++ [c]) p

namespace Derives
variable {ts : List Token} {p : Phrase}

/-- A looser stratum derives what a tighter one does. -/
theorem loosen {σ τ : Stratum} (hle : σ.level ≤ τ.level) (h : Derives τ ts p) : Derives σ ts p :=
  match σ, τ, hle, h with
  | .sum, .sum, _, h => h
  | .sum, .product, _, h => h.ofProduct
  | .sum, .power, _, h => h.ofPower.ofProduct
  | .sum, .atom, _, h => h.ofAtom.ofPower.ofProduct
  | .product, .product, _, h => h
  | .product, .power, _, h => h.ofPower
  | .product, .atom, _, h => h.ofAtom.ofPower
  | .power, .power, _, h => h
  | .power, .atom, _, h => h.ofAtom
  | .atom, .atom, _, h => h
  | .product, .sum, hle, _ | .power, .sum, hle, _ | .power, .product, hle, _
  | .atom, .sum, hle, _ | .atom, .product, hle, _ | .atom, .power, hle, _ =>
    absurd hle (by decide)

/-- Operands of the fitting strata make a phrase of the stratum of their operator. -/
theorem node {op : Operator} {sign : Token} {ls rs : List Token} {l r : Phrase}
    (hs : sign.kind = .operator op) (hl : Derives op.leftStratum ls l)
    (hr : Derives op.rightStratum rs r) :
    Derives op.stratum (ls ++ sign :: rs) (.node op sign l r) := by
  cases op with
  | add => exact .sum (.inl rfl) hs hl hr
  | sub => exact .sum (.inr rfl) hs hl hr
  | mul => exact .product (.inl rfl) hs hl hr
  | div => exact .product (.inr rfl) hs hl hr
  | pow => exact .power hs hl hr

/-- A syntax tree holds the tokens that it was derived from, but for parentheses, each once and in
order. -/
theorem tokens_eq {σ : Stratum} (h : Derives σ ts p) :
    p.tokens = ts.filter fun t => t.kind ≠ .openParen ∧ t.kind ≠ .closeParen := by
  induction h with
  | sum hop hs hl hr ihl ihr | product hop hs hl hr ihl ihr | power hs hl hr ihl ihr =>
    simp [Phrase.tokens, ihl, ihr, hs]
  | ofProduct h ih | ofPower h ih | ofAtom h ih => exact ih
  | number ht | name ht => simp [Phrase.tokens, ht]
  | group ho hc h ih => simp [ih, ho, hc]

/-- The leaves of a syntax tree are its numbers and names. -/
theorem leaves_eq {σ : Stratum} (h : Derives σ ts p) :
    p.leaves = ts.filter fun t => t.kind = .number ∨ t.kind = .name := by
  induction h with
  | sum hop hs hl hr ihl ihr | product hop hs hl hr ihl ihr | power hs hl hr ihl ihr =>
    simp [Phrase.leaves, ihl, ihr, hs]
  | ofProduct h ih | ofPower h ih | ofAtom h ih => exact ih
  | number ht | name ht => simp [Phrase.leaves, ht]
  | group ho hc h ih => simp [ih, ho, hc]

theorem kind_ne_finish {σ : Stratum} (h : Derives σ ts p) : ∀ t ∈ ts, t.kind ≠ .finish := by
  induction h with
  | sum hop hs hl hr ihl ihr | product hop hs hl hr ihl ihr | power hs hl hr ihl ihr =>
    intro t ht
    rcases List.mem_append.mp ht with ht | ht
    · exact ihl t ht
    · rcases List.mem_cons.mp ht with rfl | ht
      · simp [hs]
      · exact ihr t ht
  | ofProduct h ih | ofPower h ih | ofAtom h ih => exact ih
  | number ht | name ht => simp [ht]
  | @group o c ts p ho hc h ih =>
    intro t ht
    have hcases : t = o ∨ t ∈ ts ∨ t = c := by simpa using ht
    rcases hcases with rfl | ht | rfl
    · simp [ho]
    · exact ih t ht
    · simp [hc]

end Derives

def Token.isSignificant (t : Token) : Bool := t.kind ≠ .comma && t.kind ≠ .finish

def significant (ts : List Token) : List Token := ts.filter Token.isSignificant

end Fluxion
