import Fluxion.Token.Stream
import Fluxion.Number.Literal

/-! Formulas to expressions with two stacks: operators that wait for their right operand, and
operands that are finished. An arriving operator first combines what binds at least as tightly.
Branches that no formula takes report an empty span, which is worded like the span of one place and
tells their faults from all others of a formula. -/
namespace Fluxion

def defaultDepthLimit : Nat := 512

namespace Parser

/-- What waits for its right side; `position` is that of the token. -/
inductive Waiting where
  | operator (op : Operator) (position : Nat)
  | openParen (position : Nat)
  deriving DecidableEq, Repr

structure Operand where
  expr : Expr
  depth : Nat
  deriving DecidableEq

/-- The parser between two tokens; both stacks have their top first. -/
structure State where
  waiting : List Waiting
  operands : List Operand
  /-- Whether an operand has to come next, rather than an operator. -/
  operandDue : Bool
  deriving DecidableEq

def State.initial : State := ⟨[], [], true⟩

def place (limit : Nat) (operand : Operand) (position : Nat) (operands : List Operand) :
    Except Diagnostic (List Operand) :=
  if limit < operand.depth then .error (.located .tooDeep position) else .ok (operand :: operands)

/-- The fault of a branch that only a stack with too few or too many operands would take. -/
def miscounted (cause : Cause) (position : Nat) : Diagnostic :=
  .spanning cause ⟨position, position⟩

def reduce (limit : Nat) (op : Operator) (position : Nat) :
    List Operand → Except Diagnostic (List Operand)
  | right :: left :: operands =>
    place limit ⟨.binary op left.expr right.expr, 1 + max left.depth right.depth⟩ position operands
  | [_] | [] => .error (miscounted .missingOperand position)

def bindsBefore (top arriving : Operator) : Bool :=
  arriving.precedence < top.precedence ||
    (top.precedence = arriving.precedence && !arriving.rightAssociative)

def reduceBefore (limit : Nat) (arriving : Operator) :
    List Waiting → List Operand → Except Diagnostic (List Waiting × List Operand)
  | .operator top position :: waiting, operands =>
    if bindsBefore top arriving then
      (reduce limit top position operands).bind (reduceBefore limit arriving waiting)
    else .ok (.operator top position :: waiting, operands)
  | waiting, operands => .ok (waiting, operands)

def reduceToParen (limit : Nat) (position : Nat) :
    List Waiting → List Operand → Except Diagnostic (List Waiting × List Operand)
  | [], _ => .error (.located .missingOperator position)
  | .openParen _ :: waiting, operands => .ok (waiting, operands)
  | .operator op opPosition :: waiting, operands =>
    (reduce limit op opPosition operands).bind (reduceToParen limit position waiting)

def reduceAll (limit : Nat) : List Waiting → List Operand → Except Diagnostic (List Operand)
  | [], operands => .ok operands
  | .openParen position :: _, _ => .error (.located .missingOperator position)
  | .operator op position :: waiting, operands =>
    (reduce limit op position operands).bind (reduceAll limit waiting)

def requireOperandDue (s : State) (position : Nat) : Except Diagnostic Unit :=
  if s.operandDue then .ok () else .error (.located .missingOperator position)

def requireOperatorDue (s : State) (position : Nat) : Except Diagnostic Unit :=
  if s.operandDue then .error (.located .missingOperand position) else .ok ()

def numberValue (token : Token) : Except Diagnostic Float :=
  match literalValue? token.text.toList with
  | some value => .ok value
  | none =>
    .error (.spanning .invalidNumber
      ⟨token.position, token.position + token.text.utf8ByteSize⟩)

def placeLeaf (limit : Nat) (leaf : Expr) (position : Nat) (s : State) :
    Except Diagnostic State := do
  let operands ← place limit ⟨leaf, 1⟩ position s.operands
  return { s with operands := operands, operandDue := false }

/-- Takes one token. A comma changes nothing anywhere. -/
def step (limit : Nat) (s : State) (token : Token) : Except Diagnostic State :=
  match token.kind with
  | .number => do
    requireOperandDue s token.position
    let value ← numberValue token
    placeLeaf limit (.constant value) token.position s
  | .name => do
    requireOperandDue s token.position
    placeLeaf limit (.variable token.text) token.position s
  | .openParen => do
    requireOperandDue s token.position
    return { s with waiting := .openParen token.position :: s.waiting }
  | .closeParen => do
    requireOperatorDue s token.position
    let (waiting, operands) ← reduceToParen limit token.position s.waiting s.operands
    return { s with waiting := waiting, operands := operands }
  | .operator op => do
    requireOperatorDue s token.position
    let (waiting, operands) ← reduceBefore limit op s.waiting s.operands
    return ⟨.operator op token.position :: waiting, operands, true⟩
  | .comma | .finish => .ok s

def complete (limit : Nat) (s : State) (position : Nat) : Except Diagnostic Expr := do
  requireOperatorDue s position
  match ← reduceAll limit s.waiting s.operands with
  | [operand] => return operand.expr
  | [] => throw (miscounted .missingOperand position)
  | _ :: _ :: _ => throw (miscounted .missingOperator position)

def consume (limit : Nat) : State → List (Except Diagnostic Token) → Except Diagnostic Expr
  | _, [] => .error (.placeless .streamEnded)
  | _, .error fault :: _ => .error fault
  | s, .ok token :: rest =>
    if token.kind = .finish then complete limit s token.position
    else (step limit s token).bind fun s => consume limit s rest

end Parser

/-- The expression of a formula, if its tree is no deeper than the limit. -/
def Expr.parseWithin (limit : Nat) (input : String) : Except Diagnostic Expr :=
  Parser.consume limit .initial (tokenStream input)

def Expr.parse (input : String) : Except Diagnostic Expr :=
  Expr.parseWithin defaultDepthLimit input

end Fluxion
