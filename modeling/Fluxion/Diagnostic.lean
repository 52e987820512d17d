/-! What can go wrong with a formula, where in its text, and how that is worded. Places are byte
offsets. -/
namespace Fluxion

inductive Cause where
  /-- A character that starts no token. -/
  | unknownToken
  /-- A number token that denotes no number. -/
  | invalidNumber
  /-- An operand was due. -/
  | missingOperand
  /-- An operator was due, or a parenthesis has no partner. -/
  | missingOperator
  /-- The parser needed a token or an operand that is not there. -/
  | streamEnded
  /-- The tree would be deeper than allowed. -/
  | tooDeep
  /-- A name without a value. -/
  | unboundVariable (name : String)
  /-- No rule differentiates this shape. -/
  | unsupportedDerivative (reason : String)
  deriving DecidableEq, Repr

def Cause.message : Cause → String
  | .unknownToken => "Unknown token"
  | .invalidNumber => "Invalid number format"
  | .missingOperand => "Missing operand"
  | .missingOperator => "Missing operator"
  | .streamEnded => "Unexpected end of token stream"
  | .tooDeep => "Expression nesting depth exceeds maximum limit"
  | .unboundVariable name => "No value for variable '" ++ name ++ "'"
  | .unsupportedDerivative reason => "Unsupported derivative: " ++ reason

/-- A range of bytes; the byte at `stop` is not in it. -/
structure Span where
  start : Nat
  stop : Nat
  deriving DecidableEq, Repr

namespace Span

def single (position : Nat) : Span := ⟨position, position + 1⟩

/-- The wording of a span, which names its last byte. A span of at most one byte names its
start only. -/
def message (s : Span) : String :=
  if s.stop ≤ s.start + 1 then " at position " ++ toString s.start
  else " at positions " ++ toString s.start ++ "-" ++ toString (s.stop - 1)

end Span

structure Diagnostic where
  cause : Cause
  span : Option Span
  deriving DecidableEq, Repr

namespace Diagnostic

def located (cause : Cause) (position : Nat) : Diagnostic := ⟨cause, some (.single position)⟩

def spanning (cause : Cause) (span : Span) : Diagnostic := ⟨cause, some span⟩

def placeless (cause : Cause) : Diagnostic := ⟨cause, none⟩

def position? (d : Diagnostic) : Option Nat := d.span.map Span.start

def message (d : Diagnostic) : String :=
  d.cause.message ++ (d.span.map Span.message).getD ""

end Diagnostic
end Fluxion
