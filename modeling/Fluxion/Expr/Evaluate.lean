import Fluxion.Bindings
import Fluxion.Diagnostic
import Fluxion.Dual
import Fluxion.Expr.Basic

/-! The value of an expression, and its numeric derivative by dual numbers. Division by zero and
impossible powers give what the scalars give; only a name without a value is a fault. -/
namespace Fluxion

def Operator.apply {α : Type} [Scalar α] : Operator → α → α → α
  | .add => (· + ·)
  | .sub => (· - ·)
  | .mul => (· * ·)
  | .div => (· / ·)
  | .pow => Scalar.pow

def Diagnostic.unbound (name : String) : Diagnostic := .placeless (.unboundVariable name)

namespace Expr

/-- The value where `lookup` gives the values of names. Both operands are always evaluated, the
left one first. -/
def evaluateWith {α : Type} [Scalar α] (lookup : String → Option α) : Expr → Except Diagnostic α
  | .constant value => .ok (Scalar.ofDouble value)
  | .variable name =>
    match lookup name with
    | some value => .ok value
    | none => .error (.unbound name)
  | .binary op left right => do
    let l ← left.evaluateWith lookup
    let r ← right.evaluateWith lookup
    return op.apply l r

def evaluate (bindings : Bindings Float) (e : Expr) : Except Diagnostic Float :=
  e.evaluateWith bindings.lookup

/-- Dual values of names: the named one changes at unit rate, all others stay. -/
def seeded {α : Type} [Scalar α] (name : String) (lookup : String → Option α)
    (other : String) : Option (Dual α) :=
  (lookup other).map fun value => if other = name then .seed value else .constant value

def slope (name : String) (bindings : Bindings Float) (e : Expr) : Except Diagnostic Float :=
  (e.evaluateWith (seeded name bindings.lookup)).map Dual.eps

end Expr
end Fluxion
