import Fluxion.Expr.Basic
import Fluxion.Number.Shortest

/-! Expressions as formulas. Every node but a power carries its own parentheses, so the text never
depends on how tightly an operator binds. -/
namespace Fluxion

def smallInteger? (x : Float) : Option Int :=
  let bits := x.toBits.toNat
  let code := bits % BinaryFormat.double.signWeight
  let units := BinaryFormat.double.units code
  let one := 2 ^ BinaryFormat.double.unitPower
  if code < BinaryFormat.double.infinityCode ∧ units % one = 0 ∧ units / one < 10 ^ (15 : Nat) then
    some (if BinaryFormat.double.signWeight ≤ bits then -(units / one : Nat)
      else (units / one : Nat))
  else none

/-- The text of a constant. A small integer is written as one, so zero loses its sign. -/
def constantText (x : Float) : String :=
  if x.isNaN then "NaN"
  else if x.isInf then (if x > 0.0 then "Infinity" else "-Infinity")
  else match smallInteger? x with
    | some n => toString n
    | none => doubleText x

namespace Expr

/-- The formula of an expression. The exponent of a power always has parentheses; the base has
them when it is itself a power, since `a^(b)^(c)` groups to the right. -/
def render : Expr → String
  | .constant value => constantText value
  | .variable name => name
  | .binary .pow base exponent =>
    (if base.isPower then "(" ++ base.render ++ ")" else base.render) ++
      "^(" ++ exponent.render ++ ")"
  | .binary op left right =>
    "(" ++ left.render ++ " " ++ op.symbol ++ " " ++ right.render ++ ")"

end Expr
end Fluxion
