import Fluxion.Diagnostic
import Fluxion.Expr.Render

/-! Symbolic derivatives. Nothing is simplified: `x * x` has the derivative
`((1 * x) + (x * 1))`. -/
namespace Fluxion

def Diagnostic.dependentExponent (exponent : Expr) (name : String) : Diagnostic :=
  .placeless (.unsupportedDerivative
    ("exponent '" ++ exponent.render ++ "' depends on '" ++ name ++ "'"))

namespace Expr

def monomial (base exponent : Expr) : Expr :=
  .mul exponent (.pow base (.sub exponent (.constant 1.0)))

/-- The derivative for a name, by the rules for sums, products, quotients and powers. A power is
differentiated only if its exponent does not contain the name; if the base does not either, the
derivative is zero, whatever else base and exponent hold. -/
def derivative (name : String) : Expr → Except Diagnostic Expr
  | .constant _ => .ok (.constant 0.0)
  | .variable other => .ok (.constant (if other = name then 1.0 else 0.0))
  | .binary .add u v => do
    let du ← u.derivative name
    let dv ← v.derivative name
    return .add du dv
  | .binary .sub u v => do
    let du ← u.derivative name
    let dv ← v.derivative name
    return .sub du dv
  | .binary .mul u v => do
    let du ← u.derivative name
    let dv ← v.derivative name
    return .add (.mul du v) (.mul u dv)
  | .binary .div u v => do
    let du ← u.derivative name
    let dv ← v.derivative name
    return .div (.sub (.mul du v) (.mul u dv)) (.mul v v)
  | .binary .pow base exponent =>
    if exponent.mentions name then .error (.dependentExponent exponent name)
    else if !base.mentions name then .ok (.constant 0.0)
    else if base.variableName? = some name then .ok (monomial base exponent)
    else do
      let dbase ← base.derivative name
      return .mul (monomial base exponent) dbase

def derivativeTimes (name : String) : Nat → Expr → Except Diagnostic Expr
  | 0, e => .ok e
  | times + 1, e => (e.derivative name).bind (derivativeTimes name times)

end Expr
end Fluxion
