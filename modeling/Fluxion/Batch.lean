import Fluxion.Expr.Derivative
import Fluxion.Program

/-! One expression at many points. -/
namespace Fluxion.Expr

def evaluateAt (parameters : List String) (points : List (List Float)) (e : Expr) :
    Except Diagnostic (List Float) := do
  let program ← e.compile parameters
  return points.map program.run

def derivativeAt (name : String) (parameters : List String) (points : List (List Float))
    (e : Expr) : Except Diagnostic (List Float) := do
  let derivative ← e.derivative name
  derivative.evaluateAt parameters points

end Fluxion.Expr
