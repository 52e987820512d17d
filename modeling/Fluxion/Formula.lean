import Fluxion.Expr.Derivative
import Fluxion.Expr.Evaluate
import Fluxion.Parser

/-! One operation on a formula that is given as text. -/
namespace Fluxion.Formula

def evaluate (bindings : Bindings Float) (formula : String) : Except Diagnostic Float := do
  (← Expr.parse formula).evaluate bindings

def derivative (name : String) (formula : String) : Except Diagnostic String := do
  return (← (← Expr.parse formula).derivative name).render

def slope (name : String) (bindings : Bindings Float) (formula : String) :
    Except Diagnostic Float := do
  (← Expr.parse formula).slope name bindings

end Fluxion.Formula
