import Fluxion.Expr.Basic

/-! Subtrees named by the path from the root. -/
namespace Fluxion

inductive Side where
  | left
  | right
  deriving DecidableEq, Repr

namespace Expr

def subtree? : List Side → Expr → Option Expr
  | [], e => some e
  | .left :: path, .binary _ left _ => left.subtree? path
  | .right :: path, .binary _ _ right => right.subtree? path
  | _ :: _, _ => none

def replace? (new : Expr) : List Side → Expr → Option Expr
  | [], _ => some new
  | .left :: path, .binary op left right =>
    (replace? new path left).map fun left => .binary op left right
  | .right :: path, .binary op left right =>
    (replace? new path right).map fun right => .binary op left right
  | _ :: _, _ => none

end Expr
end Fluxion
