/-! Numbers that expressions can be evaluated in. -/
namespace Fluxion

/-- Arithmetic with powers, logarithms and an equality test; doubles of an expression are lifted
by `ofDouble`. No law is assumed. -/
class Scalar (α : Type) extends Add α, Sub α, Mul α, Div α, BEq α where
  ofDouble : Float → α
  pow : α → α → α
  ln : α → α

namespace Scalar
variable {α : Type} [Scalar α]

def zero : α := ofDouble 0.0

def one : α := ofDouble 1.0

end Scalar

instance : Scalar Float where
  ofDouble x := x
  pow := Float.pow
  ln := Float.log

instance : Scalar Float32 where
  ofDouble := Float.toFloat32
  pow := Float32.pow
  ln := Float32.log

/-- Numeric order, in which some pairs may be unordered. -/
class PartialOrdered (α : Type) where
  compare? : α → α → Option Ordering

instance : PartialOrdered Float where
  compare? a b := if a < b then some .lt else if a == b then some .eq
    else if b < a then some .gt else none

instance : PartialOrdered Float32 where
  compare? a b := if a < b then some .lt else if a == b then some .eq
    else if b < a then some .gt else none

end Fluxion
