import Fluxion.Scalar

/-! Dual numbers `val + eps·ε` with `ε² = 0`. Evaluated with a unit `eps` at one variable, an
expression carries its derivative for that variable in `eps`. -/
namespace Fluxion

/-- A value and the coefficient of `ε`. -/
structure Dual (α : Type) where
  val : α
  eps : α
  deriving DecidableEq, Repr

namespace Dual
variable {α : Type} [Scalar α]

def constant (val : α) : Dual α := ⟨val, Scalar.zero⟩

def seed (val : α) : Dual α := ⟨val, Scalar.one⟩

def add (a b : Dual α) : Dual α := ⟨a.val + b.val, a.eps + b.eps⟩

def sub (a b : Dual α) : Dual α := ⟨a.val - b.val, a.eps - b.eps⟩

def mul (a b : Dual α) : Dual α := ⟨a.val * b.val, a.val * b.eps + a.eps * b.val⟩

def div (a b : Dual α) : Dual α :=
  ⟨a.val / b.val, (a.eps * b.val - a.val * b.eps) / (b.val * b.val)⟩

def neg (a : Dual α) : Dual α := ⟨Scalar.zero - a.val, Scalar.zero - a.eps⟩

/-- The power rule, with a term for a base that changes and one for an exponent that changes.
A part that does not change contributes no term, so that an infinite slope or the logarithm of
zero next to it does not spoil a finite derivative. -/
def pow (a b : Dual α) : Dual α :=
  let val := Scalar.pow a.val b.val
  let baseTerm : α :=
    if a.eps != Scalar.zero then
      b.val * Scalar.pow a.val (b.val - Scalar.one) * a.eps
    else Scalar.zero
  let eps := if b.eps != Scalar.zero then baseTerm + val * Scalar.ln a.val * b.eps else baseTerm
  ⟨val, eps⟩

def ln (a : Dual α) : Dual α := ⟨Scalar.ln a.val, a.eps / a.val⟩

instance : Scalar (Dual α) where
  add := add
  sub := sub
  mul := mul
  div := div
  beq a b := a.val == b.val && a.eps == b.eps
  ofDouble x := constant (Scalar.ofDouble x)
  pow := pow
  ln := ln

/-- Values decide, and parts of `ε` decide between equal values. -/
instance {α : Type} [PartialOrdered α] : PartialOrdered (Dual α) where
  compare? a b :=
    match PartialOrdered.compare? a.val b.val with
    | some .eq => PartialOrdered.compare? a.eps b.eps
    | order => order

def text {α : Type} (part : α → String) (a : Dual α) : String :=
  part a.val ++ " + " ++ part a.eps ++ "ε"

end Dual
end Fluxion
