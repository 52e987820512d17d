import Fluxion.Number.Decimal

/-! Doubles read from text: the unsigned literals of formulas, and the signed values of bindings. -/
namespace Fluxion

def Decimal.toDouble (negative : Bool) (d : Decimal) : Float :=
  let code := d.round .double
  Float.ofBits (UInt64.ofNat (if negative then BinaryFormat.double.signWeight + code else code))

/-- The value of a literal made of digits and points, if there is at most one point. A whole
number below `2 ^ 63` is converted from a machine word, any other as a decimal. -/
def literalValue? (text : List Char) : Option Float :=
  (Decimal.ofPlain? text).map fun d =>
    if !text.contains '.' && d.coefficient < 2 ^ (63 : Nat) then
      (UInt64.ofNat d.coefficient).toFloat
    else d.toDouble false

inductive DoubleFault where
  | empty
  | malformed
  deriving DecidableEq, Repr

namespace DoubleFault

def message : DoubleFault → String
  | .empty => "cannot parse float from empty string"
  | .malformed => "invalid float literal"

end DoubleFault

def unsignedDouble? (negative : Bool) (cs : List Char) : Option Float :=
  let word := String.ofList (cs.map Char.toLower)
  if word = "inf" || word = "infinity" then
    some (if negative then -(1.0 / 0.0) else 1.0 / 0.0)
  else if word = "nan" then some (0.0 / 0.0)
  else (Decimal.ofText? cs).map (Decimal.toDouble negative)

def readDouble (cs : List Char) : Except DoubleFault Float :=
  let read (negative : Bool) (cs : List Char) : Except DoubleFault Float :=
    match unsignedDouble? negative cs with
    | some x => .ok x
    | none => .error .malformed
  match cs with
  | [] => .error .empty
  | '+' :: rest => read false rest
  | '-' :: rest => read true rest
  | _ => read false cs

end Fluxion
