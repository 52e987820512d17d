import Fluxion.Number.Binary

/-! Decimals: a coefficient times a power of ten. They round to a binary code, and they are
written positionally, never with an exponent. -/
namespace Fluxion

structure Decimal where
  coefficient : Nat
  exponent : Int
  deriving DecidableEq, Repr

def digitsValue (digits : List Char) : Nat :=
  digits.foldl (fun value digit => 10 * value + (digit.toNat - '0'.toNat)) 0

namespace Decimal

/-- The code nearest to the decimal. The two bounds on the exponent only keep the powers of ten
small: beyond the first a nonzero value overflows, beyond the second it is under half a unit. -/
def round (f : BinaryFormat) (d : Decimal) : Nat :=
  match d.exponent with
  | .ofNat e =>
    if d.coefficient = 0 then 0
    else if 2 ^ (f.exponentBits - 1) ≤ 3 * e then f.infinityCode
    else f.roundUnits (d.coefficient * 10 ^ e * 2 ^ f.unitPower) 1
  | .negSucc k =>
    if d.coefficient.log2 + f.unitPower + 2 ≤ 3 * (k + 1) then 0
    else f.roundUnits (d.coefficient * 2 ^ f.unitPower) (10 ^ (k + 1))

/-- The digits of `value / 10 ^ places` after the point, ending with the last one that is not
zero. -/
def fractionDigits : Nat → Nat → List Char
  | 0, _ => []
  | places + 1, value =>
    if value = 0 then []
    else Nat.digitChar (value / 10 ^ places) :: fractionDigits places (value % 10 ^ places)

/-- Positional notation. No zero ends the fraction, and an empty fraction has no point. -/
def text (d : Decimal) : String :=
  match d.exponent with
  | .ofNat e => toString (d.coefficient * 10 ^ e)
  | .negSucc k =>
    let whole := toString (d.coefficient / 10 ^ (k + 1))
    match fractionDigits (k + 1) (d.coefficient % 10 ^ (k + 1)) with
    | [] => whole
    | digits => whole ++ "." ++ String.ofList digits

def ofPlain? (cs : List Char) : Option Decimal :=
  let whole := cs.takeWhile Char.isDigit
  match cs.dropWhile Char.isDigit with
  | [] => if whole.isEmpty then none else some ⟨digitsValue whole, 0⟩
  | c :: fraction =>
    if c = '.' ∧ fraction.all Char.isDigit ∧ ¬ (whole ++ fraction).isEmpty then
      some ⟨digitsValue (whole ++ fraction), -fraction.length⟩
    else none

def exponent? (cs : List Char) : Option Int :=
  let magnitude? (digits : List Char) : Option Int :=
    if digits.isEmpty || !digits.all Char.isDigit then none else some (digitsValue digits)
  match cs with
  | '+' :: digits => magnitude? digits
  | '-' :: digits => (magnitude? digits).map (- ·)
  | digits => magnitude? digits

def ofText? (cs : List Char) : Option Decimal :=
  let isMark (c : Char) : Bool := c = 'e' || c = 'E'
  match cs.dropWhile (!isMark ·) with
  | [] => ofPlain? cs
  | _ :: scale => do
    let d ← ofPlain? (cs.takeWhile (!isMark ·))
    let e ← exponent? scale
    return ⟨d.coefficient, d.exponent + e⟩

end Decimal
end Fluxion
