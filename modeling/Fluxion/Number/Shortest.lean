import Fluxion.Number.Decimal

/-! The shortest decimal of a binary value: the fewest digits that read back to it, among those
the nearest, and from an exact tie the larger. -/
namespace Fluxion.BinaryFormat

def scaled (f : BinaryFormat) (code : Nat) (exponent : Int) : Nat × Nat :=
  match exponent with
  | .ofNat e => (f.units code, 2 ^ f.unitPower * 10 ^ e)
  | .negSucc k => (f.units code * 10 ^ (k + 1), 2 ^ f.unitPower)

/-- The neighbour of a value among the multiples of `10 ^ exponent` that reads back to the value,
if one of the two does. No other multiple can, unless one of these does. -/
def neighbour? (f : BinaryFormat) (code : Nat) (exponent : Int) : Option Decimal :=
  let (num, den) := f.scaled code exponent
  let below : Decimal := ⟨num / den, exponent⟩
  let above : Decimal := ⟨num / den + 1, exponent⟩
  if below.round f = code then
    if above.round f = code ∧ den ≤ 2 * (num % den) then some above else some below
  else if above.round f = code then some above
  else none

/-- The exponent of the leading decimal digit of a nonzero value. The value is first scaled by a
power of ten that makes it at least one, so that counting the digits of a whole number is enough. -/
def leadingExponent (f : BinaryFormat) (code : Nat) : Int :=
  let places := f.unitPower / 3 + 1
  let whole := f.units code * 10 ^ places / 2 ^ f.unitPower
  ((Nat.toDigits 10 whole).length : Int) - 1 - places

/-- All digits of a value; a multiple of a negative power of two ends after that many places. -/
def exactDecimal (f : BinaryFormat) (code : Nat) : Decimal :=
  ⟨f.units code * 5 ^ f.unitPower, -f.unitPower⟩

/-- The shortest decimal of a finite nonzero value. Seventeen digits are enough for the formats
here; a format that needs more gets all its digits. -/
def shortest (f : BinaryFormat) (code : Nat) : Decimal :=
  let leading := f.leadingExponent code
  ((List.range 17).findSome? fun (extra : Nat) => f.neighbour? code (leading - extra)).getD
    (f.exactDecimal code)

/-- The text of a bit pattern: `NaN`, a signed `inf`, or a signed shortest decimal. Zero keeps
its sign, and a whole number has no point. -/
def text (f : BinaryFormat) (bits : Nat) : String :=
  let code := bits % f.signWeight
  if f.infinityCode < code then "NaN"
  else
    let magnitude :=
      if code = f.infinityCode then "inf"
      else if code = 0 then "0"
      else (f.shortest code).text
    if f.signWeight ≤ bits then "-" ++ magnitude else magnitude

end Fluxion.BinaryFormat

namespace Fluxion

def doubleText (x : Float) : String := BinaryFormat.double.text x.toBits.toNat

def singleText (x : Float32) : String := BinaryFormat.single.text x.toBits.toNat

end Fluxion
