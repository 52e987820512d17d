/-! Binary floating formats, with their nonnegative values counted in least units.
A quotient of naturals rounds to the nearest value, and from a tie to the even code. -/
namespace Fluxion

/-- Powers of naturals are the built-in ones, also beside a library with powers in all monoids. -/
instance (priority := 2000) builtinPow : Pow Nat Nat := instPowNat

/-- The nearest natural to `num / den`; a half goes to the even neighbour. -/
def roundHalfEven (num den : Nat) : Nat :=
  let quotient := num / den
  let remainder := num % den
  if 2 * remainder < den then quotient
  else if den < 2 * remainder then quotient + 1
  else quotient + quotient % 2

/-- The widths of the two fields below the sign bit fix a binary format. -/
structure BinaryFormat where
  fractionBits : Nat
  exponentBits : Nat
  deriving DecidableEq, Repr

namespace BinaryFormat

def double : BinaryFormat := ⟨52, 11⟩

def single : BinaryFormat := ⟨23, 8⟩

/-- Codes number the nonnegative values upward from zero, and infinity comes last. -/
def infinityCode (f : BinaryFormat) : Nat :=
  (2 ^ f.exponentBits - 1) * 2 ^ f.fractionBits

/-- One is `2 ^ f.unitPower` least units. -/
def unitPower (f : BinaryFormat) : Nat :=
  2 ^ (f.exponentBits - 1) + f.fractionBits - 2

/-- The value of a finite code in least units; every finite value is a whole number of them. -/
def units (f : BinaryFormat) (code : Nat) : Nat :=
  let scale := code / 2 ^ f.fractionBits
  if scale = 0 then code
  else (2 ^ f.fractionBits + code % 2 ^ f.fractionBits) * 2 ^ (scale - 1)

/-- The code nearest to `num / den` least units. The grid has spacing `2 ^ shift`; a significand
carried up to the next power of two already has the code of that power. -/
def roundUnits (f : BinaryFormat) (num den : Nat) : Nat :=
  let shift := (num / den).log2 - f.fractionBits
  min (shift * 2 ^ f.fractionBits + roundHalfEven num (den * 2 ^ shift)) f.infinityCode

def signWeight (f : BinaryFormat) : Nat := 2 ^ (f.exponentBits + f.fractionBits)

end BinaryFormat
end Fluxion
