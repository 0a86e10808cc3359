import ColumnStore.ColumnType

/-!
# Binary floating point, on bits

What comparing and widening need of the binary interchange formats, stated on
bit patterns: which patterns are not numbers, which are zeros, when two
patterns are equal as numbers, and which pattern stands for `± n · 2^q`.
-/

namespace ColumnStore

/-- A binary interchange format: one sign bit, then the exponent, then the
fraction. -/
structure BinaryFloat where
  exponentBits : Nat
  fractionBits : Nat
  deriving DecidableEq, Repr

namespace BinaryFloat

/-- The 32-bit format. -/
def single : BinaryFloat := ⟨8, 23⟩

/-- The 64-bit format. -/
def double : BinaryFloat := ⟨11, 52⟩

variable (f : BinaryFloat)

/-- The biased exponent of the number 1. -/
def bias : Nat := Nat.pow 2 (f.exponentBits - 1) - 1

/-- The biased exponent kept for infinities and for what is not a number. -/
def topExponent : Nat := Nat.pow 2 f.exponentBits - 1

/-- Whether the sign bit is set. -/
def isNegative (bits : Nat) : Bool :=
  bits.testBit (f.exponentBits + f.fractionBits)

/-- The biased exponent. -/
def exponent (bits : Nat) : Nat :=
  bits / Nat.pow 2 f.fractionBits % Nat.pow 2 f.exponentBits

/-- The fraction. -/
def fraction (bits : Nat) : Nat :=
  bits % Nat.pow 2 f.fractionBits

/-- The pattern with the given parts. -/
def assemble (negative : Bool) (exponent fraction : Nat) : Nat :=
  (if negative then Nat.pow 2 (f.exponentBits + f.fractionBits) else 0) +
    exponent * Nat.pow 2 f.fractionBits + fraction

/-- Whether a pattern is not a number. -/
def isNaN (bits : Nat) : Bool :=
  f.exponent bits == f.topExponent && f.fraction bits != 0

/-- Whether a pattern is one of the two zeros. -/
def isZero (bits : Nat) : Bool :=
  f.exponent bits == 0 && f.fraction bits == 0

/-- Whether two patterns are equal as numbers: what is not a number equals
nothing, and the two zeros are equal. -/
def same (a b : Nat) : Bool :=
  !f.isNaN a && !f.isNaN b && (a == b || (f.isZero a && f.isZero b))

/-- The pattern of `n · 2^q`, negated if asked. It is exact if `n` has at most
one bit more than the fraction and the exponent is in the normal range. -/
def ofScaled (negative : Bool) (n : Nat) (q : Int) : Nat :=
  if n = 0 then
    f.assemble negative 0 0
  else
    let k := n.log2
    f.assemble negative (q + k + f.bias).toNat ((n - Nat.pow 2 k) * Nat.pow 2 (f.fractionBits - k))

/-- The pattern of an integer. -/
def ofInt (z : Int) : Nat :=
  f.ofScaled (z < 0) z.natAbs 0

/-- The pattern, in a format with more exponent and fraction bits, of the same
number. -/
def widen (wide : BinaryFloat) (bits : Nat) : Nat :=
  let negative := f.isNegative bits
  let e := f.exponent bits
  let m := f.fraction bits
  if e = f.topExponent then
    wide.assemble negative wide.topExponent (m * Nat.pow 2 (wide.fractionBits - f.fractionBits))
  else if e = 0 then
    wide.ofScaled negative m (1 - f.bias - f.fractionBits : Int)
  else
    wide.ofScaled negative (Nat.pow 2 f.fractionBits + m) (e - f.bias - f.fractionBits : Int)

end BinaryFloat

end ColumnStore
