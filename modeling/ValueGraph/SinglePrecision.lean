namespace ValueGraph

/-!
# Rounding to single precision

A double-precision number, given by its bits, is rounded to the nearest number
with an 8-bit exponent and a 23-bit fraction, a tie going to the even fraction,
and written as a double again.  Infinities stay, numbers beyond the largest
single become infinities, and a value that is not a number keeps its sign and
the upper 23 bits of its fraction, with the quiet bit set.
-/

namespace Double

/-- The sign bit of a double. -/
def signBit : Nat := 1 <<< 63

/-- A fraction of so many bits is a whole number of units of this size. -/
def fractionLimit : Nat := 1 <<< 52

/-- The bit of a fraction that marks a quiet value that is not a number. -/
def quietBit : Nat := 1 <<< 51

/-- Division by a power of two, to the nearest whole number, a tie to the even one. -/
def shiftToNearest (number shift : Nat) : Nat :=
  let divisor := 1 <<< shift
  let quotient := number / divisor
  let twice := 2 * (number % divisor)
  if twice < divisor then quotient
  else if divisor < twice then quotient + 1
  else quotient + quotient % 2

/-- The bits, without sign, of the double whose value is `units * 2 ^ (exponent - 1074)`,
for fewer than 2 ^ 53 units and a value in the range of normal doubles or zero. -/
def ofUnits (units exponent : Nat) : Nat :=
  if units = 0 then
    0
  else
    let size := Nat.log2 units
    -- The leading unit becomes the hidden bit.
    (exponent + size - 51) * fractionLimit + (units <<< (52 - size) - fractionLimit)

/-- Round the bits of a double to single precision and back. -/
def toSingle (bits : UInt64) : UInt64 :=
  let number := bits.toNat
  let sign := number / signBit * signBit
  let exponent := number / fractionLimit % 2048
  let fraction := number % fractionLimit
  let rounded :=
    if exponent = 2047 then
      if fraction = 0 then
        2047 * fractionLimit
      else
        let upper := (fraction >>> 29) <<< 29
        2047 * fractionLimit + (if upper < quietBit then upper + quietBit else upper)
    else if exponent < 873 then
      -- Below half of the least single.
      0
    else
      -- Normal singles drop 29 bits; below the least normal single more are dropped.
      let shift := if 897 ≤ exponent then 29 else 926 - exponent
      let units := shiftToNearest (fractionLimit + fraction) shift
      let result := ofUnits units (exponent - 1 + shift)
      if 1151 * fractionLimit ≤ result then 2047 * fractionLimit else result
  UInt64.ofNat (sign + rounded)

/-- Whether the bits of a double are those of zero, of either sign. -/
def isZero (bits : UInt64) : Bool :=
  bits.toNat % signBit == 0

end Double

end ValueGraph
