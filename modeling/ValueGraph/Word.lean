import ValueGraph.Fault

namespace ValueGraph

/-!
# Numbers in words

Sizes and widths are numbers that have to fit a word of 32 or 64 bits.  Integer
constants are kept as 64-bit words cut down to the width of their type, and read back
as signed numbers by copying the sign bit upwards.
-/

/-- Numbers below this fit a 32-bit word. -/
def word32Limit : Nat := 1 <<< 32

/-- Numbers below this fit a 64-bit word. -/
def word64Limit : Nat := 1 <<< 64

/-- What a word shifted by some bits is; a shift by all its bits or more is a fault. -/
def shiftedBy {α : Type} (amount : Nat) (direction : String) (shifted : α) : Except Fault α :=
  if amount < 64 then .ok shifted else .error (.shiftOverflow direction)

/-- The lowest bits of a word, as many as the width says. -/
def truncate (bits : UInt64) (width : Nat) : Except Fault UInt64 :=
  if width < 64 then do
    let power ← shiftedBy width "left" ((1 : UInt64) <<< UInt64.ofNat width)
    return bits &&& (power - 1)
  else
    return bits

/-- The signed reading of a word whose integer type has the given width and sign. -/
def signedReading (bits : UInt64) (width : Nat) (signed : Bool) : Except Fault Int64 :=
  if width = 0 then
    return 0
  else if signed && width < 64 then do
    let raised ← shiftedBy (64 - width) "left" (bits.toInt64 <<< Int64.ofNat (64 - width))
    shiftedBy (64 - width) "right" (raised >>> Int64.ofNat (64 - width))
  else
    return bits.toInt64

/-- A word is read without a fault. -/
theorem exists_signedReading (word : UInt64) (width : Nat) (signed : Bool) :
    ∃ reading, signedReading word width signed = .ok reading := by
  unfold signedReading
  split
  next => exact ⟨_, rfl⟩
  next wide =>
    have small : 64 - width < 64 := by omega
    split
    next => exact ⟨_, by simp only [shiftedBy, if_pos small]; rfl⟩
    next => exact ⟨_, rfl⟩

/-- Whether a case value is accepted for a condition of the given width and
sign.  The bounds are computed in the same signed 64-bit words as the value. -/
def fitsWidth (value : Int64) (width : Nat) (signed : Bool) : Bool :=
  if width = 0 then
    value == 0
  else if 64 ≤ width then
    signed || 0 ≤ value
  else if signed then
    let half : Int64 := 1 <<< Int64.ofNat (width - 1)
    value < half && -half ≤ value
  else
    let limit : Int64 := 1 <<< Int64.ofNat width
    0 ≤ value && value < limit

end ValueGraph
