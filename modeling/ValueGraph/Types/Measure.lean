import ValueGraph.Types.Table
import ValueGraph.Word

namespace ValueGraph

/-!
# Widths, sizes and alignments of types

Scalars have a width in bits.  A scalar is stored in the least power of two of
bytes that holds it, and is aligned to that size.  An array takes its length
times the size of its element, as long as that fits a 64-bit word, and is
aligned like its element.
-/

/-- The least power of two that is not below a number. -/
def roundUpToPowerOfTwo (number : Nat) : Nat :=
  if number ≤ 1 then 1 else 1 <<< (Nat.log2 (number - 1) + 1)

/-- The bytes that a scalar of a width takes in memory. -/
def storageBytes (bits : Nat) : Nat :=
  roundUpToPowerOfTwo (max 1 ((bits + 7) / 8))

namespace Shape

/-- Sign, exponent and fraction of a float, which must fit a 32-bit word. -/
def floatBits (exponent fraction : UInt32) : Except Fault Nat :=
  let bits := 1 + exponent.toNat + fraction.toNat
  if bits < word32Limit then .ok bits else .error .sumOverflow

/-- The width of a scalar layer; pointers have the given width. -/
def scalarBits? (pointerBits : UInt32) : Shape → Except Fault (Option Nat)
  | .int bits _ => return some bits.toNat
  | .float exponent fraction _ => do return some (← floatBits exponent fraction)
  | .pointer _ => return some pointerBits.toNat
  | _ => return none

end Shape

namespace TypeTable

/-- The width of an integer type. -/
def intBits? (table : TypeTable) (type : TypeId) : Except Fault (Option Nat) := do
  match ← table.shape type with
  | .int bits _ => return some bits.toNat
  | _ => return none

/-- The width of a float type. -/
def floatBits? (table : TypeTable) (type : TypeId) : Except Fault (Option Nat) := do
  match ← table.shape type with
  | .float exponent fraction _ => return some (← Shape.floatBits exponent fraction)
  | _ => return none

/-- The width of an integer, float or pointer type. -/
def scalarBits? (table : TypeTable) (type : TypeId) : Except Fault (Option Nat) := do
  (← table.shape type).scalarBits? table.pointerBits

/-- The bytes of a type reached by a bounded descent. -/
def bytesWithin (table : TypeTable) : Nat → TypeId → Except Fault (Option Nat)
  | 0, _ => .error .endless
  | fuel + 1, type => do
      match ← table.shape type with
      | .array element length =>
          match ← table.bytesWithin fuel element with
          | some bytes =>
              let total := bytes * length.toNat
              return if total < word64Limit then some total else none
          | none => return none
      | shape => return (← shape.scalarBits? table.pointerBits).map storageBytes

/-- The bytes that a value of a type takes in memory: nothing for types without
stored values and for arrays whose size leaves a 64-bit word. -/
def bytes? (table : TypeTable) (type : TypeId) : Except Fault (Option Nat) :=
  table.bytesWithin (type.index + 1) type

/-- The alignment of a type reached by a bounded descent. -/
def alignmentWithin (table : TypeTable) : Nat → TypeId → Except Fault (Option Nat)
  | 0, _ => .error .endless
  | fuel + 1, type => do
      match ← table.shape type with
      | .array element _ => table.alignmentWithin fuel element
      | shape => return (← shape.scalarBits? table.pointerBits).map storageBytes

/-- The alignment in bytes that a type has by itself; nothing for types without
stored values. -/
def alignment? (table : TypeTable) (type : TypeId) : Except Fault (Option Nat) :=
  table.alignmentWithin (type.index + 1) type

end TypeTable

end ValueGraph
