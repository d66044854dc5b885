import ValueGraph.Edit
import ValueGraph.SinglePrecision
import ValueGraph.Types.Measure
import ValueGraph.Word

namespace ValueGraph

/-!
# Constants

A constant stands by itself.  Its creator owns it, and so does every edge that
reads it; it goes when the last of them does.  Integers are kept cut down to the
width of their type, floats of up to 32 bits are rounded to single precision.
-/

namespace Step

/-- Add a constant. -/
def addConstant (type : TypeId) (constant : Constant) : Step ValueId :=
  addNode type (.constant constant)

end Step

/-- An integer constant from its bits. -/
def constUnsigned (type : TypeId) (bits : UInt64) : Edit ValueId :=
  .plan fun program => do
    match ← program.types.intBits? type with
    | some width => return Step.addConstant type (.int (← truncate bits width))
    | none => refuse (.typeMismatch type .constIsInt)

/-- An integer constant from a signed number. -/
def constSigned (type : TypeId) (value : Int64) : Edit ValueId :=
  constUnsigned type value.toUInt64

/-- A constant of one bit. -/
def constBool (value : Bool) : Edit ValueId :=
  .perform (Step.addConstant TypeId.bool (.int value.toUInt64))

/-- A float constant from the bits of a double. -/
def constFloat (type : TypeId) (bits : UInt64) : Edit ValueId :=
  .plan fun program => do
    match ← program.types.floatBits? type with
    | some width =>
        return Step.addConstant type (.float (if width ≤ 32 then Double.toSingle bits else bits))
    | none => refuse (.typeMismatch type .constIsFloat)

/-- The constant of a type whose bits are all zero. -/
def constZero (type : TypeId) : Edit ValueId :=
  .plan fun program => do
    require (← program.types.isStorable type) (.typeMismatch type .constIsStorable)
    return Step.addConstant type .zero

/-- The null pointer of a pointer type. -/
def constNull (type : TypeId) : Edit ValueId :=
  .plan fun program => do
    require (← program.types.isPointer type) (.typeMismatch type .constIsPointer)
    return Step.addConstant type .zero

/-- A constant whose value is left open. -/
def constUndefined (type : TypeId) : Edit ValueId :=
  .plan fun program => do
    require (← program.types.isStorable type) (.typeMismatch type .undefIsStorable)
    return Step.addConstant type .undefined

/-! ### Reading -/

namespace Constant

/-- The bits of an integer constant. -/
def intBits? : Constant → Option UInt64
  | .int bits => some bits
  | .zero => some 0
  | _ => none

/-- Whether a constant is zero; floats of either sign count. -/
def isZero : Constant → Bool
  | .zero => true
  | .int bits => bits == 0
  | .float bits => Double.isZero bits
  | .undefined => false

end Constant

namespace Program

/-- The number that an integer constant stands for. -/
def intValue? (program : Program) (value : ValueId) : Except Fault (Option Int64) := do
  let type ← program.typeOf value
  match ← program.types.intBits? type with
  | none => return none
  | some width =>
      match (← program.constant? value).bind (·.intBits?) with
      | some bits => return some (← signedReading bits width (← program.types.isSigned type))
      | none => return none

/-- The bits of an integer constant. -/
def uintValue? (program : Program) (value : ValueId) : Except Fault (Option UInt64) := do
  match ← program.types.intBits? (← program.typeOf value) with
  | none => return none
  | some _ => return (← program.constant? value).bind (·.intBits?)

/-- The bits of the double that a float constant stands for. -/
def floatValue? (program : Program) (value : ValueId) : Except Fault (Option UInt64) := do
  match ← program.constant? value with
  | some (.float bits) => return some bits
  | some .zero =>
      return if ← program.types.isFloat (← program.typeOf value) then some 0 else none
  | _ => return none

/-- Whether a value is a constant that is zero. -/
def isZero (program : Program) (value : ValueId) : Except Fault Bool := do
  return (← program.constant? value).any (·.isZero)

/-- Whether a value is a constant left open. -/
def isUndef (program : Program) (value : ValueId) : Except Fault Bool := do
  return (← program.constant? value) == some .undefined

end Program

end ValueGraph
