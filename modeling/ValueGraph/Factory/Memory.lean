import ValueGraph.Factory.Scalar

namespace ValueGraph

/-!
# Building stack slots, loads, stores and addresses
-/

/-- A requested alignment, rounded up to a power of two that fits a 32-bit word. -/
def roundAlignment (request : UInt32) : Except Fault Nat :=
  let rounded := roundUpToPowerOfTwo (max request.toNat 1)
  if rounded < word32Limit then .ok rounded else .error .sumOverflow

namespace Program

/-- The alignment of an access to a type: the request rounded up, or the alignment
that the type has by itself. -/
def accessAlignment (program : Program) (type : TypeId) (request : Option UInt32) :
    Except Fault Nat := do
  match request with
  | some request => roundAlignment request
  | none => return (← program.types.alignment? type).getD 1

/-- The storable type behind a pointer operand. -/
def accessedType (program : Program) (pointer : ValueId) : Except Halt TypeId := do
  let pointerType ← program.operandType pointer .pointerOperand
  match ← program.types.pointee? pointerType with
  | none => refuse (.typeMismatch pointerType .addressIsPointer)
  | some pointee =>
      program.requireStorable pointee .pointeeIsStorable
      return pointee

/-- The type reached by stepping through one layer for each index. -/
def elementLayer (program : Program) : TypeId → List ValueId → Except Halt TypeId
  | layer, [] => return layer
  | layer, index :: rest => do
      let indexType ← program.operandType index .elementPtrIndex
      require (← program.types.isInt indexType)
        (.typeMismatch indexType .elementPtrIndexIsInt)
      match ← program.types.element? layer with
      | some element => program.elementLayer element rest
      | none => refuse (.typeMismatch layer .elementPtrStepExists)

end Program

/-- The members of a list of operands with their places. -/
def indexedOperands (values : List ValueId) : List (Slot × ValueId) :=
  values.zipIdx.map fun (value, position) => (.indexed position, value)

/-- A stack slot for one value of a type. -/
def buildAlloca (type : TypeId) (align : Option UInt32) : Edit InstId :=
  .plan fun program => do
    program.requireStorable type .allocatedIsStorable
    let align ← program.accessAlignment type align
    return do
      let pointer ← Step.pointerTo type
      Step.addInst pointer (.alloca type align) []

/-- The value behind a pointer. -/
def buildLoad (pointer : ValueId) (align : Option UInt32) : Edit InstId :=
  .plan fun program => do
    let pointee ← program.accessedType pointer
    let align ← program.accessAlignment pointee align
    return do
      let type ← Step.dropConst pointee
      Step.addInst type (.load align) [(.fixed 0, pointer)]

/-- Write a value through a pointer to data that is not const. -/
def buildStore (value pointer : ValueId) (align : Option UInt32) : Edit InstId :=
  .plan fun program => do
    let valueType ← program.operandType value .storedValue
    let pointee ← program.accessedType pointer
    require (!(← program.types.isConst pointee))
      (.typeMismatch pointee .storeTargetIsMutable)
    require (← program.types.equal valueType pointee)
      (.typeMismatch valueType .storedFitsPointee)
    let align ← program.accessAlignment pointee align
    return Step.addInst TypeId.void (.store align) [(.fixed 0, value), (.fixed 1, pointer)]

/-- The address reached by stepping through one pointer or array layer for each
integer index, starting at a pointer. -/
def buildElementPtr (base : ValueId) (indices : List ValueId) : Edit InstId :=
  .plan fun program => do
    let baseType ← program.operandType base .elementPtrBase
    require (← program.types.isPointer baseType)
      (.typeMismatch baseType .elementPtrBaseIsPointer)
    require (!indices.isEmpty) .noIndices
    let layer ← program.elementLayer baseType indices
    return do
      let type ← Step.pointerTo layer
      Step.addInst type .elementPtr ((.fixed 0, base) :: indexedOperands indices)

end ValueGraph
