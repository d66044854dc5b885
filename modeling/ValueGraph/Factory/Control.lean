import ValueGraph.Factory.Memory

namespace ValueGraph

/-!
# Building calls, terminators, phis and register writes
-/

namespace Program

/-- The function type behind a callee and its parts. -/
def calleeSignature (program : Program) (callee : ValueId) :
    Except Halt (TypeId × Signature) := do
  let calleeType ← program.operandType callee .callee
  match ← program.types.pointee? calleeType with
  | none => refuse (.typeMismatch calleeType .calleeIsFunctionPointer)
  | some type =>
      match ← program.types.signature? type with
      | some signature => return (type, signature)
      | none => refuse (.typeMismatch calleeType .calleeIsFunctionPointer)

/-- Refuse arguments that do not fit the parameters; what goes beyond the
parameters only has to be storable. -/
def checkArguments (program : Program) : List ValueId → List TypeId → Except Halt Unit
  | [], _ => return ()
  | argument :: rest, param :: params => do
      let type ← program.operandType argument .callArgument
      require (← program.types.equal type param) (.typeMismatch type .argumentFitsParameter)
      program.checkArguments rest params
  | argument :: rest, [] => do
      let type ← program.operandType argument .callArgument
      program.requireStorable type .extraIsStorable
      program.checkArguments rest []

end Program

/-- Whether so many arguments fit a signature. -/
def Signature.accepts (signature : Signature) (count : Nat) : Bool :=
  if signature.variadic then
    signature.params.length ≤ count
  else
    count == signature.params.length

/-- A call through a function pointer. -/
def buildCall (callee : ValueId) (arguments : List ValueId) : Edit InstId :=
  .plan fun program => do
    let (type, signature) ← program.calleeSignature callee
    require (signature.accepts arguments.length) (.typeMismatch type .argumentCountFits)
    program.checkArguments arguments signature.params
    return Step.addInst signature.result .call ((.fixed 0, callee) :: indexedOperands arguments)

/-! ### Terminators -/

/-- A return.  Its value is held against the function when it is placed. -/
def buildRet (value : Option ValueId) : Edit InstId :=
  .plan fun program => do
    match value with
    | some value =>
        let type ← program.operandType value .returnValue
        program.requireStorable type .returnedIsStorable
        return Step.addInst TypeId.void .ret [(.fixed 0, value)]
    | none => return Step.addInst TypeId.void .ret []

/-- A jump. -/
def buildBr (target : BlockId) : Edit InstId :=
  .plan fun program => do
    program.requireBlock target .branchTarget
    return Step.addInst TypeId.void .br [(.fixed 0, target)]

/-- A two-way branch. -/
def buildCondBr (condition : ValueId) (onTrue onFalse : BlockId) : Edit InstId :=
  .plan fun program => do
    let type ← program.operandType condition .branchCondition
    require (← program.types.equal type TypeId.bool)
      (.typeMismatch type .branchConditionIsBool)
    program.requireBlock onTrue .branchTarget
    program.requireBlock onFalse .branchTarget
    return Step.addInst TypeId.void .condBr
      [(.fixed 0, condition), (.fixed 1, onTrue), (.fixed 2, onFalse)]

/-- A multiway branch without cases. -/
def buildSwitch (condition : ValueId) (default : BlockId) : Edit InstId :=
  .plan fun program => do
    let type ← program.operandType condition .switchCondition
    require (← program.types.isInt type) (.typeMismatch type .switchConditionIsInt)
    program.requireBlock default .branchTarget
    return Step.addInst TypeId.void (.switch []) [(.fixed 0, condition), (.fixed 1, default)]

/-- The end of a path that is never taken. -/
def buildUnreachable : Edit InstId :=
  .perform (Step.addInst TypeId.void .unreachable [])

/-! ### Phis and register writes -/

/-- A phi without entries. -/
def buildPhi (type : TypeId) : Edit InstId :=
  .plan fun program => do
    program.requireStorable type .phiIsStorable
    return Step.addInst type .phi []

namespace Step

/-- Add a register write.  A written instruction that stands nowhere is nested
under the write, which owns it from now on. -/
def addRegWrite (register : RegId) (value : ValueId) : Step InstId := do
  let write ← addInst TypeId.void .regWrite [(.fixed 0, register), (.fixed 1, value)]
  let program ← get
  if program.isInst value then
    if (← program.status value) = .disconnected then
      modifyInst value fun data =>
        { data with status := .reparent, holder := some (.inst write) }
  return write

end Step

/-- Write a value to a register. -/
def buildRegWrite (register : RegId) (value : ValueId) : Edit InstId :=
  .plan fun program => do
    require (program.isRegister register) (.missing .register)
    let type ← program.operandType value .writtenValue
    require (← program.types.equal type (← program.typeOf register))
      (.typeMismatch type .writtenFitsRegister)
    return Step.addRegWrite register value

/-! ### Reading -/

namespace Program

/-- What a call calls. -/
def callee? (program : Program) (call : InstId) : Except Fault (Option ValueId) := do
  match ← program.kind call with
  | .call => program.operand? call 0
  | _ => return none

/-- The arguments of a call. -/
def callArguments (program : Program) (call : InstId) : Except Fault (List ValueId) := do
  match ← program.kind call with
  | .call =>
      match ← program.operandValues call with
      | _ :: arguments => return arguments
      | [] => throw (.cutPastEnd 1 0)
  | _ => return []

/-- The instruction nested under a register write. -/
def nestedValue? (program : Program) (write : InstId) : Except Fault (Option InstId) := do
  match ← program.operand? write 1 with
  | none => return none
  | some inner =>
      if program.isInst inner then
        return if (← program.nestingParent? inner) = some write then some inner else none
      else
        return none

end Program

end ValueGraph
