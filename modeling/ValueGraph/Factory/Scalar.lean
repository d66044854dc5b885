import ValueGraph.Chain
import ValueGraph.Types.Conversion

namespace ValueGraph

/-!
# Building arithmetic, comparisons, selections and conversions

Each factory resolves its operands in order, then checks their types, and only
then adds the instruction, disconnected.
-/

namespace Program

/-- Refuse operands that an operator does not take. -/
def checkBinary (program : Program) (op : BinaryOp) (left right : TypeId) :
    Except Halt Unit := do
  let types := program.types
  if op.isShift then
    require (← types.isInt left) (.typeMismatch left .shiftedIsInt)
    require (← types.isInt right) (.typeMismatch right .shiftAmountIsInt)
  else
    require (← types.equal left right) (.typeMismatch right .operandsAgree)
    if op.isIntegerOnly then
      require (← types.isInt left) (.typeMismatch left .bitwiseAreInts)
    require (← types.isArithmetic left) (.typeMismatch left .arithmeticAreNumbers)

/-- Refuse a type whose values cannot be stored. -/
def requireStorable (program : Program) (type : TypeId) (rule : TypeRule) :
    Except Halt Unit := do
  require (← program.types.isStorable type) (.typeMismatch type rule)

end Program

/-- An operator applied to two operands of equal types; a shift only asks for an
integer amount.  The result has the type of the left operand without const. -/
def buildBinary (op : BinaryOp) (left right : ValueId) : Edit InstId :=
  .plan fun program => do
    let leftType ← program.operandType left .leftOperand
    let rightType ← program.operandType right .rightOperand
    program.checkBinary op leftType rightType
    return do
      let type ← Step.dropConst leftType
      Step.addInst type (.binary op) [(.fixed 0, left), (.fixed 1, right)]

/-- A comparison of two scalars of equal types. -/
def buildCompare (comparison : Comparison) (left right : ValueId) : Edit InstId :=
  .plan fun program => do
    let leftType ← program.operandType left .leftOperand
    let rightType ← program.operandType right .rightOperand
    require (← program.types.equal leftType rightType)
      (.typeMismatch rightType .comparedAgree)
    require ((← program.types.isArithmetic leftType) || (← program.types.isPointer leftType))
      (.typeMismatch leftType .comparedAreScalars)
    return Step.addInst TypeId.bool (.compare comparison) [(.fixed 0, left), (.fixed 1, right)]

/-- An operator applied to one operand: `neg` takes numbers, `not` integers. -/
def buildUnary (op : UnaryOp) (value : ValueId) : Edit InstId :=
  .plan fun program => do
    let type ← program.operandType value .unaryOperand
    match op with
    | .neg =>
        require (← program.types.isArithmetic type) (.typeMismatch type .negatedIsNumber)
    | .not =>
        require (← program.types.isInt type) (.typeMismatch type .invertedIsInt)
    return do
      let result ← Step.dropConst type
      Step.addInst result (.unary op) [(.fixed 0, value)]

/-- One of two values, by a condition. -/
def buildSelect (condition onTrue onFalse : ValueId) : Edit InstId :=
  .plan fun program => do
    let conditionType ← program.operandType condition .selectCondition
    let trueType ← program.operandType onTrue .selectValue
    let falseType ← program.operandType onFalse .selectValue
    require (← program.types.equal conditionType TypeId.bool)
      (.typeMismatch conditionType .selectConditionIsBool)
    require (← program.types.equal trueType falseType)
      (.typeMismatch falseType .selectArmsAgree)
    program.requireStorable trueType .selectArmsAreStorable
    return do
      let type ← Step.dropConst trueType
      Step.addInst type .select [(.fixed 0, condition), (.fixed 1, onTrue), (.fixed 2, onFalse)]

/-! ### Conversions -/

namespace TypeTable

/-- Whether both of two widths are there and the second relates to the first. -/
def widthsRelate (relates : Nat → Nat → Bool) : Option Nat → Option Nat → Bool
  | some source, some target => relates source target
  | _, _ => false

/-- Whether a conversion operator applies between two types. -/
def castApplies (types : TypeTable) (op : CastOp) (source target : TypeId) :
    Except Fault Bool := do
  match op with
  | .trunc =>
      return widthsRelate (fun a b => b < a) (← types.intBits? source) (← types.intBits? target)
  | .zext | .sext =>
      return widthsRelate (fun a b => a < b) (← types.intBits? source) (← types.intBits? target)
  | .fpTrunc =>
      return widthsRelate (fun a b => b < a)
        (← types.floatBits? source) (← types.floatBits? target)
  | .fpExt =>
      return widthsRelate (fun a b => a < b)
        (← types.floatBits? source) (← types.floatBits? target)
  | .fpToInt => return (← types.isFloat source) && (← types.isInt target)
  | .intToFp => return (← types.isInt source) && (← types.isFloat target)
  | .ptrToInt => return (← types.isPointer source) && (← types.isInt target)
  | .intToPtr => return (← types.isInt source) && (← types.isPointer target)
  | .bitcast => return (← types.conversions source target).reinterpret

/-- The operator between two widths: one that widens, one that narrows, or a
reinterpretation. -/
def castByWidth (widen narrow : CastOp) (source target : Nat) : CastOp :=
  if source < target then widen else if target < source then narrow else .bitcast

/-- The conversion operator that the shapes of two types suggest. -/
def pickCast? (types : TypeTable) (source target : TypeId) : Except Fault (Option CastOp) := do
  match ← types.intBits? source, ← types.intBits? target with
  | some a, some b =>
      let widen := if ← types.isSigned source then .sext else .zext
      return some (castByWidth widen .trunc a b)
  | _, _ =>
      match ← types.floatBits? source, ← types.floatBits? target with
      | some a, some b => return some (castByWidth .fpExt .fpTrunc a b)
      | _, _ =>
          return if (← types.conversions source target).reinterpret then some .bitcast else none

end TypeTable

namespace Program

/-- Find the conversion of an operand to a type by an operator, or refuse it. -/
def planCast (program : Program) (op : CastOp) (value : ValueId) (target : TypeId) :
    Except Halt (Step InstId) := do
  let source ← program.operandType value .castOperand
  program.requireStorable target .castTargetIsStorable
  require (← program.types.castApplies op source target)
    (.typeMismatch source (.castApplies op))
  return Step.addInst target (.cast op) [(.fixed 0, value)]

end Program

/-- A conversion by a stated operator. -/
def buildCast (op : CastOp) (value : ValueId) (target : TypeId) : Edit InstId :=
  .plan fun program => program.planCast op value target

/-- A conversion by the operator that the types suggest. -/
def buildAutomaticCast (value : ValueId) (target : TypeId) : Edit InstId :=
  .plan fun program => do
    let source ← program.operandType value .castOperand
    match ← program.types.pickCast? source target with
    | some op => program.planCast op value target
    | none => refuse (.typeMismatch target .castExists)

end ValueGraph
