import ValueGraph.Instruction

namespace ValueGraph

/-!
# Refusals

A refusal is an answer: the edit does not apply and was not made.  The causes
are data; `Refusal.message` gives their wording.
-/

/-- What a missing or stale handle was needed for. -/
inductive Role where
  | leftOperand | rightOperand | unaryOperand
  | selectCondition | selectValue
  | castOperand
  | pointerOperand | storedValue | elementPtrBase | elementPtrIndex
  | callee | callArgument
  | returnValue | branchTarget | branchCondition | switchCondition
  | phi | incomingBlock | incomingValue
  | register | writtenValue
  | use | operand | user | replacedValue | replacementValue
  | block | instruction | anchorInstruction | anchorBlock | splitPoint | splitBlock
  | terminator | switch
  | function | anchorFunction | global
  | handle
deriving DecidableEq

namespace Role

def text : Role → String
  | .leftOperand => "left operand"
  | .rightOperand => "right operand"
  | .unaryOperand => "unary operand"
  | .selectCondition => "select condition"
  | .selectValue => "select value"
  | .castOperand => "cast operand"
  | .pointerOperand => "pointer operand"
  | .storedValue => "stored value"
  | .elementPtrBase => "getelementptr base"
  | .elementPtrIndex => "getelementptr index"
  | .callee => "callee"
  | .callArgument => "call argument"
  | .returnValue => "return value"
  | .branchTarget => "branch target"
  | .branchCondition => "branch condition"
  | .switchCondition => "switch condition"
  | .phi => "phi"
  | .incomingBlock => "incoming block"
  | .incomingValue => "incoming value"
  | .register => "register"
  | .writtenValue => "written value"
  | .use => "use"
  | .operand => "operand"
  | .user => "user"
  | .replacedValue => "replaced value"
  | .replacementValue => "replacement value"
  | .block => "block"
  | .instruction => "instruction"
  | .anchorInstruction => "anchor instruction"
  | .anchorBlock => "anchor block"
  | .splitPoint => "split point"
  | .splitBlock => "split block"
  | .terminator => "terminator"
  | .switch => "switch"
  | .function => "function"
  | .anchorFunction => "anchor function"
  | .global => "global"
  | .handle => "handle"

end Role

/-- The typing rules that an operand can break. -/
inductive TypeRule where
  | constIsInt | constIsFloat | constIsStorable | constIsPointer | undefIsStorable
  | shiftedIsInt | shiftAmountIsInt
  | operandsAgree | bitwiseAreInts | arithmeticAreNumbers
  | comparedAgree | comparedAreScalars
  | negatedIsNumber | invertedIsInt
  | selectConditionIsBool | selectArmsAgree | selectArmsAreStorable
  | castTargetIsStorable | castApplies (op : CastOp) | castExists
  | addressIsPointer | pointeeIsStorable | allocatedIsStorable
  | storeTargetIsMutable | storedFitsPointee
  | elementPtrBaseIsPointer | elementPtrIndexIsInt | elementPtrStepExists
  | calleeIsFunctionPointer | argumentCountFits | argumentFitsParameter | extraIsStorable
  | returnedIsStorable | branchConditionIsBool | switchConditionIsInt
  | phiIsStorable | incomingFitsPhi
  | writtenFitsRegister
  | returnedFitsFunction | returnIsPresent
  | blocksReplaceBlocks | replacementAgrees
  | caseFitsCondition
deriving DecidableEq

namespace TypeRule

/-- What each conversion asks of its operand and target. -/
def castText : CastOp → String
  | .trunc => "trunc needs an integer narrowed to a smaller integer"
  | .zext | .sext => "extension needs an integer widened to a larger integer"
  | .fpTrunc => "fptrunc needs a float narrowed to a smaller float"
  | .fpExt => "fpext needs a float widened to a larger float"
  | .fpToInt => "fptoint converts a float to an integer"
  | .intToFp => "inttofp converts an integer to a float"
  | .ptrToInt => "ptrtoint converts a pointer to an integer"
  | .intToPtr => "inttoptr converts an integer to a pointer"
  | .bitcast => "bitcast needs types of equal bit width"

def text : TypeRule → String
  | .constIsInt => "integer constant needs an integer type"
  | .constIsFloat => "float constant needs a float type"
  | .constIsStorable => "zero constant needs a storable type"
  | .constIsPointer => "null constant needs a pointer type"
  | .undefIsStorable => "undef needs a storable type"
  | .shiftedIsInt => "shifted value must be an integer"
  | .shiftAmountIsInt => "shift amount must be an integer"
  | .operandsAgree => "binary operands differ in type"
  | .bitwiseAreInts => "bitwise operands must be integers"
  | .arithmeticAreNumbers => "arithmetic operands must be integers or floats"
  | .comparedAgree => "compared operands differ in type"
  | .comparedAreScalars => "only integers, floats and pointers compare"
  | .negatedIsNumber => "negation needs an integer or float"
  | .invertedIsInt => "bitwise not needs an integer"
  | .selectConditionIsBool => "select condition must be bool"
  | .selectArmsAgree => "select arms differ in type"
  | .selectArmsAreStorable => "select arms must be storable values"
  | .castTargetIsStorable => "cast target must be a storable type"
  | .castApplies op => castText op
  | .castExists => "no cast converts between these types"
  | .addressIsPointer => "address operand must be a pointer"
  | .pointeeIsStorable => "pointee must be a storable type"
  | .allocatedIsStorable => "allocated type must be storable"
  | .storeTargetIsMutable => "cannot store through a pointer to const"
  | .storedFitsPointee => "stored value does not match the pointee type"
  | .elementPtrBaseIsPointer => "getelementptr base must be a pointer"
  | .elementPtrIndexIsInt => "getelementptr index must be an integer"
  | .elementPtrStepExists => "index steps into a type that is neither pointer nor array"
  | .calleeIsFunctionPointer => "callee is not a function pointer"
  | .argumentCountFits => "argument count does not match the signature"
  | .argumentFitsParameter => "argument type does not match the parameter"
  | .extraIsStorable => "variadic argument must be storable"
  | .returnedIsStorable => "return value must be storable"
  | .branchConditionIsBool => "branch condition must be bool"
  | .switchConditionIsInt => "switch condition must be an integer"
  | .phiIsStorable => "phi type must be storable"
  | .incomingFitsPhi => "incoming value does not match the phi type"
  | .writtenFitsRegister => "written value does not match the register type"
  | .returnedFitsFunction => "return value does not match the function's return type"
  | .returnIsPresent => "missing return value"
  | .blocksReplaceBlocks => "block operands only accept blocks"
  | .replacementAgrees => "replacement type differs from the operand type"
  | .caseFitsCondition => "case value does not fit the condition type"

end TypeRule

/-- The rules on where terminators stand and what becomes of their targets. -/
inductive TerminatorRule where
  | emptyBlockNeedsTerminator | blockHasTerminator | nothingAfterTerminator
  | terminatorStays | terminatorNotErased
  | branchTargetsStay | defaultTargetStays | caseValuesDiffer
deriving DecidableEq

namespace TerminatorRule

def text : TerminatorRule → String
  | .emptyBlockNeedsTerminator => "an empty block must receive its terminator first"
  | .blockHasTerminator => "block already has a terminator; use set_terminator"
  | .nothingAfterTerminator => "cannot place an instruction after the terminator"
  | .terminatorStays => "the terminator cannot be removed; use set_terminator"
  | .terminatorNotErased => "the terminator cannot be erased on its own"
  | .branchTargetsStay => "branch targets cannot be removed"
  | .defaultTargetStays => "the default target of a switch cannot be removed"
  | .caseValuesDiffer => "duplicate switch case value"

end TerminatorRule

/-- The families of instructions that some edits are limited to. -/
inductive OpcodeFamily where
  | phi | terminator | switch
deriving DecidableEq

namespace OpcodeFamily

def text : OpcodeFamily → String
  | .phi => "phi"
  | .terminator => "terminator"
  | .switch => "switch"

end OpcodeFamily

/-- Why an edit of the graph was refused. -/
inductive EditCause where
  | missing (role : Role)
  | typeMismatch (type : TypeId) (rule : TypeRule)
  | illegalTerminator (rule : TerminatorRule)
  | wrongOpcode (expected : OpcodeFamily) (found : Opcode)
  /-- An address needs at least one index. -/
  | noIndices
  | wrongStatus (expected found : Status)
deriving DecidableEq

namespace EditCause

def message : EditCause → String
  | .missing role => "missing operand: " ++ role.text
  | .typeMismatch type rule => "type mismatch at " ++ type.text ++ ": " ++ rule.text
  | .illegalTerminator rule => "illegal terminator edit: " ++ rule.text
  | .wrongOpcode expected found =>
      "expected " ++ expected.text ++ ", found `" ++ found.text ++ "`"
  | .noIndices => "getelementptr indices must not be empty"
  | .wrongStatus expected found =>
      "instruction is " ++ found.text ++ ", expected " ++ expected.text

end EditCause

/-- Why an edit of a register file was refused. -/
inductive RegisterCause where
  | disabled
  | unstorable (type : TypeId)
  | notARegister
  | stillUsed (users : Nat)
  | inUse (live : Nat)
deriving DecidableEq

namespace RegisterCause

def message : RegisterCause → String
  | .disabled => "function has no register context"
  | .unstorable type => "cannot hold " ++ type.text ++ " in a register"
  | .notARegister => "value is not a live register"
  | .stillUsed users => "register still has " ++ toString users ++ " use(s)"
  | .inUse live =>
      "register context still has " ++ toString live ++ " allocated register(s)"

end RegisterCause

/-- Why an edit of the symbols was refused. -/
inductive SymbolCause where
  | duplicate (name : String)
  | invalidType (type : TypeId)
  | invalidInitializer
  | notASymbol
deriving DecidableEq

namespace SymbolCause

def message : SymbolCause → String
  | .duplicate name => "`" ++ name ++ "` is already defined"
  | .invalidType type => "invalid symbol type " ++ type.text
  | .invalidInitializer => "invalid global initializer"
  | .notASymbol => "not a function or global"

end SymbolCause

/-- Why an edit was refused. -/
inductive Refusal where
  | edit (cause : EditCause)
  | register (cause : RegisterCause)
  | symbol (cause : SymbolCause)
deriving DecidableEq

namespace Refusal

/-- The wording of a refusal. -/
def message : Refusal → String
  | .edit cause => cause.message
  | .register cause => cause.message
  | .symbol cause => cause.message

end Refusal

end ValueGraph
