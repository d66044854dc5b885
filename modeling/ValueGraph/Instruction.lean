import ValueGraph.Handle
import ValueGraph.Types.Shape

namespace ValueGraph

/-!
# Instructions

The kinds of instruction with what each carries besides its operands, their
opcodes, and the state of attachment of an instruction.  Operands are edges and
are kept with the node; their order is fixed by the kind.
-/

/-- How an instruction is attached to the graph. -/
inductive Status where
  /-- In no block; its creator holds the owning handle. -/
  | disconnected
  /-- In a block, which holds the owning handle. -/
  | connected
  /-- Nested under a register write, which holds the owning handle. -/
  | reparent
  /-- Without edges, waiting for its last handle to be given up. -/
  | finalized
deriving DecidableEq

namespace Status

/-- A status as diagnostics show it. -/
def text : Status → String
  | .disconnected => "Disconnected"
  | .connected => "Connected"
  | .reparent => "Reparent"
  | .finalized => "Finalized"

end Status

/-- The operators with two operands. -/
inductive BinaryOp where
  | add | sub | mul | div | rem | and | or | xor | shl | shr
deriving DecidableEq

namespace BinaryOp

/-- Shifts take an amount of any integer type. -/
def isShift : BinaryOp → Bool
  | .shl | .shr => true
  | _ => false

/-- Bitwise operators and shifts take integers only. -/
def isIntegerOnly : BinaryOp → Bool
  | .and | .or | .xor | .shl | .shr => true
  | _ => false

end BinaryOp

/-- The comparisons.  Sign and float order come from the type of the operands. -/
inductive Comparison where
  | eq | ne | lt | le | gt | ge
deriving DecidableEq

/-- The operators with one operand. -/
inductive UnaryOp where
  | neg | not
deriving DecidableEq

/-- The conversion operators. -/
inductive CastOp where
  | trunc | zext | sext | fpTrunc | fpExt | fpToInt | intToFp | ptrToInt | intToPtr | bitcast
deriving DecidableEq

/-- The kind of an instruction. -/
inductive InstKind where
  | binary (op : BinaryOp)
  | compare (comparison : Comparison)
  | unary (op : UnaryOp)
  | cast (op : CastOp)
  /-- A stack slot for one value of a type. -/
  | alloca (allocated : TypeId) (align : Nat)
  | load (align : Nat)
  | store (align : Nat)
  /-- The address of a part of what a pointer points at. -/
  | elementPtr
  | phi
  | call
  | select
  | regWrite
  | ret
  | br
  | condBr
  /-- A multiway branch; its case values stand in the order of its case targets. -/
  | switch (cases : List Int64)
  | unreachable
deriving DecidableEq

/-- The operation that an instruction performs, without what it carries. -/
inductive Opcode where
  | binary (op : BinaryOp)
  | compare (comparison : Comparison)
  | unary (op : UnaryOp)
  | cast (op : CastOp)
  | alloca | load | store | elementPtr | phi | call | select | regWrite
  | ret | br | condBr | switch | unreachable
deriving DecidableEq

namespace InstKind

/-- The operation that an instruction of this kind performs. -/
def opcode : InstKind → Opcode
  | .binary op => .binary op
  | .compare comparison => .compare comparison
  | .unary op => .unary op
  | .cast op => .cast op
  | .alloca _ _ => .alloca
  | .load _ => .load
  | .store _ => .store
  | .elementPtr => .elementPtr
  | .phi => .phi
  | .call => .call
  | .select => .select
  | .regWrite => .regWrite
  | .ret => .ret
  | .br => .br
  | .condBr => .condBr
  | .switch _ => .switch
  | .unreachable => .unreachable

/-- Whether an instruction of this kind ends a block. -/
def isTerminator : InstKind → Bool
  | .ret | .br | .condBr | .switch _ | .unreachable => true
  | _ => false

end InstKind

/-! ### Texts -/

namespace BinaryOp

def text : BinaryOp → String
  | .add => "add"
  | .sub => "sub"
  | .mul => "mul"
  | .div => "div"
  | .rem => "rem"
  | .and => "and"
  | .or => "or"
  | .xor => "xor"
  | .shl => "shl"
  | .shr => "shr"

end BinaryOp

namespace Comparison

def text : Comparison → String
  | .eq => "eq"
  | .ne => "ne"
  | .lt => "lt"
  | .le => "le"
  | .gt => "gt"
  | .ge => "ge"

end Comparison

namespace UnaryOp

def text : UnaryOp → String
  | .neg => "neg"
  | .not => "not"

end UnaryOp

namespace CastOp

def text : CastOp → String
  | .trunc => "trunc"
  | .zext => "zext"
  | .sext => "sext"
  | .fpTrunc => "fptrunc"
  | .fpExt => "fpext"
  | .fpToInt => "fptoint"
  | .intToFp => "inttofp"
  | .ptrToInt => "ptrtoint"
  | .intToPtr => "inttoptr"
  | .bitcast => "bitcast"

end CastOp

namespace Opcode

/-- An opcode as listings and diagnostics show it. -/
def text : Opcode → String
  | .binary op => op.text
  | .compare comparison => "cmp " ++ comparison.text
  | .unary op => op.text
  | .cast op => op.text
  | .alloca => "alloca"
  | .load => "load"
  | .store => "store"
  | .elementPtr => "getelementptr"
  | .phi => "phi"
  | .call => "call"
  | .select => "select"
  | .regWrite => "regwrite"
  | .ret => "ret"
  | .br => "br"
  | .condBr => "condbr"
  | .switch => "switch"
  | .unreachable => "unreachable"

end Opcode

end ValueGraph
