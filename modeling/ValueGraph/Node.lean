import ValueGraph.CountMap
import ValueGraph.Instruction
import ValueGraph.NameTable

namespace ValueGraph

/-!
# Nodes and edges of the value graph

Everything a program is made of is a node: constants, arguments, blocks,
instructions, functions, globals and registers.  A node knows its type, its
name, the edges through which others read it and the edges through which it
reads others.  An edge knows both of its ends and the place it has among the
operands of its user.
-/

/-- What a constant holds.  Its type says how to read it. -/
inductive Constant where
  /-- The bits of an integer, cut down to the width of the type. -/
  | int (bits : UInt64)
  /-- The bits of a double. -/
  | float (bits : UInt64)
  /-- All bits zero, for any type with stored values. -/
  | zero
  /-- A value left open. -/
  | undefined
deriving DecidableEq

/-- A parameter of a function and its position. -/
structure Argument where
  parent : FuncId
  index : Nat
deriving DecidableEq

/-- A basic block: a chain of instructions and its neighbours in the flow graph. -/
structure Block where
  parent : Option FuncId
  first : Option InstId
  last : Option InstId
  length : Nat
  /-- The targets of the terminator with their numbers of edges. -/
  jumpsTo : CountMap
  /-- The blocks whose terminators lead here with their numbers of edges. -/
  comesFrom : CountMap
deriving DecidableEq

/-- A block without instructions and outside any function. -/
def Block.detached : Block :=
  { parent := none, first := none, last := none, length := 0, jumpsTo := .empty,
    comesFrom := .empty }

/-- What holds an instruction. -/
inductive Holder where
  | block (block : BlockId)
  /-- The register write that the instruction is nested under. -/
  | inst (outer : InstId)
deriving DecidableEq

/-- An instruction: its kind, its attachment and its place in a chain. -/
structure Inst where
  kind : InstKind
  status : Status
  holder : Option Holder
  prev : Option InstId
  next : Option InstId
deriving DecidableEq

/-- An instruction outside any block. -/
def Inst.fresh (kind : InstKind) : Inst :=
  { kind, status := .disconnected, holder := none, prev := none, next := none }

/-- The register allocator of a function: slots in use, slots given back, and the
least slot that was never used. -/
structure RegisterFile where
  next : Nat
  /-- Slots given back, the most recent first. -/
  free : List Nat
  live : List RegId
deriving DecidableEq

/-- An allocator that has granted nothing. -/
def RegisterFile.initial : RegisterFile :=
  { next := 0, free := [], live := [] }

/-- A function: its signature type, parameters, blocks and registers.  Without a
body it is a declaration, without a register file it is in pure SSA form. -/
structure Function where
  type : TypeId
  params : List ValueId
  body : Option (List BlockId)
  registers : Option RegisterFile
deriving DecidableEq

/-- The blocks of a function in layout order. -/
def Function.blocks (function : Function) : List BlockId :=
  function.body.getD []

/-- A global variable.  Its initializer, if any, is its only operand. -/
structure Global where
  content : TypeId
  isConstant : Bool
deriving DecidableEq

/-- A mutable register and its slot. -/
structure Register where
  parent : FuncId
  slot : Nat
deriving DecidableEq

/-- What a node is. -/
inductive Payload where
  | constant (constant : Constant)
  | argument (argument : Argument)
  | block (block : Block)
  | inst (inst : Inst)
  | function (function : Function)
  | global (global : Global)
  | register (register : Register)
deriving DecidableEq

/-- The sort of thing a node is. -/
inductive Category where
  | constant | argument | block | inst | function | global | register
deriving DecidableEq

namespace Category

/-- A category as listings show it. -/
def text : Category → String
  | .constant => "Constant"
  | .argument => "Argument"
  | .block => "Block"
  | .inst => "Instruction"
  | .function => "Function"
  | .global => "Global"
  | .register => "Register"

end Category

namespace Payload

/-- The sort of thing a payload describes. -/
def category : Payload → Category
  | .constant _ => .constant
  | .argument _ => .argument
  | .block _ => .block
  | .inst _ => .inst
  | .function _ => .function
  | .global _ => .global
  | .register _ => .register

/-- Functions and globals share one space of names. -/
def isSymbol : Payload → Bool
  | .function _ | .global _ => true
  | _ => false

/-- A word for what a node is, for diagnostics. -/
def word : Payload → String
  | .constant _ => "constant"
  | .argument _ => "argument"
  | .block _ => "block"
  | .inst data => data.kind.opcode.text
  | .function _ => "function"
  | .global _ => "global"
  | .register _ => "register"

end Payload

/-- A node of the value graph. -/
structure Node where
  type : TypeId
  name : Option Name
  /-- The edges that read this node. -/
  usedBy : List EdgeId
  /-- The edges through which this node reads others, in operand order. -/
  operands : List EdgeId
  payload : Payload
deriving DecidableEq

/-- A node without a name or edges. -/
def Node.fresh (type : TypeId) (payload : Payload) : Node :=
  { type, name := none, usedBy := [], operands := [], payload }

/-- The place of an edge among the operands of its user. -/
inductive Slot where
  /-- A part with a role of its own. -/
  | fixed (position : Nat)
  /-- A member of a list of any length. -/
  | indexed (position : Nat)
  /-- An entry for a block. -/
  | keyed (block : BlockId)
deriving DecidableEq

/-- An operand edge. -/
structure Edge where
  user : ValueId
  value : ValueId
  slot : Slot
deriving DecidableEq

end ValueGraph
