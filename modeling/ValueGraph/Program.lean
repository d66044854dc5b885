import ValueGraph.Arena
import ValueGraph.Node
import ValueGraph.Settings

namespace ValueGraph

/-!
# Programs

A program is a graph of nodes and operand edges together with its types, names
and symbols.  This module has the state and the readers that look at one node or
one edge.  Reading through a handle that names nothing is a fault.
-/

/-- A program under construction. -/
structure Program where
  name : String
  types : TypeTable
  names : NameTable
  values : Arena ValueSpace Node
  edges : Arena EdgeSpace Edge
  /-- The functions and globals that can be found by name. -/
  symbols : List (Name × ValueId)
  /-- The functions in the order in which they were declared. -/
  functions : List FuncId
  /-- The globals in the order in which they were defined. -/
  globals : List GlobalId
deriving DecidableEq

namespace Program

/-- A program without nodes. -/
def initial (name : String) (settings : Settings) : Program :=
  { name
    types := TypeTable.ofPointerBits settings.pointerBits
    names := NameTable.initial
    values := .empty
    edges := .empty
    symbols := []
    functions := []
    globals := [] }

/-- The node that a handle names. -/
def node (program : Program) (value : ValueId) : Except Fault Node :=
  match program.values.get? value with
  | some node => .ok node
  | none => .error (.ofHandle value)

/-- The edge that a handle names. -/
def edge (program : Program) (edge : EdgeId) : Except Fault Edge :=
  match program.edges.get? edge with
  | some edge => .ok edge
  | none => .error (.ofHandle edge)

/-- Whether a handle names a node. -/
def isLive (program : Program) (value : ValueId) : Bool :=
  program.values.contains value

/-- A bound on the length of any chain of distinct nodes, with one to spare. -/
def chainBound (program : Program) : Nat :=
  program.values.slots.size + 1

/-! ### Parts of a node -/

def typeOf (program : Program) (value : ValueId) : Except Fault TypeId := do
  return (← program.node value).type

def payload (program : Program) (value : ValueId) : Except Fault Payload := do
  return (← program.node value).payload

def category (program : Program) (value : ValueId) : Except Fault Category := do
  return (← program.payload value).category

/-- The name given to a node. -/
def nameOf (program : Program) (value : ValueId) : Except Fault (Option String) := do
  match (← program.node value).name with
  | some name => return some (← program.names.text name)
  | none => return none

/-- The edges through which a node reads others. -/
def operands (program : Program) (user : ValueId) : Except Fault (List EdgeId) := do
  return (← program.node user).operands

/-- The edges through which others read a node. -/
def usedBy (program : Program) (value : ValueId) : Except Fault (List EdgeId) := do
  return (← program.node value).usedBy

/-- The constant that a node is. -/
def constant? (program : Program) (value : ValueId) : Except Fault (Option Constant) := do
  match ← program.payload value with
  | .constant constant => return some constant
  | _ => return none

def block (program : Program) (block : BlockId) : Except Fault Block := do
  match ← program.payload block with
  | .block data => return data
  | _ => throw .wrongCategory

def inst (program : Program) (inst : InstId) : Except Fault Inst := do
  match ← program.payload inst with
  | .inst data => return data
  | _ => throw .wrongCategory

def function (program : Program) (function : FuncId) : Except Fault Function := do
  match ← program.payload function with
  | .function data => return data
  | _ => throw .wrongCategory

def global (program : Program) (global : GlobalId) : Except Fault Global := do
  match ← program.payload global with
  | .global data => return data
  | _ => throw .wrongCategory

/-! ### Categories of handles

These questions have an answer for every handle: a stale one is of no category. -/

/-- What the node behind a handle is, if there is one. -/
def payload? (program : Program) (value : ValueId) : Option Payload :=
  (program.values.get? value).map (·.payload)

def isConstant (program : Program) (value : ValueId) : Bool :=
  (program.payload? value).map (·.category) == some .constant

def isBlock (program : Program) (value : ValueId) : Bool :=
  (program.payload? value).map (·.category) == some .block

def isInst (program : Program) (value : ValueId) : Bool :=
  (program.payload? value).map (·.category) == some .inst

def isFunction (program : Program) (value : ValueId) : Bool :=
  (program.payload? value).map (·.category) == some .function

def isGlobal (program : Program) (value : ValueId) : Bool :=
  (program.payload? value).map (·.category) == some .global

def isRegister (program : Program) (value : ValueId) : Bool :=
  (program.payload? value).map (·.category) == some .register

/-- The function and position of an argument. -/
def argument? (program : Program) (value : ValueId) : Option Argument :=
  match program.payload? value with
  | some (.argument argument) => some argument
  | _ => none

/-- The function and slot of a register. -/
def register? (program : Program) (value : ValueId) : Option Register :=
  match program.payload? value with
  | some (.register register) => some register
  | _ => none

/-! ### Instructions -/

def kind (program : Program) (inst : InstId) : Except Fault InstKind := do
  return (← program.inst inst).kind

def status (program : Program) (inst : InstId) : Except Fault Status := do
  return (← program.inst inst).status

def isTerminator (program : Program) (inst : InstId) : Except Fault Bool := do
  return (← program.kind inst).isTerminator

/-- The block that an instruction stands in. -/
def parentBlock? (program : Program) (inst : InstId) : Except Fault (Option BlockId) := do
  match (← program.inst inst).holder with
  | some (.block block) => return some block
  | _ => return none

/-- The register write that an instruction is nested under. -/
def nestingParent? (program : Program) (inst : InstId) : Except Fault (Option InstId) := do
  match (← program.inst inst).holder with
  | some (.inst outer) => return some outer
  | _ => return none

/-- Whether an instruction produces a value. -/
def hasResult (program : Program) (inst : InstId) : Except Fault Bool := do
  return (← program.typeOf inst) != TypeId.void

/-- The block reached by following at most so many holders outwards. -/
def enclosingBlockWithin
    (program : Program) :
    Nat → InstId → Except Fault (Option BlockId)
  | 0, _ => throw .endless
  | fuel + 1, inst => do
      match (← program.inst inst).holder with
      | none => return none
      | some (.block block) => return some block
      | some (.inst outer) => program.enclosingBlockWithin fuel outer

/-- The block that an instruction stands in, itself or through the register
writes that it is nested under. -/
def enclosingBlock? (program : Program) (inst : InstId) : Except Fault (Option BlockId) :=
  program.enclosingBlockWithin program.chainBound inst

/-! ### Edges -/

/-- The value that an edge reads. -/
def edgeValue (program : Program) (edge : EdgeId) : Except Fault ValueId := do
  return (← program.edge edge).value

/-- The node that reads through an edge. -/
def edgeUser (program : Program) (edge : EdgeId) : Except Fault ValueId := do
  return (← program.edge edge).user

/-- The place of an edge among the operands of its user. -/
def edgeSlot (program : Program) (edge : EdgeId) : Except Fault Slot := do
  return (← program.edge edge).slot

/-- The values that a node reads, in operand order. -/
def operandValues (program : Program) (user : ValueId) : Except Fault (List ValueId) := do
  (← program.operands user).mapM program.edgeValue

/-- The value of the operand at a position. -/
def operand? (program : Program) (user : ValueId) (index : Nat) :
    Except Fault (Option ValueId) := do
  match (← program.operands user)[index]? with
  | some edge => return some (← program.edgeValue edge)
  | none => return none

/-- The nodes that read a value, each once, in the order of their first edges. -/
def users (program : Program) (value : ValueId) : Except Fault (List ValueId) := do
  return (← (← program.usedBy value).mapM program.edgeUser).eraseDups

/-- Whether anything reads a value. -/
def hasUsers (program : Program) (value : ValueId) : Except Fault Bool := do
  return !(← program.usedBy value).isEmpty

/-- A node as diagnostics name it: what it is, and its name or slot. -/
def describe (program : Program) (value : ValueId) : Except Fault String := do
  match program.values.get? value with
  | none => return "<stale " ++ toString value.index ++ ">"
  | some node =>
      match node.name with
      | some name => return node.payload.word ++ " %" ++ (← program.names.text name)
      | none => return node.payload.word ++ " #" ++ toString value.index

end Program

end ValueGraph
