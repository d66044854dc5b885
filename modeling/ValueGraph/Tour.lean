import ValueGraph.Layout
import ValueGraph.Registers

namespace ValueGraph

/-!
# Tours

A tour shows a program to a visitor in layout order: the globals, then each
function with its registers, arguments, blocks and instructions.  The visitor
says which stops it notes down and which containers it enters.
-/

/-- The sort of thing a tour stops at. -/
inductive Stop where
  | global | function | register | argument | block
  | binary | compare | unary | cast | alloca | load | store | elementPtr | phi | call
  | select | regWrite | ret | br | condBr | switch | unreachable
deriving DecidableEq

namespace Stop

/-- A stop as notes show it. -/
def text : Stop → String
  | .global => "global"
  | .function => "function"
  | .register => "register"
  | .argument => "argument"
  | .block => "block"
  | .binary => "binary"
  | .compare => "compare"
  | .unary => "unary"
  | .cast => "cast"
  | .alloca => "alloca"
  | .load => "load"
  | .store => "store"
  | .elementPtr => "gep"
  | .phi => "phi"
  | .call => "call"
  | .select => "select"
  | .regWrite => "reg_write"
  | .ret => "ret"
  | .br => "br"
  | .condBr => "cond_br"
  | .switch => "switch"
  | .unreachable => "unreachable"

end Stop

namespace InstKind

/-- The stop for an instruction of this kind. -/
def stop : InstKind → Stop
  | .binary _ => .binary
  | .compare _ => .compare
  | .unary _ => .unary
  | .cast _ => .cast
  | .alloca _ _ => .alloca
  | .load _ => .load
  | .store _ => .store
  | .elementPtr => .elementPtr
  | .phi => .phi
  | .call => .call
  | .select => .select
  | .regWrite => .regWrite
  | .ret => .ret
  | .br => .br
  | .condBr => .condBr
  | .switch _ => .switch
  | .unreachable => .unreachable

end InstKind

/-- What a visitor notes down and where it goes. -/
structure Visitor where
  notes : Stop → Bool
  entersFunctions : Bool
  entersBlocks : Bool

namespace Visitor

/-- A visitor that goes everywhere and notes everything. -/
def everything : Visitor :=
  { notes := fun _ => true, entersFunctions := true, entersBlocks := true }

/-- The note on one stop. -/
def note (visitor : Visitor) (stop : Stop) (value : ValueId) : List (Stop × ValueId) :=
  if visitor.notes stop then [(stop, value)] else []

end Visitor

namespace Program

/-- Show one instruction. -/
def tourInst (program : Program) (visitor : Visitor) (inst : InstId) :
    Except Fault (List (Stop × ValueId)) := do
  return visitor.note (← program.kind inst).stop inst

/-- Show a block. -/
def tourBlock (program : Program) (visitor : Visitor) (block : BlockId) :
    Except Fault (List (Stop × ValueId)) := do
  let own := visitor.note .block block
  if visitor.entersBlocks then
    return own ++ (← (← program.instructions block).mapM (program.tourInst visitor)).flatten
  else
    return own

/-- Show a function. -/
def tourFunction (program : Program) (visitor : Visitor) (function : FuncId) :
    Except Fault (List (Stop × ValueId)) := do
  let own := visitor.note .function function
  if visitor.entersFunctions then
    let registers := (← program.registers function).flatMap (visitor.note .register)
    let params := (← program.params function).flatMap (visitor.note .argument)
    let blocks ← (← program.blocks function).mapM (program.tourBlock visitor)
    return own ++ registers ++ params ++ blocks.flatten
  else
    return own

/-- Show the whole program. -/
def tour (program : Program) (visitor : Visitor) : Except Fault (List (Stop × ValueId)) := do
  let globals := program.globals.flatMap (visitor.note .global)
  let functions ← program.functions.mapM (program.tourFunction visitor)
  return globals ++ functions.flatten

/-- Whether a listing shows a value by what it holds and not by its name. -/
def isLiteral (program : Program) (value : ValueId) : Except Fault Bool := do
  return (← program.category value) == .constant

end Program

end ValueGraph
