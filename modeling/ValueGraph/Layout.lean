import ValueGraph.Chain

namespace ValueGraph

/-!
# Functions and the layout of their blocks

A function without a body is a declaration.  Its first block defines it and is
its entry.  A function owns its blocks.
-/

namespace Program

/-- The blocks of a function in layout order. -/
def blocks (program : Program) (function : FuncId) : Except Fault (List BlockId) := do
  return (← program.function function).blocks

/-- The block where a function starts. -/
def entryBlock? (program : Program) (function : FuncId) : Except Fault (Option BlockId) := do
  return (← program.blocks function).head?

/-- The arguments of a function in the order of its parameters. -/
def params (program : Program) (function : FuncId) : Except Fault (List ValueId) := do
  return (← program.function function).params

/-- Whether a function takes more arguments than it has parameters. -/
def isVariadic (program : Program) (function : FuncId) : Except Fault Bool := do
  return (← program.types.signature? (← program.function function).type).any (·.variadic)

/-- Refuse to attach anything but a block outside any function, or one that ends
in a `ret` that disagrees with the function. -/
def checkAttachable (program : Program) (function : FuncId) (block : BlockId) :
    Except Halt Unit := do
  require (program.isFunction function) (.missing .function)
  program.requireBlock block .block
  require (← program.block block).parent.isNone (.wrongStatus .disconnected .connected)
  match ← program.terminator? block with
  | some terminator => program.checkReturn function terminator
  | none => return ()

end Program

namespace Step

/-- Put a block at the end of a function. -/
def appendBlockTo (function : FuncId) (block : BlockId) : Step Unit := do
  modifyBlock block fun data => { data with parent := some function }
  modifyFunction function fun data => { data with body := some (data.blocks ++ [block]) }

/-- Take a block out of the layout of a function. -/
def detachBlock (function : FuncId) (block : BlockId) : Step Unit := do
  modifyFunction function fun data =>
    { data with body := data.body.map (·.filter (· != block)) }
  modifyBlock block fun data => { data with parent := none }

end Step

/-- Put a block outside any function at the end of one, which owns it from now on. -/
def appendBlock (function : FuncId) (block : BlockId) : Edit Unit :=
  .plan fun program => do
    program.checkAttachable function block
    return Step.appendBlockTo function block

/-- Add a block at the end of a function.  When the function is missing the new
block stays behind, outside any function. -/
def addBlock (function : FuncId) : Edit BlockId :=
  createBlock.andThen fun block => (appendBlock function block).map fun _ => block

/-- Put a block outside any function right behind another. -/
def insertBlockAfter (anchor block : BlockId) : Edit Unit :=
  .plan fun program => do
    match (← program.block anchor).parent with
    | none => refuse (.missing .anchorFunction)
    | some function =>
        program.checkAttachable function block
        return Step.placeBlockAfter function anchor block

end ValueGraph
