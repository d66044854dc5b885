import ValueGraph.Layout
import ValueGraph.Phi
import ValueGraph.Symbols

namespace ValueGraph

/-!
# Finalization and erasure

Before a node leaves the graph everything that it owns is torn down: operands,
nested instructions, the chain of a block, the body of a function.  Members of a
group are all finalized before any of them is given up, so edges between them do
not matter; edges from outside are a breach of ownership.
-/

namespace Program

/-- The operands of an instruction that are nested under it. -/
def nestedUnder (program : Program) (inst : InstId) : Except Fault (List InstId) := do
  ((← program.operandValues inst).filter program.isInst).filterM fun inner => do
    return (← program.inst inner).holder == some (.inst inst)

/-- Whether following at most so many nesting parents leads to an instruction. -/
def nestedInWithin (program : Program) (outer : InstId) : Nat → InstId → Except Fault Bool
  | 0, _ => throw .endless
  | fuel + 1, inst => do
      if inst = outer then
        return true
      match ← program.nestingParent? inst with
      | some parent => program.nestedInWithin outer fuel parent
      | none => return false

/-- Whether an instruction is another one or is nested under it. -/
def nestedIn (program : Program) (outer inst : InstId) : Except Fault Bool :=
  program.nestedInWithin outer program.chainBound inst

/-- Whether an instruction stands in a block, itself or nested. -/
def standsIn (program : Program) (block : BlockId) (inst : InstId) : Except Fault Bool := do
  return (← program.enclosingBlock? inst) == some block

/-- Whether an instruction stands in a block of a function, itself or nested. -/
def standsInFunction (program : Program) (function : FuncId) (inst : InstId) :
    Except Fault Bool := do
  match ← program.enclosingBlock? inst with
  | some block => return (← program.block block).parent == some function
  | none => return false

end Program

namespace Step

/-- Mark an instruction as finalized and take it out of every structure. -/
def markFinalized (inst : InstId) : Step Unit :=
  modifyInst inst fun data =>
    { data with status := .finalized, holder := none, prev := none, next := none }

/-- Take a connected instruction out of its block and out of the flow graph. -/
def disconnect (inst : InstId) : Step Unit := do
  match ← (← get).parentBlock? inst with
  | some block => detachFlow block inst
  | none => pure ()
  unlink inst

/-- Tear down an instruction in any status, and what is nested under it to at most
so many levels. -/
def finalizeWithin : Nat → InstId → Step Unit
  | 0, _ => throw .endless
  | fuel + 1, inst => do
      let status ← (← get).status inst
      if status = .finalized then
        return ()
      if status = .connected then
        disconnect inst
      let nested ← (← get).nestedUnder inst
      clearOperands inst
      nested.forM fun inner => do
        finalizeWithin fuel inner
        dropHandle inner
      markFinalized inst

/-- Tear down an instruction in any status, and what is nested under it. -/
def finalizeInst (inst : InstId) : Step Unit := do
  finalizeWithin (← get).chainBound inst

/-- Finalize a group of instructions, then give up their owning handles. -/
def dropInstructions (insts : List InstId) : Step Unit := do
  insts.forM finalizeInst
  insts.forM dropHandle

/-- Give up an owning handle on a block; the last one takes its chain along. -/
def releaseBlock (block : BlockId) : Step Unit := do
  let program ← get
  if program.values.count? block = some 1 then
    dropInstructions (← program.instructions block)
  dropHandle block

/-- Tear down the body of a function: instructions, blocks, registers, arguments. -/
def dropBody (function : FuncId) : Step Unit := do
  let blocks := (← (← get).function function).blocks
  modifyFunction function fun data => { data with body := none }
  dropInstructions (← (← get).instructionsOf blocks)
  blocks.forM fun block => do
    modifyBlock block fun data => { data with parent := none }
    releaseBlock block
  let data ← (← get).function function
  modifyFunction function fun data => { data with params := [], registers := none }
  (data.registers.elim [] (·.live)).forM dropHandle
  data.params.forM dropHandle

/-- Give up an owning handle on any node; the last one takes along what the node
owns. -/
def releaseNode (value : ValueId) : Step Unit := do
  let program ← get
  if program.values.count? value = some 1 then
    match ← program.payload value with
    | .inst _ => finalizeInst value
    | .block _ => dropInstructions (← program.instructions value)
    | .function _ => dropBody value
    | .global _ => clearOperands value
    | _ => pure ()
  dropHandle value

end Step

/-! ### Edits -/

/-- Give up an owning handle; the remaining count.  The last handle that a
container holds cannot be given up from outside. -/
def release (value : ValueId) : Edit Nat :=
  .plan fun program => do
    match program.values.count? value with
    | none => refuse (.missing .handle)
    | some count =>
        if count = 1 then
          if ← program.isOwnedByContainer value then
            throw (.faulted (.corruption (.releasedAttached (← program.describe value))))
        return do
          Step.releaseNode value
          return count - 1

/-- Tear down a disconnected instruction.  It stays until its last handle goes. -/
def finalize (inst : InstId) : Edit Unit :=
  .plan fun program => do
    program.requireInst inst .instruction
    program.requireStatus inst .disconnected
    return Step.finalizeInst inst

/-- Take an instruction that is not a terminator out of the graph. -/
def eraseInstruction (inst : InstId) : Edit Unit :=
  .plan fun program => do
    program.requireInst inst .instruction
    match ← program.status inst with
    | .connected =>
        require (!(← program.isTerminator inst)) (.illegalTerminator .terminatorNotErased)
    | .reparent => refuse (.wrongStatus .disconnected .reparent)
    | _ => pure ()
    program.checkUsersWithin inst (program.nestedIn inst)
    return do
      Step.finalizeInst inst
      Step.dropHandle inst

namespace Program

/-- The blocks whose phis may have entries for a block: those it leads to and the
others of its function, in handle order. -/
def entryHolders (program : Program) (block : BlockId) : Except Fault (List BlockId) := do
  let successors ← program.successors block
  match (← program.block block).parent with
  | some function =>
      return distinct (successors ++ (← program.blocks function).filter (· != block))
  | none => return distinct successors

end Program

namespace Step

/-- Take a block and its chain out of the graph. -/
def eraseBlockNode (block : BlockId) : Step Unit := do
  (← (← get).entryHolders block).forM fun holder => dropEntriesFrom holder block
  let program ← get
  let insts ← program.instructions block
  insts.forM fun inst => program.checkUsersWithin inst (program.standsIn block)
  let parent := (← program.block block).parent
  dropInstructions insts
  match parent with
  | some function => detachBlock function block
  | none => pure ()
  releaseBlock block

end Step

/-- Take a block and its chain out of the graph.  Phi entries for the block go
first; after that only the block itself may read it or its instructions. -/
def eraseBlock (block : BlockId) : Edit Unit :=
  .plan fun program => do
    program.requireBlock block .block
    program.checkUsersWithin block (program.standsIn block)
    return Step.eraseBlockNode block

/-- Take a function and its body out of the program.  Only the body may still call
it. -/
def eraseFunction (function : FuncId) : Edit Unit :=
  .plan fun program => do
    require (program.isFunction function) (.missing .function)
    program.checkUsersWithin function (program.standsInFunction function)
    return do
      Step.unregisterSymbol function
      modify fun program =>
        { program with functions := program.functions.filter (· != function) }
      Step.releaseNode function

/-- Take a global out of the program. -/
def eraseGlobal (global : GlobalId) : Edit Unit :=
  .plan fun program => do
    require (program.isGlobal global) (.missing .global)
    program.checkUnused global
    return do
      Step.unregisterSymbol global
      modify fun program => { program with globals := program.globals.filter (· != global) }
      Step.releaseNode global

end ValueGraph
