import ValueGraph.Constants
import ValueGraph.Reach
import ValueGraph.Teardown

namespace ValueGraph

/-!
# Collection of unreachable blocks

The blocks of a function that cannot be reached from its entry are taken out.
What survives and reads a value computed there reads an open constant instead,
and phi entries for the collected blocks go.
-/

namespace Program

/-- The edges that read an instruction from outside some blocks. -/
def usesOutside (program : Program) (inst : InstId) (blocks : List BlockId) :
    Except Fault (List EdgeId) := do
  (← program.usedBy inst).filterM fun edge => do
    let user ← program.edgeUser edge
    if program.isInst user then
      match ← program.enclosingBlock? user with
      | some home => return !blocks.contains home
      | none => return true
    else
      return true

end Program

namespace Step

/-- Make the uses of an instruction from outside some blocks read an open constant. -/
def rebindToPlaceholder (blocks : List BlockId) (inst : InstId) : Step Unit := do
  let program ← get
  let outside ← program.usesOutside inst blocks
  unless outside.isEmpty do
    let placeholder ← addConstant (← program.typeOf inst) .undefined
    outside.forM (rebind · placeholder)
    dropHandle placeholder

/-- Take some blocks of a function out of the graph; the survivors are its other
blocks. -/
def collectBlocks (function : FuncId) (dead survivors : List BlockId) : Step Unit := do
  let insts ← (← get).instructionsOf dead
  insts.forM (rebindToPlaceholder dead)
  survivors.forM fun block => dead.forM fun gone => dropEntriesFrom block gone
  dropInstructions insts
  dead.forM fun block => do
    detachBlock function block
    releaseBlock block

end Step

/-- Take the blocks of a function that cannot be reached from its entry out of the
graph; how many. -/
def collectGarbage (function : FuncId) : Edit Nat :=
  .plan fun program => do
    let reachable ← program.reachableSet function
    let blocks ← program.blocks function
    let dead := blocks.filter (!reachable.contains ·)
    if dead.isEmpty then
      return pure 0
    return do
      Step.collectBlocks function dead (blocks.filter (reachable.contains ·))
      return dead.length

end ValueGraph
