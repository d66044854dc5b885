import ValueGraph.Edit

namespace ValueGraph

/-!
# The flow graph

The targets of a terminator are its block operands: the operand of `br`, the
second and third of `condbr`, and all but the condition of `switch`.  Blocks count
the edges to each block that their terminator leads to and the edges from each
block that leads to them.
-/

namespace InstKind

/-- Whether an operand place of an instruction of this kind holds a target. -/
def isTargetSlot : InstKind → Slot → Bool
  | .br, .fixed position => position == 0
  | .condBr, .fixed position => position == 1 || position == 2
  | .switch _, .fixed position => position == 1
  | .switch _, .indexed _ => true
  | _, _ => false

end InstKind

namespace Program

/-- The edges of an instruction that hold its targets, in operand order. -/
def targetEdges (program : Program) (inst : InstId) : Except Fault (List EdgeId) := do
  let kind ← program.kind inst
  (← program.operands inst).filterM fun edge => do
    return kind.isTargetSlot (← program.edgeSlot edge)

/-- The blocks that an instruction leads to, in operand order, with repeats. -/
def targets (program : Program) (inst : InstId) : Except Fault (List BlockId) := do
  let values ← (← program.targetEdges inst).mapM program.edgeValue
  return values.filter program.isBlock

/-- The terminator of a block; an empty block has none. -/
def terminator? (program : Program) (block : BlockId) : Except Fault (Option InstId) := do
  match (← program.block block).last with
  | some last => return if ← program.isTerminator last then some last else none
  | none => return none

/-- Number of edges from one block to another. -/
def edgeCount (program : Program) (source target : BlockId) : Except Fault Nat := do
  return (← program.block source).jumpsTo.count target

/-- The blocks that a block leads to, each once, in operand order. -/
def successors (program : Program) (block : BlockId) : Except Fault (List BlockId) := do
  match ← program.terminator? block with
  | some terminator => return (← program.targets terminator).eraseDups
  | none => return []

/-- The members of a list of blocks, each once, in handle order. -/
def distinct (blocks : List BlockId) : List BlockId :=
  blocks.eraseDups.mergeSort Handle.le

/-- The blocks that lead to a block, each once, in handle order. -/
def predecessors (program : Program) (block : BlockId) : Except Fault (List BlockId) := do
  return distinct (← program.block block).comesFrom.keys

end Program

namespace Step

/-- Record an edge of the flow graph at both of its ends. -/
def linkFlow (source target : BlockId) : Step Unit := do
  modifyBlock source fun block => { block with jumpsTo := block.jumpsTo.increment target }
  modifyBlock target fun block => { block with comesFrom := block.comesFrom.increment source }

/-- Strike out an edge of the flow graph at both of its ends. -/
def unlinkFlow (source target : BlockId) : Step Unit := do
  modifyBlock source fun block => { block with jumpsTo := block.jumpsTo.decrement target }
  modifyBlock target fun block => { block with comesFrom := block.comesFrom.decrement source }

/-- Record the edges of an instruction that has come to stand in a block. -/
def attachFlow (block : BlockId) (inst : InstId) : Step Unit := do
  (← (← get).targets inst).forM (linkFlow block)

/-- Strike out the edges of an instruction that is about to leave a block. -/
def detachFlow (block : BlockId) (inst : InstId) : Step Unit := do
  (← (← get).targets inst).forM (unlinkFlow block)

end Step

end ValueGraph
