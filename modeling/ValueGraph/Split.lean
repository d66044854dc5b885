import ValueGraph.Factory.Control

namespace ValueGraph

/-!
# Splitting blocks

A block is cut in two in front of one of its instructions.  The new block and the
jump to it are made first, by the edits that clients use, and the cut follows.
-/

namespace Step

/-- Move an instruction and all behind it into another, empty block. -/
def moveChain (source target : BlockId) (start : InstId) : Step Unit := do
  let oldLast := (← (← get).block source).last
  let headLast := (← (← get).inst start).prev
  modifyInst start fun data => { data with prev := none }
  setForward source headLast none
  modifyBlock source fun data => { data with last := headLast }
  let moved ← (← get).chainFrom (some start)
  moved.forM fun inst => modifyInst inst fun data => { data with holder := some (.block target) }
  modifyBlock target fun data =>
    { data with first := some start, last := oldLast, length := moved.length }
  modifyBlock source fun data => { data with length := data.length - moved.length }

/-- Strike out the edges of the terminator of a block. -/
def detachTerminator (block : BlockId) : Step Unit := do
  match ← (← get).terminator? block with
  | some terminator => detachFlow block terminator
  | none => pure ()

/-- Record the edges of the terminator of a block. -/
def attachTerminator (block : BlockId) : Step Unit := do
  match ← (← get).terminator? block with
  | some terminator => attachFlow block terminator
  | none => pure ()

/-- Put a block behind another in the function of that one, if it has one. -/
def follow (anchor block : BlockId) : Step Unit := do
  match (← (← get).block anchor).parent with
  | some function => placeBlockAfter function anchor block
  | none => pure ()

/-- Move an instruction and all behind it into another, empty block, and put a jump
in their place. -/
def cut (block tail : BlockId) (start jump : InstId) : Step Unit := do
  detachTerminator block
  moveChain block tail start
  attachTerminator tail
  place block jump (← (← get).block block).last none

end Step

/-- The block that is cut in front of an instruction. -/
def splitPoint (start : InstId) : Edit BlockId :=
  .look fun program => do
    program.requireInst start .splitPoint
    program.requireStatus start .connected
    match ← program.parentBlock? start with
    | some block => return block
    | none => refuse (.missing .splitBlock)

/-- Cut a block in two: an instruction and all behind it move to a new block, to
which the old one now jumps.  The new block follows the old one in its function;
outside any function it goes to the caller. -/
def splitBlock (start : InstId) : Edit BlockId :=
  (splitPoint start).andThen fun block =>
    createBlock.andThen fun tail =>
      (buildBr tail).andThen fun jump =>
        .perform do
          Step.cut block tail start jump
          Step.follow block tail
          return tail

end ValueGraph
