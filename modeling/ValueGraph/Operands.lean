import ValueGraph.Flow
import ValueGraph.Ownership
import ValueGraph.Types.Equality

namespace ValueGraph

/-!
# Operand edges

An edge is listed twice: among the operands of its user and among the uses of its
value.  The changes of this module keep the two lists in step, move the owning
handle of a constant along with the edge, and keep the flow graph in step when a
target of a placed terminator is moved.
-/

/-- Remove an element from an unordered list by putting the last one in its place. -/
def swapRemove {α : Type} [DecidableEq α] (items : List α) (item : α) : List α :=
  match items.idxOf? item with
  | some index =>
      match items.getLast? with
      | some last => (items.set index last).dropLast
      | none => items
  | none => items

namespace Program

/-- Refuse a value that cannot be an operand: a stale handle or a finalized
instruction. -/
def resolve (program : Program) (value : ValueId) (role : Role) : Except Halt Unit :=
  match program.payload? value with
  | none => refuse (.missing role)
  | some (.inst inst) => require (inst.status != .finalized) (.missing role)
  | some _ => return ()

/-- The type of a value that can be an operand. -/
def operandType (program : Program) (value : ValueId) (role : Role) :
    Except Halt TypeId := do
  program.resolve value role
  program.typeOf value

/-- The position of an edge among the operands of its user. -/
def operandIndex (program : Program) (user : ValueId) (edge : EdgeId) : Except Fault Nat := do
  match (← program.operands user).idxOf? edge with
  | some index => return index
  | none => throw .unlistedEdge

/-- Refuse a replacement that is missing, that puts something else in the place of
a block, or that has another type. -/
def checkReplacement (program : Program) (old new : ValueId) : Except Halt Unit := do
  program.resolve new .replacementValue
  let type ← program.typeOf new
  require (!program.isBlock old || program.isBlock new)
    (.typeMismatch type .blocksReplaceBlocks)
  require (← program.types.equal (← program.typeOf old) type)
    (.typeMismatch type .replacementAgrees)

end Program

namespace Step

/-- Own a value that is a constant once more. -/
def retainConstant (value : ValueId) : Step Unit := do
  if ((← (← get).constant? value)).isSome then
    retainHandle value

/-- Give up one owning handle on a value that is a constant. -/
def dropConstant (value : ValueId) : Step Unit := do
  if ((← (← get).constant? value)).isSome then
    dropHandle value

/-- Add an edge behind the operands of a user. -/
def addOperand (user : ValueId) (slot : Slot) (value : ValueId) : Step Unit := do
  let program ← get
  let (edge, edges) := program.edges.insert { user, value, slot }
  set { program with edges }
  modifyNode user fun node => { node with operands := node.operands ++ [edge] }
  modifyNode value fun node => { node with usedBy := node.usedBy ++ [edge] }
  retainConstant value

/-- Take an edge away from its value and out of the graph.  The operands of its
user are left to the caller. -/
def unlinkEdge (edge : EdgeId) : Step Unit := do
  let program ← get
  match program.edges.take? edge with
  | none => return ()
  | some (data, edges) =>
      set { program with edges }
      modifyNode data.value fun node => { node with usedBy := swapRemove node.usedBy edge }
      dropConstant data.value

/-- Move the place of an edge one down if it is a list member beyond a gap. -/
def closeGap (gap : Nat) (edge : EdgeId) : Step Unit := do
  match ← (← get).edgeSlot edge with
  | .indexed position =>
      if gap < position then
        modifyEdge edge fun data => { data with slot := .indexed (position - 1) }
  | _ => return ()

/-- Remove the operand at a position; list members beyond it move up. -/
def removeOperandAt (user : ValueId) (index : Nat) : Step Unit := do
  let program ← get
  let operands ← program.operands user
  match operands[index]? with
  | none => throw (.removalPastEnd index operands.length)
  | some edge =>
      let rest := operands.eraseIdx index
      modifyNode user fun node => { node with operands := rest }
      let slot ← program.edgeSlot edge
      unlinkEdge edge
      match slot with
      | .indexed gap => (rest.drop index).forM (closeGap gap)
      | _ => return ()

/-- Remove all operands of a user. -/
def clearOperands (user : ValueId) : Step Unit := do
  let operands ← (← get).operands user
  modifyNode user fun node => { node with operands := [] }
  operands.forM unlinkEdge

/-- Keep the flow graph in step when a target moves from one block to another. -/
def retarget (user : ValueId) (slot : Slot) (old new : ValueId) : Step Unit := do
  let program ← get
  if program.isInst user then
    if (← program.kind user).isTargetSlot slot then
      match ← program.parentBlock? user with
      | some source =>
          if program.isBlock new then
            if program.isBlock old then
              unlinkFlow source old
            linkFlow source new
      | none => return ()

/-- Make an edge read another value. -/
def rebind (edge : EdgeId) (new : ValueId) : Step Unit := do
  let data ← (← get).edge edge
  modifyNode data.value fun node => { node with usedBy := swapRemove node.usedBy edge }
  modifyNode new fun node => { node with usedBy := node.usedBy ++ [edge] }
  modifyEdge edge fun data => { data with value := new }
  retainConstant new
  retarget data.user data.slot data.value new
  dropConstant data.value

end Step

/-! ### Edits -/

/-- Make an edge read another value of an equal type.  Nothing in the place of a
value removes the edge, which only entries for blocks allow. -/
def setUse (edge : EdgeId) (value : Option ValueId) : Edit Unit :=
  .plan fun program => do
    match program.edges.get? edge, value with
    | none, _ => refuse (.missing .use)
    | some data, none =>
        match data.slot with
        | .keyed _ =>
            let index ← program.operandIndex data.user edge
            return Step.removeOperandAt data.user index
        | _ => refuse (.missing .operand)
    | some data, some new =>
        program.checkReplacement data.value new
        return if new = data.value then pure () else Step.rebind edge new

/-- Make every operand of a user that reads one value read another; how many. -/
def replaceOperands (user pattern replacement : ValueId) : Edit Nat :=
  .plan fun program => do
    program.resolve user .user
    let hits ← ((← program.operands user).filterM fun edge => do
      return (← program.edgeValue edge) == pattern : Except Fault (List EdgeId))
    if hits.isEmpty || pattern == replacement then
      return pure 0
    program.checkReplacement pattern replacement
    return do
      hits.forM (Step.rebind · replacement)
      return hits.length

/-- Make every edge that reads one value read another; how many. -/
def replaceUses (value replacement : ValueId) : Edit Nat :=
  .plan fun program => do
    program.resolve value .replacedValue
    if value = replacement then
      return pure 0
    program.checkReplacement value replacement
    let hits ← program.usedBy value
    return do
      hits.forM (Step.rebind · replacement)
      return hits.length

end ValueGraph
