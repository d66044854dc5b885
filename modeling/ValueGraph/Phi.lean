import ValueGraph.Chain

namespace ValueGraph

/-!
# Entries of phis

A phi has one entry for each block that control can come from: an edge whose
place is that block.  Entries are found by their block, so a block has at most
one.
-/

namespace Program

/-- Refuse an instruction that is not a phi. -/
def requirePhi (program : Program) (phi : InstId) : Except Halt Unit := do
  program.requireInst phi .phi
  let kind ← program.kind phi
  require (kind == .phi) (.wrongOpcode .phi kind.opcode)

/-- The first of some edges that is the entry for a block. -/
def entryAmong? (program : Program) (source : BlockId) :
    List EdgeId → Except Fault (Option EdgeId)
  | [] => return none
  | edge :: rest => do
      if (← program.edgeSlot edge) = .keyed source then
        return some edge
      else
        program.entryAmong? source rest

/-- The entry of a phi for a block. -/
def entryFor? (program : Program) (phi : InstId) (source : BlockId) :
    Except Fault (Option EdgeId) := do
  program.entryAmong? source (← program.operands phi)

/-- The entries of a phi, in the order in which they were added. -/
def incoming (program : Program) (phi : InstId) :
    Except Fault (List (BlockId × ValueId)) := do
  let edges ← (← program.operands phi).mapM program.edge
  return edges.filterMap fun edge =>
    match edge.slot with
    | .keyed source => some (source, edge.value)
    | _ => none

/-- The value of a phi for a block. -/
def incomingValue? (program : Program) (phi : InstId) (source : BlockId) :
    Except Fault (Option ValueId) := do
  match ← program.entryFor? phi source with
  | some edge => return some (← program.edgeValue edge)
  | none => return none

/-- Whether a phi has entries for exactly the blocks that lead to its own. -/
def isComplete (program : Program) (phi : InstId) : Except Fault Bool := do
  match ← program.parentBlock? phi with
  | none => return false
  | some block =>
      let keys := (← program.incoming phi).map (·.1)
      let sources := (← program.block block).comesFrom.keys
      return keys.all (sources.contains ·) && sources.all (keys.contains ·)

end Program

namespace Step

/-- Remove the entry of a phi for a block; whether there was one. -/
def dropEntry (phi : InstId) (source : BlockId) : Step Bool := do
  let program ← get
  match ← program.entryFor? phi source with
  | some edge =>
      removeOperandAt phi (← program.operandIndex phi edge)
      return true
  | none => return false

/-- Remove the entries for one block from the phis of another. -/
def dropEntriesFrom (block source : BlockId) : Step Unit := do
  (← (← get).phis block).forM fun phi => do
    let _ ← dropEntry phi source

end Step

/-- Set the value of a phi for a block. -/
def addIncoming (phi : InstId) (source : BlockId) (value : ValueId) : Edit Unit :=
  .plan fun program => do
    program.requirePhi phi
    program.requireBlock source .incomingBlock
    let type ← program.operandType value .incomingValue
    require (← program.types.equal type (← program.typeOf phi))
      (.typeMismatch type .incomingFitsPhi)
    match ← program.entryFor? phi source with
    | some edge =>
        let old ← program.edgeValue edge
        program.checkReplacement old value
        return if value = old then pure () else Step.rebind edge value
    | none => return Step.addOperand phi (.keyed source) value

/-- Remove the entry of a phi for a block; whether there was one. -/
def removeIncoming (phi : InstId) (source : BlockId) : Edit Bool :=
  .plan fun program => do
    program.requirePhi phi
    return Step.dropEntry phi source

end ValueGraph
