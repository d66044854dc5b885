import ValueGraph.Operands

namespace ValueGraph

/-!
# Chains of instructions

The instructions of a block form a doubly linked chain.  A chain that is not
empty ends in its only terminator: an empty block accepts nothing but a
terminator, a non-empty block accepts nothing but other instructions in front of
its terminator, and the terminator itself is only ever exchanged.
-/

namespace Program

/-- The chain that starts at an instruction, of at most so many members. -/
def chainWithin (program : Program) : Nat → Option InstId → Except Fault (List InstId)
  | _, none => return []
  | 0, some _ => throw .endless
  | fuel + 1, some inst => do
      let next := (← program.inst inst).next
      return inst :: (← program.chainWithin fuel next)

/-- The chain that starts at an instruction. -/
def chainFrom (program : Program) (start : Option InstId) : Except Fault (List InstId) :=
  program.chainWithin program.chainBound start

/-- The instructions of a block, front to back. -/
def instructions (program : Program) (block : BlockId) : Except Fault (List InstId) := do
  program.chainFrom (← program.block block).first

/-- The instructions of several blocks, block after block. -/
def instructionsOf (program : Program) (blocks : List BlockId) :
    Except Fault (List InstId) := do
  return (← blocks.mapM program.instructions).flatten

/-- The phis of a block, front to back. -/
def phis (program : Program) (block : BlockId) : Except Fault (List InstId) := do
  (← program.instructions block).filterM fun inst => do
    return (← program.kind inst) == .phi

/-- The type that a function returns. -/
def returnType (program : Program) (function : FuncId) : Except Fault TypeId := do
  match ← program.types.signature? (← program.function function).type with
  | some signature => return signature.result
  | none => return TypeId.void

/-- Refuse a handle that names no block. -/
def requireBlock (program : Program) (block : BlockId) (role : Role) : Except Halt Unit :=
  require (program.isBlock block) (.missing role)

/-- Refuse a handle that names no instruction. -/
def requireInst (program : Program) (inst : InstId) (role : Role) : Except Halt Unit :=
  require (program.isInst inst) (.missing role)

/-- Refuse an instruction in another status. -/
def requireStatus (program : Program) (inst : InstId) (expected : Status) :
    Except Halt Unit := do
  let found ← program.status inst
  require (found == expected) (.wrongStatus expected found)

/-- Refuse to place a `ret` that disagrees with the function's return type. -/
def checkReturn (program : Program) (function : FuncId) (inst : InstId) :
    Except Halt Unit := do
  match ← program.kind inst with
  | .ret =>
      let expected ← program.returnType function
      match ← program.operand? inst 0 with
      | some value =>
          let type ← program.typeOf value
          require (← program.types.equal type expected)
            (.typeMismatch type .returnedFitsFunction)
      | none =>
          require (← program.types.isVoid expected) (.typeMismatch expected .returnIsPresent)
  | _ => return ()

/-- Refuse to place a `ret` that disagrees with the function around a block. -/
def checkReturnIn (program : Program) (block : BlockId) (inst : InstId) :
    Except Halt Unit := do
  match (← program.block block).parent with
  | some function => program.checkReturn function inst
  | none => return ()

/-- Refuse an insertion of anything but a disconnected instruction into a block. -/
def checkCandidate (program : Program) (block : BlockId) (inst : InstId) :
    Except Halt Unit := do
  program.requireBlock block .block
  program.requireInst inst .instruction
  program.requireStatus inst .disconnected

/-- The block of an instruction that others are placed next to. -/
def anchorBlock (program : Program) (anchor : InstId) : Except Halt BlockId := do
  program.requireInst anchor .anchorInstruction
  program.requireStatus anchor .connected
  match ← program.parentBlock? anchor with
  | some block => return block
  | none => refuse (.missing .anchorBlock)

end Program

namespace Step

/-- Point the forward link in front of a place at an instruction. -/
def setForward (block : BlockId) (prev target : Option InstId) : Step Unit :=
  match prev with
  | some prev => modifyInst prev fun data => { data with next := target }
  | none => modifyBlock block fun data => { data with first := target }

/-- Point the backward link behind a place at an instruction. -/
def setBackward (block : BlockId) (next target : Option InstId) : Step Unit :=
  match next with
  | some next => modifyInst next fun data => { data with prev := target }
  | none => modifyBlock block fun data => { data with last := target }

/-- Put an instruction between two neighbours in a block. -/
def link (block : BlockId) (inst : InstId) (prev next : Option InstId) : Step Unit := do
  modifyInst inst fun data =>
    { data with prev, next, holder := some (.block block), status := .connected }
  setForward block prev (some inst)
  setBackward block next (some inst)
  modifyBlock block fun data => { data with length := data.length + 1 }

/-- Take an instruction out of the block that it stands in. -/
def unlink (inst : InstId) : Step Unit := do
  let data ← (← get).inst inst
  match data.holder with
  | some (.block block) =>
      modifyInst inst fun data =>
        { data with prev := none, next := none, holder := none, status := .disconnected }
      setForward block data.prev data.next
      setBackward block data.next data.prev
      modifyBlock block fun data => { data with length := data.length - 1 }
  | _ => return ()

/-- Put an instruction in a block and record the edges of the flow graph. -/
def place (block : BlockId) (inst : InstId) (prev next : Option InstId) : Step Unit := do
  link block inst prev next
  attachFlow block inst

/-- Add a block without instructions and outside any function. -/
def addBlock : Step BlockId :=
  addNode TypeId.label (.block Block.detached)

/-- Add a disconnected instruction with its operands. -/
def addInst (type : TypeId) (kind : InstKind) (operands : List (Slot × ValueId)) :
    Step InstId := do
  let inst ← addNode type (.inst (Inst.fresh kind))
  operands.forM fun (slot, value) => addOperand inst slot value
  return inst

end Step

/-! ### Insertion -/

/-- A place in a block. -/
inductive Position where
  /-- Right in front of the terminator. -/
  | back
  | front
  | before (anchor : InstId)
  | after (anchor : InstId)
deriving DecidableEq

namespace Program

/-- The neighbours that an instruction gets at a position in a block with a last
instruction. -/
def neighbours
    (program : Program)
    (block : BlockId)
    (last : InstId) :
    Position → Except Halt (Option InstId × Option InstId)
  | .back => do return ((← program.inst last).prev, some last)
  | .front => do return (none, (← program.block block).first)
  | .before anchor => do return ((← program.inst anchor).prev, some anchor)
  | .after anchor => do
      require (anchor != last) (.illegalTerminator .nothingAfterTerminator)
      return (some anchor, (← program.inst anchor).next)

/-- Find where an instruction goes in a block, or refuse it. -/
def planInsertion
    (program : Program)
    (block : BlockId)
    (inst : InstId)
    (position : Position) :
    Except Halt (Step Unit) := do
  program.checkCandidate block inst
  let isTerminator ← program.isTerminator inst
  match (← program.block block).last with
  | none =>
      require isTerminator (.illegalTerminator .emptyBlockNeedsTerminator)
      program.checkReturnIn block inst
      return Step.place block inst none none
  | some last =>
      require (!isTerminator) (.illegalTerminator .blockHasTerminator)
      let (prev, next) ← program.neighbours block last position
      return Step.place block inst prev next

end Program

/-- Put an instruction at the end of a block, in front of its terminator. -/
def pushBack (block : BlockId) (inst : InstId) : Edit Unit :=
  .plan fun program => program.planInsertion block inst .back

/-- Put an instruction at the start of a block. -/
def pushFront (block : BlockId) (inst : InstId) : Edit Unit :=
  .plan fun program => program.planInsertion block inst .front

/-- Put an instruction right in front of another. -/
def insertBefore (anchor inst : InstId) : Edit Unit :=
  .plan fun program => do
    program.planInsertion (← program.anchorBlock anchor) inst (.before anchor)

/-- Put an instruction right behind another, which must not be the terminator. -/
def insertAfter (anchor inst : InstId) : Edit Unit :=
  .plan fun program => do
    program.planInsertion (← program.anchorBlock anchor) inst (.after anchor)

/-! ### Removal and exchange of the terminator -/

/-- Take an instruction out of its block.  Its owning handle goes to the caller. -/
def remove (inst : InstId) : Edit Unit :=
  .plan fun program => do
    program.requireInst inst .instruction
    program.requireStatus inst .connected
    require (!(← program.isTerminator inst)) (.illegalTerminator .terminatorStays)
    return Step.unlink inst

namespace Step

/-- Take the terminator of a block out and put another in its place. -/
def exchangeTerminator (block : BlockId) (new : InstId) : Step (Option InstId) := do
  let old ← (← get).terminator? block
  match old with
  | some old =>
      detachFlow block old
      unlink old
  | none => pure ()
  place block new (← (← get).block block).last none
  return old

end Step

/-- Give a block another terminator.  The one it had goes to the caller. -/
def setTerminator (block : BlockId) (new : InstId) : Edit (Option InstId) :=
  .plan fun program => do
    program.checkCandidate block new
    let kind ← program.kind new
    require kind.isTerminator (.wrongOpcode .terminator kind.opcode)
    program.checkReturnIn block new
    return Step.exchangeTerminator block new

/-! ### Blocks -/

/-- Add an empty block outside any function.  The caller owns it. -/
def createBlock : Edit BlockId :=
  .perform Step.addBlock

namespace Step

/-- Put a block right behind another in the layout of a function. -/
def placeBlockAfter (function : FuncId) (anchor block : BlockId) : Step Unit := do
  modifyBlock block fun data => { data with parent := some function }
  modifyFunction function fun data =>
    let body := data.blocks
    let position := (body.idxOf? anchor).elim body.length (· + 1)
    { data with body := some (body.insertIdx position block) }

end Step

end ValueGraph
