import ValueGraph.Chain
import ValueGraph.Types.Measure
import ValueGraph.Word

namespace ValueGraph

/-!
# Targets of terminators

Targets can be moved one by one or all at once.  Only a switch can gain or lose
targets: its cases.  Case values and case targets are two lists in the same
order; the targets start behind the condition and the default.
-/

namespace Program

/-- The number of operands of a switch in front of its case targets. -/
def firstCase : Nat := 2

/-- Refuse an instruction that is not a terminator. -/
def requireTerminator (program : Program) (inst : InstId) : Except Halt Unit := do
  program.requireInst inst .terminator
  let kind ← program.kind inst
  require kind.isTerminator (.wrongOpcode .terminator kind.opcode)

/-- The case values of a switch. -/
def switchValues? (program : Program) (inst : InstId) :
    Except Fault (Option (List Int64)) := do
  match ← program.kind inst with
  | .switch cases => return some cases
  | _ => return none

/-- The operand at a position, if it is a block. -/
def blockOperand? (program : Program) (inst : InstId) (index : Nat) :
    Except Fault (Option BlockId) := do
  match ← program.operand? inst index with
  | some value => return if program.isBlock value then some value else none
  | none => return none

/-- The target of a case. -/
def caseTarget? (program : Program) (switch : InstId) (position : Nat) :
    Except Fault (Option BlockId) :=
  program.blockOperand? switch (firstCase + position)

/-- Case values with their targets, from a position on. -/
def casesFrom (program : Program) (switch : InstId) :
    Nat → List Int64 → Except Fault (List (Int64 × BlockId))
  | _, [] => return []
  | position, value :: rest => do
      let target ← program.caseTarget? switch position
      let cases ← program.casesFrom switch (position + 1) rest
      match target with
      | some target => return (value, target) :: cases
      | none => return cases

/-- The cases of a switch, in order. -/
def switchCases (program : Program) (switch : InstId) :
    Except Fault (List (Int64 × BlockId)) := do
  match ← program.switchValues? switch with
  | some values => program.casesFrom switch 0 values
  | none => return []

/-- The target of a switch when no case applies. -/
def switchDefault? (program : Program) (switch : InstId) :
    Except Fault (Option BlockId) := do
  match ← program.switchValues? switch with
  | some _ => program.blockOperand? switch 1
  | none => return none

/-- The target edges of an instruction that lead to a block. -/
def targetEdgesTo (program : Program) (inst : InstId) (target : BlockId) :
    Except Fault (List EdgeId) := do
  (← program.targetEdges inst).filterM fun edge => do
    return (← program.edgeValue edge) == target

end Program

namespace Step

/-- Remove a case of a switch. -/
def removeCaseAt (switch : InstId) (position : Nat) : Step Unit := do
  let program ← get
  match ← program.parentBlock? switch, ← program.caseTarget? switch position with
  | some block, some target => unlinkFlow block target
  | _, _ => pure ()
  match ← program.switchValues? switch with
  | some values =>
      if position < values.length then
        modifyInst switch fun data => { data with kind := .switch (values.eraseIdx position) }
      else
        throw (.removalPastEnd position values.length)
  | none => pure ()
  removeOperandAt switch (Program.firstCase + position)

/-- Remove the cases of a switch that lead to a block, looking at no more than so
many cases from a position on; how many were removed. -/
def removeCasesTo (switch : InstId) (target : BlockId) : Nat → Nat → Step Nat
  | 0, _ => return 0
  | fuel + 1, position => do
      match ← (← get).caseTarget? switch position with
      | none => return 0
      | some found =>
          if found = target then
            removeCaseAt switch position
            return (← removeCasesTo switch target fuel position) + 1
          else
            removeCasesTo switch target fuel (position + 1)

end Step

/-- Remove the cases of a switch that lead to a block; how many.  The targets of
branches and the default of a switch stay. -/
def removeTarget (inst : InstId) (target : BlockId) : Edit Nat :=
  .plan fun program => do
    program.requireTerminator inst
    match ← program.kind inst with
    | .br | .condBr =>
        require (!(← program.targets inst).contains target)
          (.illegalTerminator .branchTargetsStay)
        return pure 0
    | .switch _ =>
        require ((← program.switchDefault? inst) != some target)
          (.illegalTerminator .defaultTargetStays)
        let operands ← program.operands inst
        return Step.removeCasesTo inst target operands.length 0
    | _ => return pure 0

/-- The target edges of a terminator that lead to one block and can be moved to
another. -/
def hitsOf (inst : InstId) (old new : BlockId) : Edit (List EdgeId) :=
  .look fun program => do
    program.requireTerminator inst
    program.requireBlock new .branchTarget
    program.targetEdgesTo inst old

/-- Move every target edge that leads to one block to another; how many.  Each of
them is checked when its turn comes. -/
def replaceTarget (inst : InstId) (old new : BlockId) : Edit Nat :=
  (hitsOf inst old new).andThen fun hits =>
    (Edit.forEach (setUse · (some new)) hits).map fun _ => hits.length

/-- Move the first target edge that leads to one block to another; whether there
was one. -/
def replaceTargetOnce (inst : InstId) (old new : BlockId) : Edit Bool :=
  (hitsOf inst old new).andThen fun hits =>
    (Edit.forEach (setUse · (some new)) (hits.take 1)).map fun _ => !hits.isEmpty

/-- Remove all cases of a switch; how many. -/
def clearTargets (inst : InstId) : Edit Nat :=
  .plan fun program => do
    program.requireTerminator inst
    match ← program.kind inst with
    | .br | .condBr => refuse (.illegalTerminator .branchTargetsStay)
    | .switch _ =>
        let count := (← program.switchCases inst).length
        return do
          (List.range count).reverse.forM (Step.removeCaseAt inst)
          return count
    | _ => return pure 0

namespace Step

/-- Add a case behind the cases of a switch. -/
def addCaseTo (switch : InstId) (values : List Int64) (value : Int64) (target : BlockId) :
    Step Unit := do
  modifyInst switch fun data => { data with kind := .switch (values ++ [value]) }
  addOperand switch (.indexed values.length) target
  match ← (← get).parentBlock? switch with
  | some block => linkFlow block target
  | none => return ()

end Step

/-- Add a case to a switch.  Its value must be new and fit the condition. -/
def addCase (switch : InstId) (value : Int64) (target : BlockId) : Edit Unit :=
  .plan fun program => do
    program.requireInst switch .switch
    match ← program.kind switch with
    | .switch values =>
        program.requireBlock target .branchTarget
        require (!values.contains value) (.illegalTerminator .caseValuesDiffer)
        match ← program.operand? switch 0 with
        | some condition =>
            let type ← program.typeOf condition
            let width := (← program.types.intBits? type).getD 64
            require (fitsWidth value width (← program.types.isSigned type))
              (.typeMismatch type .caseFitsCondition)
        | none => pure ()
        return Step.addCaseTo switch values value target
    | kind => refuse (.wrongOpcode .switch kind.opcode)

end ValueGraph
