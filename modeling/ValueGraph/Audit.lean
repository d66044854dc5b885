import ValueGraph.Layout
import ValueGraph.Registers

namespace ValueGraph

/-!
# Audit

The audit derives anew what the edits maintain and reports every place where the
stored graph disagrees: edges that are not listed at both ends, flow-graph bags
that differ from the terminators, terminators in the wrong place, and parents,
links and statuses that differ from where a node is held.  It works on any graph,
also on one that no edit could have made.
-/

/-- A place where the stored graph disagrees with itself. -/
inductive Violation where
  /-- An operand edge is not listed by its value, or names another user or a value
  that is gone. -/
  | unlistedOperand (user : ValueId) (edge : EdgeId)
  /-- A use is gone, reads another value, or is not listed by its user. -/
  | danglingUse (value : ValueId) (edge : EdgeId)
  /-- A bag of the flow graph differs from the targets of the terminator. -/
  | flowMismatch (source target : BlockId) (kept actual : Nat)
  | missingTerminator (block : BlockId)
  | misplacedTerminator (block : BlockId) (inst : InstId)
  /-- A parent or a link differs from the container that holds the node. -/
  | parentMismatch (value : ValueId)
  | statusMismatch (inst : InstId) (expected found : Status)
deriving DecidableEq

namespace Violation

def valueText (value : ValueId) : String :=
  "ValueId(" ++ value.text ++ ")"

def edgeText (edge : EdgeId) : String :=
  "UseId(" ++ edge.text ++ ")"

def blockText (block : BlockId) : String :=
  "BlockId(" ++ valueText block ++ ")"

def instText (inst : InstId) : String :=
  "InstId(" ++ valueText inst ++ ")"

/-- The wording of a finding. -/
def message : Violation → String
  | .unlistedOperand user edge =>
      "operand " ++ edgeText edge ++ " of " ++ valueText user ++ " is not mirrored"
  | .danglingUse value edge => valueText value ++ " lists dangling use " ++ edgeText edge
  | .flowMismatch source target kept actual =>
      "edge " ++ blockText source ++ " -> " ++ blockText target ++ " cached as " ++
        toString kept ++ ", terminator has " ++ toString actual
  | .missingTerminator block => blockText block ++ " does not end in a terminator"
  | .misplacedTerminator block inst =>
      "terminator " ++ instText inst ++ " is not last in " ++ blockText block
  | .parentMismatch value => valueText value ++ " has a broken parent link"
  | .statusMismatch inst expected found =>
      instText inst ++ " is " ++ found.text ++ ", expected " ++ expected.text

end Violation

namespace Program

/-- Report one finding if it holds. -/
def report (condition : Bool) (violation : Violation) : List Violation :=
  if condition then [violation] else []

/-- Whether an operand edge of a user is listed by the value it reads. -/
def isListedByValue (program : Program) (user : ValueId) (edge : EdgeId) : Bool :=
  match program.edges.get? edge with
  | some data =>
      data.user == user &&
        (program.values.get? data.value).any (·.usedBy.contains edge)
  | none => false

/-- Whether a use of a value is listed by its user. -/
def isListedByUser (program : Program) (value : ValueId) (edge : EdgeId) : Bool :=
  match program.edges.get? edge with
  | some data =>
      data.value == value &&
        (program.values.get? data.user).any (·.operands.contains edge)
  | none => false

/-- Findings on the operands of a node. -/
def auditOperands (program : Program) (user : ValueId) : Except Fault (List Violation) := do
  return (← program.operands user).flatMap fun edge =>
    report (!program.isListedByValue user edge) (.unlistedOperand user edge)

/-- Findings on the uses of a node. -/
def auditUses (program : Program) (value : ValueId) : Except Fault (List Violation) := do
  return (← program.usedBy value).flatMap fun edge =>
    report (!program.isListedByUser value edge) (.danglingUse value edge)

/-- The first of some values that is an instruction nested under a given one. -/
def firstNested? (program : Program) (outer : InstId) :
    List ValueId → Except Fault (Option InstId)
  | [] => return none
  | value :: rest => do
      if program.isInst value then
        if (← program.inst value).holder = some (.inst outer) then
          return some value
      program.firstNested? outer rest

/-- Findings on the edges of an instruction and of what is nested under it, to at
most so many levels. -/
def auditInstWithin (program : Program) : Nat → InstId → Except Fault (List Violation)
  | 0, _ => throw .endless
  | fuel + 1, inst => do
      let edges := (← program.auditOperands inst) ++ (← program.auditUses inst)
      match ← program.firstNested? inst (← program.operandValues inst) with
      | none => return edges
      | some inner =>
          let status ← program.status inner
          let wrongStatus := report (status != .reparent) (.statusMismatch inner .reparent status)
          return edges ++ wrongStatus ++ (← program.auditInstWithin fuel inner)

/-- Findings on one member of a chain, given the member in front of it. -/
def auditMember
    (program : Program)
    (block : BlockId)
    (prev : Option InstId)
    (inst : InstId) :
    Except Fault (List Violation) := do
  let data ← program.inst inst
  let misheld := report (data.holder != some (.block block) || data.prev != prev)
    (.parentMismatch inst)
  let wrongStatus := report (data.status != .connected)
    (.statusMismatch inst .connected data.status)
  let misplaced := report (data.kind.isTerminator && data.next.isSome)
    (.misplacedTerminator block inst)
  return misheld ++ wrongStatus ++ misplaced ++
    (← program.auditInstWithin program.chainBound inst)

/-- Findings on the members of a chain, given the member in front of them. -/
def auditMembers
    (program : Program)
    (block : BlockId) :
    Option InstId → List InstId → Except Fault (List Violation)
  | _, [] => return []
  | prev, inst :: rest => do
      return (← program.auditMember block prev inst) ++
        (← program.auditMembers block (some inst) rest)

/-- Findings on the chain of a block. -/
def auditChain (program : Program) (block : BlockId) : Except Fault (List Violation) := do
  let data ← program.block block
  let insts ← program.instructions block
  let members ← program.auditMembers block none insts
  let misheld := report (data.last != insts.getLast? || data.length != insts.length)
    (.parentMismatch block)
  let unended ← match insts.getLast? with
    | some last => do pure (report (!(← program.isTerminator last)) (.missingTerminator block))
    | none => pure []
  return members ++ misheld ++ unended

/-- Findings on the edge counts of a block towards one target. -/
def auditFlowTo
    (program : Program)
    (source : BlockId)
    (kept : CountMap)
    (actual : List BlockId)
    (target : BlockId) :
    Except Fault (List Violation) := do
  let held := kept.count target
  let want := actual.count target
  let answered ←
    if program.isLive target then do
      pure ((← program.block target).comesFrom.count source == held)
    else
      pure false
  return report (want != held || !answered) (.flowMismatch source target held want)

/-- Findings on the edge counts of a block. -/
def auditFlow (program : Program) (block : BlockId) : Except Fault (List Violation) := do
  let actual ← match ← program.terminator? block with
    | some terminator => program.targets terminator
    | none => pure []
  let kept := (← program.block block).jumpsTo
  let findings ← (distinct (actual ++ kept.keys)).mapM (program.auditFlowTo block kept actual)
  return findings.flatten

/-- Findings on a block of a function. -/
def auditBlock (program : Program) (function : FuncId) (block : BlockId) :
    Except Fault (List Violation) := do
  let misheld := report ((← program.block block).parent != some function)
    (.parentMismatch block)
  return misheld ++ (← program.auditUses block) ++ (← program.auditChain block) ++
    (← program.auditFlow block)

/-- Findings on a function: its uses, arguments, registers and blocks. -/
def auditFunction (program : Program) (function : FuncId) :
    Except Fault (List Violation) := do
  let own ← program.auditUses function
  let params ← (← program.params function).mapM program.auditUses
  let registers ← (← program.registers function).mapM program.auditUses
  let blocks ← (← program.blocks function).mapM (program.auditBlock function)
  return own ++ params.flatten ++ registers.flatten ++ blocks.flatten

/-- Findings on a global. -/
def auditGlobal (program : Program) (global : GlobalId) : Except Fault (List Violation) := do
  return (← program.auditOperands global) ++ (← program.auditUses global)

/-- Findings on all globals and functions of a program. -/
def audit (program : Program) : Except Fault (List Violation) := do
  let globals ← program.globals.mapM program.auditGlobal
  let functions ← program.functions.mapM program.auditFunction
  return globals.flatten ++ functions.flatten

end Program

end ValueGraph
