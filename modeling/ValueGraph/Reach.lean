import ValueGraph.Layout
import ValueGraph.Phi

namespace ValueGraph

/-!
# Traversals of the flow graph

Postorder visits the blocks that control can reach from the entry, each after
the blocks it leads to unless they lead back.  The reachable set is wider: it
also follows the entries of phis back to the blocks they come from.
-/

/-- What a depth-first visit has seen and what it has finished, in order. -/
structure Visit where
  seen : List BlockId
  order : List BlockId

/-- The blocks that a visit has begun and not finished, the last one first, each
with the blocks it leads to that are still to be tried. -/
abbrev Trail := List (BlockId × List BlockId)

namespace Program

/-- Go on with a visit for at most so many turns.  A turn finishes the last block
of the trail or tries one of the blocks it leads to. -/
def visitLoop (program : Program) : Nat → Trail → Visit → Except Fault Visit
  | _, [], visit => return visit
  | 0, _ :: _, _ => throw .endless
  | fuel + 1, (block, []) :: trail, visit =>
      program.visitLoop fuel trail { visit with order := visit.order ++ [block] }
  | fuel + 1, (block, next :: others) :: trail, visit => do
      if next ∈ visit.seen then
        program.visitLoop fuel ((block, others) :: trail) visit
      else
        let successors ← program.successors next
        program.visitLoop fuel ((next, successors) :: (block, others) :: trail)
          { visit with seen := next :: visit.seen }

/-- The blocks that control reaches from the entry of a function, in postorder. -/
def postorder (program : Program) (function : FuncId) : Except Fault (List BlockId) := do
  match ← program.entryBlock? function with
  | none => return []
  | some entry =>
      let successors ← program.successors entry
      let visit ← program.visitLoop (program.chainBound * program.chainBound)
        [(entry, successors)] { seen := [entry], order := [] }
      return visit.order

/-- The blocks that keep others reachable when a block is: those it leads to and
those that its phis have entries for. -/
def reachedFrom (program : Program) (block : BlockId) : Except Fault (List BlockId) := do
  let keys ← (← program.phis block).mapM fun phi => do
    return (← program.incoming phi).map (·.1)
  return ((← program.block block).jumpsTo.keys ++ keys.flatten).filter program.isLive

/-- Work off a list of reached blocks, at most so many; the blocks met so far are
given and extended. -/
def reachWithin
    (program : Program) :
    Nat → List BlockId → List BlockId → Except Fault (List BlockId)
  | _, [], met => return met
  | 0, _ :: _, _ => throw .endless
  | fuel + 1, block :: work, met => do
      let fresh := (← program.reachedFrom block).eraseDups.filter (!met.contains ·)
      program.reachWithin fuel (fresh ++ work) (fresh ++ met)

/-- The blocks reachable from the entry of a function. -/
def reachableSet (program : Program) (function : FuncId) : Except Fault (List BlockId) := do
  match ← program.entryBlock? function with
  | none => return []
  | some entry => program.reachWithin program.chainBound [entry] [entry]

/-- The reachable blocks of a function, in layout order. -/
def reachableBlocks (program : Program) (function : FuncId) :
    Except Fault (List BlockId) := do
  let reachable ← program.reachableSet function
  return (← program.blocks function).filter (reachable.contains ·)

end Program

end ValueGraph
