import Mathlib
import ValueGraph.Proofs.Readers
import ValueGraph.Proofs.Progress
import ValueGraph.Proofs.ReturnAgreement

open Function

namespace ValueGraph

open Program List Option Payload

/-!
# Blocks as lists

The chain of a block is one way to store the list of its instructions.  Each edit of a chain
is an edit of that list at one gap; the gap and the instruction decide alone whether it is
made, and taking the instruction out again leaves the program as it was.
-/

variable {p q s : Program} {b : BlockId} {i : InstId} {front rest : List InstId} {a : Unit}
  {prev next tgt : Option InstId} {pos : Position}

/-! ### Programs that differ in their chains -/

namespace Arena

variable {space α β : Type} {first second : Arena space α} {hd : Handle space}

attribute [ext] Entry Slot

/-- The arena with each of its items changed. -/
def map (arena : Arena space α) (change : α → β) : Arena space β :=
  { slots := arena.slots.map fun slot =>
      { generation := slot.generation
        entry := slot.entry.map fun entry => { item := change entry.item, count := entry.count } }
    free := arena.free
    size := arena.size }

end Arena

/-- What a node is, but for its place in a chain or the chain that it holds. -/
def Payload.bare : Payload → Payload
  | .inst data => .inst (Inst.fresh data.kind)
  | .block data => .block { data with first := none, last := none, length := 0 }
  | payload => payload

def Node.bare (node : Node) : Node :=
  { node with payload := node.payload.bare }

namespace Program

end Program

namespace Step

end Step

/-! ### Putting in and taking out -/

namespace Step

variable {m : Program} {chain : BlockId → List InstId} {l : Link}

end Step

/-! ### Gaps -/

namespace Program

/-- A disconnected instruction may fill a gap in a block: a terminator the one of an empty
block, where it returns what the function around it does, and any other instruction a gap
with something behind it. -/
def Admits (program : Program) (block : BlockId) (inst : InstId) (front rest : List InstId) :
    Prop :=
  program.status inst = .ok .disconnected ∧
    ((program.isTerminator inst = .ok true ∧ front ++ rest = [] ∧
        ∀ function data, program.seat? block = some (some function) →
          program.function? function = some data → program.Returns data.type inst) ∨
      (program.isTerminator inst = .ok false ∧ rest ≠ []))

variable {f : FuncId} {d : Function} {anchor last : InstId}

end Program

/-! ### Edits of the lists -/

namespace Program

variable {insts : List InstId}

end Program

end ValueGraph
