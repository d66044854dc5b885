import Mathlib
import ValueGraph.Proofs.Runs

namespace ValueGraph

/-!
# Refused operations

An operation that is refused leaves the whole program as it was.  Most operations look
before they change anything; those that make one edit after another are not refused once
the first is made.  There is one exception: a block that is added to a missing function
stays behind.
-/

namespace Program

variable {p q : Program} {b : BlockId}

/-- A block that stays behind can be read, has no instructions and no function, and the
client owns it. -/
theorem LeavesBlock.reads (leaves : p.LeavesBlock q b) :
    p.isLive b = false ∧ q.block b = .ok Block.detached ∧
      q.instructions b = .ok [] ∧ q.values.count? b = some 1 := by
  have added := leaves.added
  have h : q.block? b = some Block.detached := by
    rw [block?_eq_some_iff, show q.payload? = _ from added.exchanged, Function.update_self]
  have read := block_eq_ok.mpr h
  refine ⟨?_, read, ?_, ?_⟩
  · rw [isLive_iff, added.payload?_eq_none]
    rfl
  · rw [instructions, read]
    rfl
  · rw [count?_eq_one_iff, added.counts, Function.update_self]

end Program

end ValueGraph
