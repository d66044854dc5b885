namespace ValueGraph

/-!
# Handles

A handle names one occupancy of one arena slot: the slot's position together
with the generation the slot had when it was filled.  A slot moves to its next
generation when it is vacated, so a handle names no later occupant until the
generations have come round.
-/

/-- A reference into an arena.  The parameter only keeps the handles of
different arenas apart. -/
structure Handle (space : Type) where
  index : Nat
  generation : UInt32

namespace Handle

variable {space : Type}

instance : DecidableEq (Handle space) := fun first second =>
  decidable_of_iff
    (first.index = second.index ∧ first.generation = second.generation)
    (by cases first; cases second; simp)

/-- Handles are ordered by slot, then by generation. -/
def le (first second : Handle space) : Bool :=
  first.index < second.index ||
    (first.index == second.index && first.generation ≤ second.generation)

/-- The two coordinates of a handle, as diagnostics show them. -/
def text (handle : Handle space) : String :=
  "RawId \x7b index: " ++ toString handle.index ++
    ", generation: " ++ toString handle.generation.toNat ++ " \x7d"

end Handle

/-- The space of value handles. -/
inductive ValueSpace : Type

/-- The space of operand-edge handles. -/
inductive EdgeSpace : Type

/-- A reference to a node of the value graph. -/
abbrev ValueId := Handle ValueSpace

/-- A reference to one operand edge. -/
abbrev EdgeId := Handle EdgeSpace

/-- A value handle that is expected to name a basic block. -/
abbrev BlockId := ValueId

/-- A value handle that is expected to name an instruction. -/
abbrev InstId := ValueId

/-- A value handle that is expected to name a function. -/
abbrev FuncId := ValueId

/-- A value handle that is expected to name a global variable. -/
abbrev GlobalId := ValueId

/-- A value handle that is expected to name a register. -/
abbrev RegId := ValueId

end ValueGraph
