import ValueGraph.Handle

namespace ValueGraph

/-!
# Generational arenas with owning counts

An arena stores items in slots and hands out handles to them.  Every item has
an owning count; it leaves the arena when the count drops to nothing or when it
is taken out outright.  A vacated slot moves to its next generation and goes on
top of the stack of free slots, from which the next item is placed.

The view of an arena is `lookup?`: which handle names which item, with which
count.  The lemmas of `ValueGraph.Arena.Lemmas` say what each operation does to
that view.
-/

/-- An item in a slot with the number of owning handles on it. -/
structure Arena.Entry (α : Type) where
  item : α
  count : Nat
deriving DecidableEq

/-- A slot: its current generation and what it holds. -/
structure Arena.Slot (α : Type) where
  generation : UInt32
  entry : Option (Arena.Entry α)
deriving DecidableEq

/-- Storage for items named by handles of one space. -/
structure Arena (space α : Type) where
  slots : Array (Arena.Slot α)
  /-- Vacant slots, the most recently vacated first. -/
  free : List Nat
  /-- Number of items held. -/
  size : Nat

namespace Arena

variable {space α : Type}

instance [DecidableEq α] : DecidableEq (Arena space α) := fun first second =>
  decidable_of_iff
    (first.slots = second.slots ∧ first.free = second.free ∧ first.size = second.size)
    (by cases first; cases second; simp)

/-- An arena without slots. -/
def empty : Arena space α :=
  { slots := #[], free := [], size := 0 }

instance : Inhabited (Arena space α) := ⟨empty⟩

/-- The entry that a handle names, if it names one. -/
def lookup? (arena : Arena space α) (handle : Handle space) : Option (Entry α) :=
  match arena.slots[handle.index]? with
  | some slot => if slot.generation = handle.generation then slot.entry else none
  | none => none

/-- The item that a handle names, if it names one. -/
def get? (arena : Arena space α) (handle : Handle space) : Option α :=
  (arena.lookup? handle).map (·.item)

/-- The number of owning handles on the item that a handle names. -/
def count? (arena : Arena space α) (handle : Handle space) : Option Nat :=
  (arena.lookup? handle).map (·.count)

/-- Whether a handle names an item. -/
def contains (arena : Arena space α) (handle : Handle space) : Bool :=
  (arena.lookup? handle).isSome

/-- Place an item with one owning handle: in the most recently vacated slot, or
in a new slot when none is vacant. -/
def insert (arena : Arena space α) (item : α) : Handle space × Arena space α :=
  let entry : Entry α := { item, count := 1 }
  match arena.free with
  | index :: rest =>
      let generation := (arena.slots[index]?.map (·.generation)).getD 0
      ({ index, generation },
        { slots := arena.slots.setIfInBounds index { generation, entry := some entry }
          free := rest
          size := arena.size + 1 })
  | [] =>
      ({ index := arena.slots.size, generation := 0 },
        { slots := arena.slots.push { generation := 0, entry := some entry }
          free := []
          size := arena.size + 1 })

/-- Overwrite the entry that a handle names; nothing happens to a stale handle. -/
def setEntry
    (arena : Arena space α)
    (handle : Handle space)
    (entry : Entry α) :
    Arena space α :=
  match arena.lookup? handle with
  | some _ =>
      { arena with
        slots := arena.slots.setIfInBounds handle.index
          { generation := handle.generation, entry := some entry } }
  | none => arena

/-- Change the item that a handle names; nothing happens to a stale handle. -/
def modify
    (arena : Arena space α)
    (handle : Handle space)
    (change : α → α) :
    Arena space α :=
  match arena.lookup? handle with
  | some entry => arena.setEntry handle { entry with item := change entry.item }
  | none => arena

/-- Vacate the slot that a handle names, whatever the owning count. -/
def take?
    (arena : Arena space α)
    (handle : Handle space) :
    Option (α × Arena space α) :=
  match arena.lookup? handle with
  | some entry =>
      some (entry.item,
        { slots := arena.slots.setIfInBounds handle.index
            { generation := handle.generation + 1, entry := none }
          free := handle.index :: arena.free
          size := arena.size - 1 })
  | none => none

/-- Add an owning handle; the new count, or nothing if the handle is stale. -/
def retain?
    (arena : Arena space α)
    (handle : Handle space) :
    Option (Nat × Arena space α) :=
  match arena.lookup? handle with
  | some entry =>
      some (entry.count + 1,
        arena.setEntry handle { entry with count := entry.count + 1 })
  | none => none

/-- What became of an item when an owning handle was given up. -/
inductive Released (α : Type) where
  /-- Other owners remain, this many. -/
  | alive (count : Nat)
  /-- That was the last owner; the item has left the arena. -/
  | freed (item : α)
deriving DecidableEq

/-- Give up an owning handle; the last one vacates the slot. -/
def release?
    (arena : Arena space α)
    (handle : Handle space) :
    Option (Released α × Arena space α) :=
  match arena.lookup? handle with
  | some entry =>
      if entry.count ≤ 1 then
        (arena.take? handle).map fun (item, rest) => (.freed item, rest)
      else
        some (.alive (entry.count - 1),
          arena.setEntry handle { entry with count := entry.count - 1 })
  | none => none

/-- The items held, with their handles, in slot order. -/
def toList (arena : Arena space α) : List (Handle space × α) :=
  arena.slots.toList.zipIdx.filterMap fun (slot, index) =>
    slot.entry.map fun entry =>
      ({ index, generation := slot.generation }, entry.item)

end Arena

end ValueGraph
