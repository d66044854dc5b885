import ValueGraph.Arena

namespace ValueGraph.Arena

/-!
# The view of an arena

Each operation on an arena is described by what it does to `lookup?`: at the
handle it is applied to, and at every other handle.  Placing an item relies on
the free slots being vacant, which `WellFormed` states and which every operation
keeps.
-/

variable {space α : Type} {arena q : Arena space α} {handle other : Handle space} {item : α}
variable {index : Nat}

@[simp]
theorem lookup?_empty (handle : Handle space) : (empty : Arena space α).lookup? handle = none := by
  simp [lookup?, empty]

/-- A handle names an entry when its slot has its generation and is filled. -/
theorem lookup?_eq_some_iff {entry : Entry α} :
    arena.lookup? handle = some entry ↔
      arena.slots[handle.index]? =
        some { generation := handle.generation, entry := some entry } := by
  unfold lookup?
  constructor
  · intro named
    split at named
    next slot found =>
      split at named
      next sameGeneration =>
        rw [found, ← sameGeneration, ← named]
      next => simp at named
    next => simp at named
  · intro found
    simp [found]

/-- What a handle names after its own or another slot was overwritten. -/
theorem lookup?_setSlot (arena : Arena space α) (index : Nat) (slot : Slot α) (free : List Nat)
    (size : Nat) (handle : Handle space) :
    lookup?
        { slots := arena.slots.setIfInBounds index slot, free := free, size := size }
        handle =
      if index = handle.index ∧ index < arena.slots.size then
        if slot.generation = handle.generation then slot.entry else none
      else
        arena.lookup? handle := by
  unfold lookup?
  rw [Array.getElem?_setIfInBounds]
  by_cases sameIndex : index = handle.index
  · subst sameIndex
    by_cases inBounds : handle.index < arena.slots.size
    · simp [inBounds]
    · simp [inBounds]
  · simp [sameIndex]

/-- A handle that names an entry lies within the slots. -/
theorem index_lt_of_lookup? {entry : Entry α}
    (named : arena.lookup? handle = some entry) : handle.index < arena.slots.size := by
  have found := lookup?_eq_some_iff.mp named
  exact (Array.getElem?_eq_some_iff.mp found).1

/-- Different handles of one slot have different generations. -/
theorem generation_ne (sameIndex : other.index = handle.index) (different : other ≠ handle) :
    handle.generation ≠ other.generation := by
  intro sameGeneration
  apply different
  cases other
  cases handle
  simp_all

/-- No two generations of one slot are filled at once. -/
theorem lookup?_eq_none_of_sameIndex {entry : Entry α} (named : arena.lookup? handle = some entry)
    (sameIndex : other.index = handle.index) (different : other ≠ handle) :
    arena.lookup? other = none := by
  have found := lookup?_eq_some_iff.mp named
  unfold lookup?
  simp [sameIndex, found, generation_ne sameIndex different]

/-! ### Overwriting an entry -/

theorem lookup?_setEntry {old : Entry α} (named : arena.lookup? handle = some old) (new : Entry α)
    (other : Handle space) : (arena.setEntry handle new).lookup? other =
      if other = handle then some new else arena.lookup? other := by
  simp only [setEntry, named, lookup?_setSlot]
  by_cases same : other = handle
  · simp [same, index_lt_of_lookup? named]
  · by_cases sameIndex : other.index = handle.index
    · have absent := lookup?_eq_none_of_sameIndex named sameIndex same
      simp [same, generation_ne sameIndex same, absent]
    · simp [same, Ne.symm sameIndex]

theorem lookup?_modify (arena : Arena space α) (handle other : Handle space) (change : α → α) :
    (arena.modify handle change).lookup? other = (arena.lookup? other).map fun entry =>
      if other = handle then { entry with item := change entry.item } else entry := by
  unfold modify
  by_cases same : other = handle
  · cases named : arena.lookup? handle <;> simp [same, named, lookup?_setEntry]
  · cases named : arena.lookup? handle <;> simp [same, lookup?_setEntry, named]

/-! ### Vacating a slot -/

/-- A handle can be taken out exactly when it names an entry. -/
theorem take?_eq_none_iff : arena.take? handle = none ↔ arena.lookup? handle = none := by
  unfold take?
  cases arena.lookup? handle <;> simp

/-- What is taken out leaves a vacant slot of the next generation. -/
theorem take?_eq_some (taken : arena.take? handle = some (item, q)) :
    ∃ count, arena.lookup? handle = some { item, count } ∧
      q = { slots := arena.slots.setIfInBounds handle.index
              { generation := handle.generation + 1, entry := none }
            free := handle.index :: arena.free
            size := arena.size - 1 } := by
  unfold take? at taken
  cases named : arena.lookup? handle with
  | none => simp [named] at taken
  | some entry =>
    simp only [named, Option.some.injEq, Prod.mk.injEq] at taken
    exact ⟨entry.count, by rw [← taken.1], taken.2.symm⟩

theorem take?_item (taken : arena.take? handle = some (item, q)) :
    arena.get? handle = some item := by
  obtain ⟨count, named, -⟩ := take?_eq_some taken
  simp [get?, named]

theorem lookup?_take? (taken : arena.take? handle = some (item, q)) (other : Handle space) :
    q.lookup? other = if other = handle then none else arena.lookup? other := by
  obtain ⟨count, named, rfl⟩ := take?_eq_some taken
  rw [lookup?_setSlot]
  by_cases same : other = handle
  · simp [same, index_lt_of_lookup? named]
  · by_cases sameIndex : other.index = handle.index
    · simp [same, lookup?_eq_none_of_sameIndex named sameIndex same]
    · simp [same, Ne.symm sameIndex]

/-! ### Well-formed arenas -/

/-- The free list names each vacant slot once, and the size counts the others. -/
structure WellFormed (arena : Arena space α) : Prop where
  mem_free_iff : ∀ index, index ∈ arena.free ↔
    ∃ slot, arena.slots[index]? = some slot ∧ slot.entry = none
  free_nodup : arena.free.Nodup
  size_eq : arena.size = arena.slots.countP (·.entry.isSome)

theorem wellFormed_empty : (empty : Arena space α).WellFormed where
  mem_free_iff := by simp [empty]
  free_nodup := by simp [empty]
  size_eq := by simp [empty]

/-- The number of filled slots after one slot was overwritten. -/
theorem countP_setSlot {slots : Array (Slot α)} {old : Slot α} (found : slots[index]? = some old)
    (new : Slot α) :
    (slots.setIfInBounds index new).countP (·.entry.isSome) =
      slots.countP (·.entry.isSome) - (if old.entry.isSome then 1 else 0) +
        (if new.entry.isSome then 1 else 0) := by
  obtain ⟨inBounds, sameSlot⟩ := Array.getElem?_eq_some_iff.mp found
  simp only [Array.setIfInBounds, inBounds, ↓reduceDIte]
  rw [Array.countP_set, sameSlot]

/-- A filled slot is counted. -/
theorem countP_pos_of_filled {slots : Array (Slot α)} {slot : Slot α}
    (found : slots[index]? = some slot) (filled : slot.entry.isSome = true) :
    0 < slots.countP (·.entry.isSome) := by
  rw [Array.countP_pos_iff]
  obtain ⟨inBounds, sameSlot⟩ := Array.getElem?_eq_some_iff.mp found
  exact ⟨slot, sameSlot ▸ Array.getElem_mem inBounds, filled⟩

theorem WellFormed.setEntry (wellFormed : arena.WellFormed) (handle : Handle space)
    (new : Entry α) : (arena.setEntry handle new).WellFormed := by
  cases named : arena.lookup? handle with
  | none => simpa [Arena.setEntry, named] using wellFormed
  | some old =>
    have found := lookup?_eq_some_iff.mp named
    have inBounds := index_lt_of_lookup? named
    have counted := countP_pos_of_filled found rfl
    simp only [Arena.setEntry, named]
    refine ⟨?_, wellFormed.free_nodup, ?_⟩
    · intro index
      rw [wellFormed.mem_free_iff index, Array.getElem?_setIfInBounds]
      by_cases sameIndex : handle.index = index
      · subst sameIndex
        rw [found]
        simp [inBounds]
      · simp [sameIndex]
    · rw [countP_setSlot found]
      have size := wellFormed.size_eq
      simp only [Option.isSome_some, ↓reduceIte]
      omega

theorem WellFormed.modify (wellFormed : arena.WellFormed) (handle : Handle space)
    (change : α → α) : (arena.modify handle change).WellFormed := by
  cases named : arena.lookup? handle with
  | none => simpa [Arena.modify, named] using wellFormed
  | some entry =>
    simp only [Arena.modify, named]
    exact wellFormed.setEntry handle _

theorem WellFormed.take? (wellFormed : arena.WellFormed)
    (taken : arena.take? handle = some (item, q)) : q.WellFormed := by
  obtain ⟨count, named, rfl⟩ := take?_eq_some taken
  have found := lookup?_eq_some_iff.mp named
  have notFree : handle.index ∉ arena.free := by
    rw [wellFormed.mem_free_iff]
    rintro ⟨slot, sameSlot, vacant⟩
    rw [found, Option.some.injEq] at sameSlot
    simp [← sameSlot] at vacant
  refine ⟨?_, List.nodup_cons.mpr ⟨notFree, wellFormed.free_nodup⟩, ?_⟩
  · intro index
    rw [List.mem_cons, wellFormed.mem_free_iff index, Array.getElem?_setIfInBounds]
    by_cases sameIndex : handle.index = index
    · subst sameIndex
      simp [index_lt_of_lookup? named]
    · simp [sameIndex, Ne.symm sameIndex]
  · rw [countP_setSlot found]
    have size := wellFormed.size_eq
    simp only [Option.isSome_some, Option.isSome_none, ↓reduceIte, Bool.false_eq_true]
    omega

/-- The free list starts with a vacant slot. -/
theorem WellFormed.exists_vacant {rest : List Nat} (wellFormed : arena.WellFormed)
    (freeShape : arena.free = index :: rest) :
    ∃ slot, arena.slots[index]? = some slot ∧ slot.entry = none ∧ index < arena.slots.size := by
  obtain ⟨slot, found, vacant⟩ := (wellFormed.mem_free_iff index).mp (by simp [freeShape])
  exact ⟨slot, found, vacant, (Array.getElem?_eq_some_iff.mp found).1⟩

/-- A fresh handle named nothing before. -/
theorem lookup?_insert_before (wellFormed : arena.WellFormed) (item : α) :
    arena.lookup? (arena.insert item).1 = none := by
  unfold insert
  cases freeShape : arena.free with
  | nil => simp [lookup?]
  | cons index rest =>
    obtain ⟨slot, found, vacant, -⟩ := wellFormed.exists_vacant freeShape
    simp [lookup?, found, vacant]

theorem lookup?_insert (wellFormed : arena.WellFormed) (item : α) (other : Handle space) :
    (arena.insert item).2.lookup? other =
      if other = (arena.insert item).1 then some { item, count := 1 } else arena.lookup? other := by
  unfold insert
  cases freeShape : arena.free with
  | nil =>
    by_cases same : other = ⟨arena.slots.size, 0⟩
    · simp [same, lookup?]
    · by_cases fresh : other.index = arena.slots.size
      · simp [same, lookup?, fresh, generation_ne fresh same]
      · simp [same, lookup?, Array.getElem?_push, fresh]
  | cons index rest =>
    obtain ⟨slot, found, vacant, inBounds⟩ := wellFormed.exists_vacant freeShape
    simp only [lookup?_setSlot, found, Option.map_some, Option.getD_some]
    by_cases same : other = ⟨index, slot.generation⟩
    · simp [same, inBounds]
    · by_cases sameIndex : other.index = index
      · simp [same, generation_ne sameIndex same, lookup?, sameIndex, found]
      · simp [same, Ne.symm sameIndex]

theorem WellFormed.insert (wellFormed : arena.WellFormed) (item : α) :
    (arena.insert item).2.WellFormed := by
  have size := wellFormed.size_eq
  have nodup := wellFormed.free_nodup
  unfold Arena.insert
  cases freeShape : arena.free with
  | nil =>
    refine ⟨?_, List.nodup_nil, ?_⟩
    · intro index
      have p := wellFormed.mem_free_iff index
      simp only [freeShape, List.not_mem_nil, false_iff, not_exists, not_and] at p
      simp only [List.not_mem_nil, false_iff, not_exists, not_and]
      intro slot found
      rw [Array.getElem?_push] at found
      split at found
      next =>
        rw [Option.some.injEq] at found
        simp [← found]
      next => exact p slot found
    · simp [size]
  | cons index rest =>
    obtain ⟨slot, found, vacant, inBounds⟩ := wellFormed.exists_vacant freeShape
    rw [freeShape, List.nodup_cons] at nodup
    refine ⟨?_, nodup.2, ?_⟩
    · intro other
      have p := wellFormed.mem_free_iff other
      rw [freeShape, List.mem_cons] at p
      rw [Array.getElem?_setIfInBounds]
      by_cases sameIndex : index = other
      · subst sameIndex
        simp [inBounds, nodup.1]
      · simp [sameIndex, ← p, Ne.symm sameIndex]
    · simp [countP_setSlot found, vacant, size]

end ValueGraph.Arena
