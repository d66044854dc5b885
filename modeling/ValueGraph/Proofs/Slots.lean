import Mathlib
import ValueGraph.Arena.Lemmas

namespace ValueGraph.Arena

open List Option Or

/-!
# Items, counts and generations

What each operation of an arena does to the item behind a handle, to the number
of owning handles on it, and to the generations of the slots.  Operations that
place nothing only ever move a slot to its next generation by vacating it, and
then the slot stays vacant; operations that vacate nothing keep every
generation.
-/

variable {space α : Type} {arena q : Arena space α} {hd : Handle space} {item : α} {count : Nat}
  {entry : Entry α}

/-! ### Items and counts -/

theorem get?_eq_some_iff :
    arena.get? hd = some item ↔ ∃ count, arena.lookup? hd = some { item, count } := by
  unfold get?
  constructor
  · intro h
    obtain ⟨entry, found, eq⟩ := map_eq_some_iff.mp h
    exact ⟨entry.count, by rw [found, ← eq]⟩
  · rintro ⟨count, found⟩
    simp [found]

theorem count?_eq_some_iff :
    arena.count? hd = some count ↔ ∃ item, arena.lookup? hd = some { item, count } := by
  unfold count?
  constructor
  · intro h
    obtain ⟨entry, found, eq⟩ := map_eq_some_iff.mp h
    exact ⟨entry.item, by rw [found, ← eq]⟩
  · rintro ⟨item, found⟩
    simp [found]

theorem contains_iff_get? : arena.contains hd = true ↔ ∃ item, arena.get? hd = some item := by
  unfold contains get?
  cases arena.lookup? hd <;> simp

theorem get?_eq_none_iff : arena.get? hd = none ↔ arena.lookup? hd = none := by
  simp [get?]

theorem count?_eq_none_iff : arena.count? hd = none ↔ arena.lookup? hd = none := by
  simp [count?]

@[simp]
theorem get?_empty (hd : Handle space) : (empty : Arena space α).get? hd = none := by
  simp [get?]

theorem get?_modify (arena : Arena space α) (hd handle : Handle space) (change : α → α) :
    (arena.modify hd change).get? handle =
      if handle = hd then (arena.get? handle).map change else arena.get? handle := by
  rw [get?, get?, lookup?_modify]
  cases arena.lookup? handle <;> split <;> simp

@[simp]
theorem count?_modify (arena : Arena space α) (hd handle : Handle space) (change : α → α) :
    (arena.modify hd change).count? handle = arena.count? handle := by
  rw [count?, count?, lookup?_modify]
  cases arena.lookup? handle <;> split <;> rfl

theorem get?_insert (wf : arena.WellFormed) (item : α) (handle : Handle space) :
    (arena.insert item).2.get? handle =
      if handle = (arena.insert item).1 then some item else arena.get? handle := by
  rw [get?, lookup?_insert wf]
  split <;> rfl

theorem count?_insert (wf : arena.WellFormed) (item : α) (handle : Handle space) :
    (arena.insert item).2.count? handle =
      if handle = (arena.insert item).1 then some 1 else arena.count? handle := by
  rw [count?, lookup?_insert wf]
  split <;> rfl

theorem get?_insert_before (wf : arena.WellFormed) (item : α) :
    arena.get? (arena.insert item).1 = none := by
  rw [get?_eq_none_iff]
  exact lookup?_insert_before wf item

theorem get?_take? (taken : arena.take? hd = some (item, q)) (handle : Handle space) :
    q.get? handle = if handle = hd then none else arena.get? handle := by
  rw [get?, lookup?_take? taken]
  split <;> rfl

theorem count?_take? (taken : arena.take? hd = some (item, q)) (handle : Handle space) :
    q.count? handle = if handle = hd then none else arena.count? handle := by
  rw [count?, lookup?_take? taken]
  split <;> rfl

/-- Changing the count on an entry keeps every item. -/
theorem get?_setCount (named : arena.lookup? hd = some entry) (count : Nat)
    (handle : Handle space) :
    (arena.setEntry hd { entry with count }).get? handle = arena.get? handle := by
  rw [get?, lookup?_setEntry named]
  split
  next eq => rw [eq, get?, named, map_some, map_some]
  next => rfl

theorem count?_setCount (named : arena.lookup? hd = some entry) (count : Nat)
    (handle : Handle space) :
    (arena.setEntry hd { entry with count }).count? handle =
      if handle = hd then some count else arena.count? handle := by
  rw [count?, lookup?_setEntry named]
  split <;> rfl

/-- Taking on an owning handle adds one to the count and changes nothing else. -/
theorem retain?_eq_some (retained : arena.retain? hd = some (count, q)) :
    ∃ entry, arena.lookup? hd = some entry ∧ count = entry.count + 1 ∧
        q = arena.setEntry hd { entry with count := entry.count + 1 } := by
  unfold retain? at retained
  cases named : arena.lookup? hd with
  | none => simp [named] at retained
  | some entry =>
    simp only [named, some.injEq, Prod.mk.injEq] at retained
    exact ⟨entry, rfl, retained.1.symm, retained.2.symm⟩

/-- Giving up an owning handle lowers the count, or vacates the slot when no other
owner is left. -/
theorem release?_eq_some {released : Released α} (given : arena.release? hd = some (released, q)) :
    ∃ entry, arena.lookup? hd = some entry ∧ ((1 < entry.count ∧
          q = arena.setEntry hd { entry with count := entry.count - 1 }) ∨
        (entry.count ≤ 1 ∧ arena.take? hd = some (entry.item, q))) := by
  unfold release? at given
  cases named : arena.lookup? hd with
  | none => simp [named] at given
  | some entry =>
    refine ⟨entry, rfl, ?_⟩
    simp only [named] at given
    split at given
    next last =>
      obtain ⟨⟨item, rest⟩, taken, eq⟩ := map_eq_some_iff.mp given
      obtain ⟨-, rfl⟩ := Prod.mk.injEq .. ▸ eq
      have h := take?_item taken
      simp only [get?, named, map_some, some.injEq] at h
      exact inr ⟨last, by rw [taken, h]⟩
    next others =>
      simp only [some.injEq, Prod.mk.injEq] at given
      exact inl ⟨by omega, given.2.symm⟩

/-! ### All handles -/

/-- The handles that name something, in slot order. -/
def handles (arena : Arena space α) : List (Handle space) :=
  (arena.slots.toList.zipIdx.filter (·.1.entry.isSome)).map fun (slot, index) =>
    { index, generation := slot.generation }

theorem mem_handles : hd ∈ arena.handles ↔ arena.contains hd = true := by
  rw [contains, isSome_iff_exists]
  simp only [handles, List.mem_map, List.mem_filter, Prod.exists, lookup?_eq_some_iff]
  constructor
  · rintro ⟨slot, k, ⟨found, filled⟩, rfl⟩
    obtain ⟨entry, holds⟩ := Option.isSome_iff_exists.mp filled
    refine ⟨entry, ?_⟩
    have atIndex := List.mk_mem_zipIdx_iff_getElem?.mp found
    rw [Array.getElem?_toList] at atIndex
    rw [atIndex, ← holds]
  · rintro ⟨entry, found⟩
    refine ⟨{ generation := hd.generation, entry := some entry }, hd.index, ⟨?_, rfl⟩, rfl⟩
    rw [List.mk_mem_zipIdx_iff_getElem?, Array.getElem?_toList, found]

theorem nodup_handles (arena : Arena space α) : arena.handles.Nodup := by
  refine .of_map (·.index) ?_
  have indices : (arena.slots.toList.zipIdx.map Prod.snd).Nodup := by
    rw [List.zipIdx_map_snd]
    exact List.nodup_range'
  rw [handles, List.map_map]
  exact indices.sublist (filter_sublist.map Prod.snd)

theorem WellFormed.length_handles (wf : arena.WellFormed) : arena.handles.length = arena.size := by
  have slots : arena.slots.toList = arena.slots.toList.zipIdx.map Prod.fst :=
    (zipIdx_map_fst ..).symm
  rw [wf.size_eq, ← Array.countP_toList, slots, countP_map, handles, length_map,
    countP_eq_length_filter]
  rfl

theorem WellFormed.size_eq_add {p : Arena space α} {gone : List (Handle space)}
    (wf : p.WellFormed) (wellFormedAfter : q.WellFormed) (nd : gone.Nodup)
    (h : ∀ hd ∈ gone, p.contains hd = true)
    (left : ∀ hd, q.contains hd = true ↔ p.contains hd = true ∧ hd ∉ gone) :
    p.size = q.size + gone.length := by
  have disjoint : List.Disjoint q.handles gone := fun hd inAfter inGone =>
    ((left hd).mp (mem_handles.mp inAfter)).2 inGone
  have eq : p.handles.Perm (q.handles ++ gone) := by
    refine (perm_ext_iff_of_nodup p.nodup_handles
      (nodup_append'.mpr ⟨q.nodup_handles, nd, disjoint⟩)).mpr fun hd => ?_
    rw [mem_append, mem_handles, mem_handles, left]
    by_cases inGone : hd ∈ gone
    · simp [inGone, h hd inGone]
    · simp [inGone]
  rw [← wf.length_handles, ← wellFormedAfter.length_handles, eq.length_eq, length_append]

/-! ### Generations -/

/-- The generation that a slot has reached. -/
def generation? (arena : Arena space α) (index : Nat) : Option UInt32 :=
  arena.slots[index]?.map (·.generation)

/-- The generation of a handle that names something is that of its slot. -/
theorem generation?_of_contains (h : arena.contains hd = true) :
    arena.generation? hd.index = some hd.generation := by
  obtain ⟨entry, named⟩ := isSome_iff_exists.mp h
  simp [generation?, lookup?_eq_some_iff.mp named]

/-- Distinct handles that all name something are no more than the slots. -/
theorem length_le_of_contains {handles : List (Handle space)} (nd : handles.Nodup)
    (h : ∀ hd ∈ handles, arena.contains hd = true) : handles.length ≤ arena.slots.size := by
  have distinct : (handles.map (·.index)).Nodup := by
    refine (nodup_map_iff_inj_on nd).mpr fun first inFirst second inSecond sameIndex => ?_
    have atFirst := generation?_of_contains (h first inFirst)
    rw [sameIndex, generation?_of_contains (h second inSecond), some.injEq] at atFirst
    by_contra ne
    exact generation_ne sameIndex ne atFirst
  have within : handles.map (·.index) ⊆ range arena.slots.size := by
    intro k mem
    obtain ⟨hd, inHandles, rfl⟩ := mem_map.mp mem
    obtain ⟨entry, named⟩ := isSome_iff_exists.mp (h hd inHandles)
    exact mem_range.mpr (index_lt_of_lookup? named)
  simpa using (distinct.subperm within).length_le

theorem generation?_setEntry (arena : Arena space α) (hd : Handle space) (entry : Entry α)
    (k : Nat) : (arena.setEntry hd entry).generation? k = arena.generation? k := by
  cases named : arena.lookup? hd with
  | none => simp [setEntry, named]
  | some old =>
    simp only [setEntry, named, generation?, Array.getElem?_setIfInBounds]
    by_cases eq : hd.index = k
    · rw [← eq, if_pos rfl, if_pos (index_lt_of_lookup? named), lookup?_eq_some_iff.mp named]
      rfl
    · simp [eq]

theorem generation?_modify (arena : Arena space α) (hd : Handle space) (change : α → α) (k : Nat) :
    (arena.modify hd change).generation? k = arena.generation? k := by
  unfold modify
  split
  · exact generation?_setEntry arena hd _ k
  · rfl

theorem generation?_take? (taken : arena.take? hd = some (item, q)) (k : Nat) :
    q.generation? k = if k = hd.index then some (hd.generation + 1) else arena.generation? k := by
  obtain ⟨count, named, rfl⟩ := take?_eq_some taken
  simp only [generation?, Array.getElem?_setIfInBounds]
  by_cases eq : k = hd.index
  · simp [eq, index_lt_of_lookup? named]
  · simp [eq, Ne.symm eq]

/-- A slot keeps its generation when an item is placed; a new slot starts at nought. -/
theorem generation?_insert (wf : arena.WellFormed) (item : α) (k : Nat) :
    (arena.insert item).2.generation? k = arena.generation? k ∨ (arena.generation? k = none ∧
        (arena.insert item).2.generation? k = some 0) := by
  unfold insert
  cases freeShape : arena.free with
  | nil =>
    simp only [generation?, Array.getElem?_push]
    split
    next fresh =>
      subst fresh
      exact inr ⟨by simp, by simp⟩
    next => exact inl rfl
  | cons vacant rest =>
    obtain ⟨_, -, -, lt⟩ := wf.exists_vacant freeShape
    refine inl ?_
    simp only [generation?, Array.getElem?_setIfInBounds]
    by_cases eq : vacant = k
    · simp [← eq, lt]
    · simp [eq]

/-- What operations that place nothing can do: handles go, and a slot that moves to
its next generation stays vacant. -/
structure Shrinks (before after : Arena space α) : Prop where
  contains : ∀ handle, after.contains handle = true → before.contains handle = true
  generation : ∀ index, after.generation? index = before.generation? index ∨
    ∃ generation, before.contains ⟨index, generation⟩ = true ∧
      after.generation? index = some (generation + 1) ∧
        ∀ later, after.contains ⟨index, later⟩ = false
  vacated : ∀ handle, before.contains handle = true → after.contains handle = false →
    after.generation? handle.index = some (handle.generation + 1)

namespace Shrinks

theorem refl (arena : Arena space α) : arena.Shrinks arena where
  contains _ held := held
  generation _ := inl rfl
  vacated _ held gone := absurd held (by simp [gone])

theorem trans {first second r : Arena space α} (earlier : first.Shrinks second)
    (later : second.Shrinks r) : first.Shrinks r where
  contains hd h := earlier.contains hd (later.contains hd h)
  generation k := by
    rcases earlier.generation k with kept | ⟨generation, h, moved, vacant⟩
    · rcases later.generation k with keptLater | ⟨generation, h, moved, vacant⟩
      · exact inl (keptLater.trans kept)
      · exact inr ⟨generation, earlier.contains _ h, moved, vacant⟩
    · have vacantLater : ∀ later, r.contains ⟨k, later⟩ = false := by
        intro number
        by_contra h
        have p := later.contains _ (by simpa using h)
        simp [vacant number] at p
      rcases later.generation k with keptLater | ⟨number, hLater, -, -⟩
      · exact inr ⟨generation, h, keptLater.trans moved, vacantLater⟩
      · simp [vacant number] at hLater
  vacated hd h gone := by
    by_cases kept : second.contains hd = true
    · exact later.vacated hd kept gone
    · have moved := earlier.vacated hd h (by simpa using kept)
      rcases later.generation hd.index with keptLater | ⟨number, hLater, -, -⟩
      · exact keptLater.trans moved
      · have atFirst := generation?_of_contains h
        have sameHandle := generation?_of_contains (earlier.contains _ hLater)
        obtain rfl : hd.generation = number := mem_unique atFirst sameHandle
        exact absurd hLater kept

/-- Operations that keep every handle and generation place and vacate nothing. -/
theorem of_same {p : Arena space α} (contains : ∀ hd, q.contains hd = p.contains hd)
    (generation : ∀ k, q.generation? k = p.generation? k) : p.Shrinks q where
  contains hd held := by rwa [contains] at held
  generation k := inl (generation k)
  vacated hd held gone := absurd held (by simp [← contains, gone])

end Shrinks

/-- What operations that vacate nothing can do: handles come, and every slot keeps
its generation. -/
structure Grows (before after : Arena space α) : Prop where
  contains : ∀ handle, before.contains handle = true → after.contains handle = true
  generation : ∀ index, after.generation? index = before.generation? index ∨
    (before.generation? index = none ∧ after.generation? index = some 0)

namespace Grows

theorem refl (arena : Arena space α) : arena.Grows arena where
  contains _ held := held
  generation _ := inl rfl

theorem trans {first second r : Arena space α} (earlier : first.Grows second)
    (later : second.Grows r) :
    first.Grows r where
  contains handle held := later.contains handle (earlier.contains handle held)
  generation k := by
    rcases earlier.generation k with kept | ⟨absent, fresh⟩
    · rw [← kept]
      exact later.generation k
    · rcases later.generation k with keptLater | ⟨absentLater, -⟩
      · exact inr ⟨absent, keptLater.trans fresh⟩
      · simp [fresh] at absentLater

theorem of_same {p : Arena space α} (contains : ∀ hd, q.contains hd = p.contains hd)
    (generation : ∀ k, q.generation? k = p.generation? k) : p.Grows q where
  contains hd held := by rwa [contains]
  generation k := inl (generation k)

end Grows

/-- Operations that place nothing and keep every handle vacate nothing. -/
theorem Shrinks.grows {p : Arena space α} (shrinks : p.Shrinks q)
    (kept : ∀ hd, p.contains hd = true → q.contains hd = true) : p.Grows q where
  contains := kept
  generation k := by
    rcases shrinks.generation k with eq | ⟨generation, h, -, vacant⟩
    · exact inl eq
    · exact absurd (kept ⟨k, generation⟩ h) (by simp [vacant generation])

theorem contains_modify (arena : Arena space α) (hd handle : Handle space) (change : α → α) :
    (arena.modify hd change).contains handle = arena.contains handle := by
  rw [contains, lookup?_modify, isSome_map, contains]

theorem contains_setEntry {old : Entry α} (named : arena.lookup? hd = some old) (new : Entry α)
    (handle : Handle space) : (arena.setEntry hd new).contains handle = arena.contains handle := by
  rw [contains, lookup?_setEntry named]
  split
  next eq => rw [eq, contains, named, isSome_some, isSome_some]
  next => rfl

theorem contains_take? (taken : arena.take? hd = some (item, q)) {handle : Handle space} :
    q.contains handle = true ↔ handle ≠ hd ∧ arena.contains handle = true := by
  rw [contains, lookup?_take? taken]
  split <;> simp_all [contains]

theorem shrinks_take? (taken : arena.take? hd = some (item, q)) : arena.Shrinks q where
  contains handle held := ((contains_take? taken).mp held).2
  generation index := by
    rw [generation?_take? taken]
    split
    next eq =>
      subst eq
      refine inr ⟨hd.generation, ?_, rfl, ?_⟩
      · exact contains_iff_get?.mpr ⟨item, take?_item taken⟩
      · intro later
        rw [Bool.eq_false_iff, ne_eq, contains_take? taken]
        rintro ⟨ne, held⟩
        obtain ⟨count, named, -⟩ := take?_eq_some taken
        have absent := lookup?_eq_none_of_sameIndex named (by rfl) ne
        simp [contains, absent] at held
    next => exact inl rfl
  vacated handle held gone := by
    have eq : handle = hd := by
      by_contra different
      simp [(contains_take? taken).mpr ⟨different, held⟩] at gone
    rw [generation?_take? taken, eq, if_pos rfl]

theorem grows_insert (wf : arena.WellFormed) (item : α) : arena.Grows (arena.insert item).2 where
  contains other held := by
    rw [contains, lookup?_insert wf]
    split
    · rfl
    · exact held
  generation index := generation?_insert wf item index

end ValueGraph.Arena
