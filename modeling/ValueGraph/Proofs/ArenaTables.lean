import Mathlib
import ValueGraph.Proofs.Generations

namespace ValueGraph.Arena

open List Option

/-!
# Arenas as tables without reused keys

Whatever is asked of an arena, its answers are those of a table from handles to entries in which
every key is given out once.  A slot has as many generations behind it as it was vacated, so this
holds as long as no slot is vacated as often as a generation has values.
-/

variable {space α : Type}

/-- What can be asked of an arena. -/
inductive Command (space α : Type) where
  | insert (item : α)
  | retain (handle : Handle space)
  | release (handle : Handle space)
  | take (handle : Handle space)
  | modify (handle : Handle space) (change : α → α)

/-- What an arena answers. -/
inductive Reply (space α : Type) where
  | placed (handle : Handle space)
  | retained (count : Nat)
  | released (released : Released α)
  | taken (item : α)
  | modified
  | stale

/-- The handle that a command is about. -/
def Command.subject? : Command space α → Option (Handle space)
  | .insert _ => none
  | .retain handle | .release handle | .take handle | .modify handle _ => some handle

/-- Do what a command says. -/
def apply (arena : Arena space α) : Command space α → Reply space α × Arena space α
  | .insert item => (.placed (arena.insert item).1, (arena.insert item).2)
  | .retain handle => ((arena.retain? handle).map (Prod.map .retained id)).getD (.stale, arena)
  | .release handle => ((arena.release? handle).map (Prod.map .released id)).getD (.stale, arena)
  | .take handle => ((arena.take? handle).map (Prod.map .taken id)).getD (.stale, arena)
  | .modify handle change =>
    if arena.contains handle then (.modified, arena.modify handle change) else (.stale, arena)

/-- Do what some commands say, with a record of them and of the answers. -/
def applyAll (arena : Arena space α) :
    List (Command space α) → List (Command space α × Reply space α) × Arena space α
  | [] => ([], arena)
  | command :: rest =>
    let (reply, next) := arena.apply command
    let (trace, last) := next.applyAll rest
    ((command, reply) :: trace, last)

/-- The slot that was vacated when a command was answered. -/
def vacated? : Command space α × Reply space α → Option Nat
  | (.take handle, .taken _) | (.release handle, .released (.freed _)) => some handle.index
  | _ => none

/-- How often each slot was vacated. -/
def vacations (trace : List (Command space α × Reply space α)) (index : Nat) : Nat :=
  (trace.filterMap vacated?).count index

/-! ### Tables -/

/-- A table of entries, with all keys that were ever given out. -/
structure Table (space α : Type) where
  entries : Handle space → Option (Entry α)
  issued : List (Handle space)

namespace Table

/-- A table without entries. -/
def empty : Table space α :=
  { entries := fun _ => none, issued := [] }

/-- Overwrite or delete what is under a key. -/
def set (table : Table space α) (handle : Handle space) (entry : Option (Entry α)) :
    Table space α :=
  { table with entries := fun other => if other = handle then entry else table.entries other }

/-- How a table answers a command. -/
inductive Step (table : Table space α) : Command space α → Reply space α → Table space α → Prop
  | insert {item : α} {handle : Handle space} (fresh : handle ∉ table.issued) :
    table.Step (.insert item) (.placed handle)
      { table.set handle (some ⟨item, 1⟩) with issued := handle :: table.issued }
  | retain {handle : Handle space} {item : α} {count : Nat}
    (held : table.entries handle = some ⟨item, count⟩) :
    table.Step (.retain handle) (.retained (count + 1))
      (table.set handle (some ⟨item, count + 1⟩))
  | release {handle : Handle space} {item : α} {count : Nat} (others : 0 < count)
    (held : table.entries handle = some ⟨item, count + 1⟩) :
    table.Step (.release handle) (.released (.alive count)) (table.set handle (some ⟨item, count⟩))
  | free {handle : Handle space} {item : α} (held : table.entries handle = some ⟨item, 1⟩) :
    table.Step (.release handle) (.released (.freed item)) (table.set handle none)
  | take {handle : Handle space} {item : α} {count : Nat}
    (held : table.entries handle = some ⟨item, count⟩) :
    table.Step (.take handle) (.taken item) (table.set handle none)
  | modify {handle : Handle space} {item : α} {count : Nat} {change : α → α}
    (held : table.entries handle = some ⟨item, count⟩) :
    table.Step (.modify handle change) .modified (table.set handle (some ⟨change item, count⟩))
  | stale {command : Command space α} {handle : Handle space}
    (subject : command.subject? = some handle) (absent : table.entries handle = none) :
    table.Step command .stale table

/-- How a table answers one command after the other. -/
inductive Runs : Table space α → List (Command space α × Reply space α) → Table space α → Prop
  | nil {table : Table space α} : table.Runs [] table
  | cons {table next last : Table space α} {command : Command space α} {reply : Reply space α}
    {trace : List (Command space α × Reply space α)} (step : table.Step command reply next)
    (rest : next.Runs trace last) : table.Runs ((command, reply) :: trace) last

end Table

/-! ### Steps -/

variable {p q : Arena space α} {t : Table space α} {past : Nat → Nat} {hd : Handle space}

/-- An arena holds what a table does, after its slots were vacated this often. -/
structure Tracks (arena : Arena space α) (table : Table space α) (past : Nat → Nat) : Prop where
  wellFormed : arena.WellFormed
  lookup? : arena.lookup? = table.entries
  counted : ∀ handle entry, arena.lookup? handle = some entry → 0 < entry.count
  known : ∀ handle ∈ table.issued, arena.Known handle
  generation : ∀ index, ((arena.generation? index).getD 0).toNat = past index

/-- A command about a handle that names nothing changes nothing. -/
theorem apply_of_stale {command : Command space α} (subject : command.subject? = some hd)
    (absent : p.lookup? hd = none) : p.apply command = (.stale, p) := by
  cases command with
  | insert => cases subject
  | retain | release | take | modify =>
    cases subject
    simp [apply, retain?, release?, take?, contains, absent]

namespace Tracks

theorem counted_set (tracks : p.Tracks t past) {new : Option (Entry α)}
    (positive : ∀ entry ∈ new, 0 < entry.count) (handle : Handle space) (entry : Entry α)
    (h : (t.set hd new).entries handle = some entry) : 0 < entry.count := by
  simp only [Table.set] at h
  split at h
  next => exact positive entry h
  next => exact tracks.counted handle entry (tracks.lookup? ▸ h)

/-- Overwriting an entry. -/
theorem setEntry (tracks : p.Tracks t past) {old new : Entry α} (h : p.lookup? hd = some old)
    (positive : 0 < new.count) : (p.setEntry hd new).Tracks (t.set hd (some new)) past := by
  have lookups : (p.setEntry hd new).lookup? = (t.set hd (some new)).entries := by
    funext handle
    rw [lookup?_setEntry h, tracks.lookup?]
    rfl
  refine ⟨tracks.wellFormed.setEntry hd new, lookups, ?_, fun handle mem => ?_, fun k => ?_⟩
  · rw [lookups]
    exact tracks.counted_set (by simpa)
  · exact (tracks.known handle mem).of_grows
      (.of_same (contains_setEntry h new) (generation?_setEntry p hd new))
  · rw [generation?_setEntry, tracks.generation]

/-- Vacating a slot that has a generation left. -/
theorem take (tracks : p.Tracks t past) {item : α} (taken : p.take? hd = some (item, q))
    (room : ∀ k, past k + [hd.index].count k < 2 ^ 32) :
    q.Tracks (t.set hd none) fun k => past k + [hd.index].count k := by
  have lookups : q.lookup? = (t.set hd none).entries := by
    funext handle
    rw [lookup?_take? taken, tracks.lookup?]
    rfl
  have h : p.contains hd = true := contains_iff_get?.mpr ⟨item, take?_item taken⟩
  have age : hd.generation.toNat = past hd.index := by
    rw [← tracks.generation, generation?_of_contains h, getD_some]
  have next : (hd.generation + 1).toNat = past hd.index + 1 := by
    have last := room hd.index
    rw [count_singleton_self] at last
    rw [UInt32.toNat_add, UInt32.toNat_one, age, Nat.mod_eq_of_lt last]
  refine ⟨tracks.wellFormed.take? taken, lookups, ?_, fun handle mem => ?_, fun k => ?_⟩
  · rw [lookups]
    exact tracks.counted_set (by simp)
  · refine (tracks.known handle mem).of_room (shrinks_take? taken) fun generation there gone => ?_
    have eq : ⟨handle.index, generation⟩ = hd := by
      by_contra different
      simp [(contains_take? taken).mpr ⟨different, there⟩] at gone
    obtain rfl := eq
    have last := room handle.index
    simp only [count_singleton_self] at last
    exact age ▸ last
  · rw [generation?_take? taken]
    split
    next eq => rw [eq, getD_some, next, count_singleton_self]
    next ne => rw [tracks.generation, count_eq_zero_of_not_mem (by simpa using ne), Nat.add_zero]

/-- Placing an item under a handle that was not given out before. -/
theorem insert (tracks : p.Tracks t past) (item : α) :
    (p.insert item).1 ∉ t.issued ∧ (p.insert item).2.Tracks
      { t.set (p.insert item).1 (some ⟨item, 1⟩) with issued := (p.insert item).1 :: t.issued }
      past := by
  have wf := tracks.wellFormed
  have grows := grows_insert wf item
  have lookups : (p.insert item).2.lookup? =
      (t.set (p.insert item).1 (some ⟨item, 1⟩)).entries := by
    funext handle
    rw [lookup?_insert wf, tracks.lookup?]
    rfl
  have there : (p.insert item).2.contains (p.insert item).1 = true := by
    simp [contains, lookup?_insert wf]
  refine ⟨fun mem => ?_, wf.insert item, lookups, ?_, fun handle mem => ?_, fun k => ?_⟩
  · have before := (tracks.known _ mem).contains_before grows there
    rw [contains, lookup?_insert_before wf] at before
    cases before
  · rw [lookups]
    exact tracks.counted_set (by simp)
  · rcases mem_cons.mp mem with rfl | earlier
    · exact .inl there
    · exact (tracks.known handle earlier).of_grows grows
  · rw [← tracks.generation]
    rcases grows.generation k with eq | ⟨absent, first⟩
    · rw [eq]
    · rw [absent, first]
      rfl

/-- One command. -/
theorem step (tracks : p.Tracks t past) (command : Command space α)
    (room : ∀ k, past k + vacations [(command, (p.apply command).1)] k < 2 ^ 32) :
    ∃ t', t.Step command (p.apply command).1 t' ∧
      (p.apply command).2.Tracks t' fun k =>
        past k + vacations [(command, (p.apply command).1)] k := by
  by_cases stale : ∃ hd, command.subject? = some hd ∧ p.lookup? hd = none
  · obtain ⟨hd, subject, absent⟩ := stale
    have kept : (fun k => past k + vacations [(command, Reply.stale)] k) = past := by
      cases command <;> rfl
    rw [apply_of_stale subject absent, kept]
    exact ⟨t, .stale subject (tracks.lookup? ▸ absent), tracks⟩
  · have held : ∀ hd, command.subject? = some hd → ∃ item count,
        p.lookup? hd = some ⟨item, count + 1⟩ := by
      intro hd subject
      obtain ⟨⟨item, count⟩, h⟩ := ne_none_iff_exists'.mp fun absent =>
        stale ⟨hd, subject, absent⟩
      obtain ⟨rest, rfl⟩ := Nat.exists_eq_add_one.mpr (tracks.counted hd _ h)
      exact ⟨item, rest, h⟩
    cases command with
    | insert item =>
      obtain ⟨fresh, next⟩ := tracks.insert item
      exact ⟨_, .insert fresh, next⟩
    | retain hd =>
      obtain ⟨item, count, h⟩ := held hd rfl
      have run : p.apply (.retain hd) = (.retained (count + 2),
        p.setEntry hd ⟨item, count + 2⟩) := by
        simp [apply, retain?, h]
      rw [run] at room ⊢
      exact ⟨_, .retain (tracks.lookup? ▸ h), tracks.setEntry h (Nat.succ_pos _)⟩
    | release hd =>
      obtain ⟨item, count, h⟩ := held hd rfl
      cases count with
      | zero =>
        obtain ⟨q, taken⟩ : ∃ q, p.take? hd = some (item, q) := by simp [take?, h]
        have run : p.apply (.release hd) = (.released (.freed item), q) := by
          simp [apply, release?, h, taken]
        rw [run] at room ⊢
        exact ⟨_, .free (tracks.lookup? ▸ h), tracks.take taken room⟩
      | succ count =>
        have run : p.apply (.release hd) =
            (.released (.alive (count + 1)), p.setEntry hd ⟨item, count + 1⟩) := by
          simp [apply, release?, h]
        rw [run] at room ⊢
        have others := Nat.succ_pos count
        exact ⟨_, .release others (tracks.lookup? ▸ h), tracks.setEntry h others⟩
    | take hd =>
      obtain ⟨item, count, h⟩ := held hd rfl
      obtain ⟨q, taken⟩ : ∃ q, p.take? hd = some (item, q) := by simp [take?, h]
      have run : p.apply (.take hd) = (.taken item, q) := by simp [apply, taken]
      rw [run] at room ⊢
      exact ⟨_, .take (tracks.lookup? ▸ h), tracks.take taken room⟩
    | modify hd change =>
      obtain ⟨item, count, h⟩ := held hd rfl
      have run : p.apply (.modify hd change) =
          (.modified, p.setEntry hd ⟨change item, count + 1⟩) := by
        simp [apply, Arena.modify, contains, h]
      rw [run] at room ⊢
      exact ⟨_, .modify (tracks.lookup? ▸ h), tracks.setEntry h (Nat.succ_pos _)⟩

/-- One command after the other. -/
theorem run (tracks : p.Tracks t past) (commands : List (Command space α))
    (room : ∀ k, past k + vacations (p.applyAll commands).1 k < 2 ^ 32) :
    ∃ t', t.Runs (p.applyAll commands).1 t' ∧
      (p.applyAll commands).2.Tracks t' fun k => past k + vacations (p.applyAll commands).1 k := by
  induction commands generalizing p t past with
  | nil => exact ⟨t, .nil, tracks⟩
  | cons command rest ih =>
    have total (k : Nat) : past k + vacations (p.applyAll (command :: rest)).1 k =
        past k + vacations [(command, (p.apply command).1)] k +
          vacations ((p.apply command).2.applyAll rest).1 k := by
      rw [Nat.add_assoc, vacations, vacations, vacations, ← List.count_append,
        ← List.filterMap_append]
      rfl
    simp only [total] at room ⊢
    obtain ⟨t', step, next⟩ := tracks.step command fun k => (Nat.le_add_right ..).trans_lt (room k)
    obtain ⟨last, runs, tracked⟩ := ih next room
    exact ⟨last, .cons step runs, tracked⟩

end Tracks

theorem tracks_empty : (empty : Arena space α).Tracks Table.empty fun _ => 0 where
  wellFormed := wellFormed_empty
  lookup? := funext lookup?_empty
  counted := by simp
  known := by simp [Table.empty]
  generation := by simp [generation?, empty]

/-! ### Listing -/

theorem mem_toList {item : α} : (hd, item) ∈ p.toList ↔ p.get? hd = some item := by
  simp only [get?_eq_some_iff, lookup?_eq_some_iff, toList, List.mem_filterMap, Prod.exists,
    List.mk_mem_zipIdx_iff_getElem?, Array.getElem?_toList, map_eq_some_iff]
  constructor
  · rintro ⟨⟨generation, _⟩, k, found, ⟨item, count⟩, rfl, eq⟩
    cases eq
    exact ⟨count, found⟩
  · rintro ⟨count, found⟩
    exact ⟨_, _, found, _, rfl, rfl⟩

theorem pairwise_toList (arena : Arena space α) :
    arena.toList.Pairwise fun first second => first.1.index < second.1.index := by
  have indices : (arena.slots.toList.zipIdx.map Prod.snd).Pairwise (· < ·) := by
    rw [List.zipIdx_map_snd]
    exact List.pairwise_lt_range'
  refine List.pairwise_filterMap.mpr ((List.pairwise_map.mp indices).imp ?_)
  intro first second lt a ha b hb
  obtain ⟨entry, -, rfl⟩ := map_eq_some_iff.mp ha
  obtain ⟨entry', -, rfl⟩ := map_eq_some_iff.mp hb
  exact lt

theorem WellFormed.length_toList (wf : p.WellFormed) : p.toList.length = p.size := by
  have items : p.toList.length = (p.slots.toList.zipIdx.map Prod.fst).countP (·.entry.isSome) := by
    rw [countP_map, toList, length_filterMap_eq_countP]
    simp [Function.comp_def]
  rw [items, zipIdx_map_fst, Array.countP_toList, ← wf.size_eq]

/-- The answers that an arena gives to questions, and its accounts, are those of a table. -/
structure Shows (arena : Arena space α) (table : Table space α) : Prop where
  get? : ∀ handle, arena.get? handle = (table.entries handle).map (·.item)
  count? : ∀ handle, arena.count? handle = (table.entries handle).map (·.count)
  contains : ∀ handle, arena.contains handle = (table.entries handle).isSome
  counted : ∀ handle entry, table.entries handle = some entry → 0 < entry.count
  mem_free_iff : ∀ index, index ∈ arena.free ↔
    index < arena.slots.size ∧ ∀ generation, table.entries ⟨index, generation⟩ = none
  nodup_free : arena.free.Nodup
  mem_toList : ∀ handle item, (handle, item) ∈ arena.toList ↔
    (table.entries handle).map (·.item) = some item
  sorted : arena.toList.Pairwise fun first second => first.1.index < second.1.index
  size_eq : arena.size = arena.toList.length
  stale : ∀ command handle, Command.subject? command = some handle →
    table.entries handle = none → arena.apply command = (.stale, arena)

theorem Tracks.shows (tracks : p.Tracks t past) : p.Shows t := by
  obtain ⟨wf, lookups, counted, -, -⟩ := tracks
  rw [lookups] at counted
  exact {
    get? := fun hd => by rw [Arena.get?, lookups]
    count? := fun hd => by rw [Arena.count?, lookups]
    contains := fun hd => by rw [Arena.contains, lookups]
    counted := counted
    mem_free_iff := fun k => by
      simp only [wf.mem_free_iff, ← lookups, Arena.lookup?]
      constructor
      · rintro ⟨slot, found, vacant⟩
        exact ⟨(Array.getElem?_eq_some_iff.mp found).1, fun generation => by simp [found, vacant]⟩
      · rintro ⟨lt, vacant⟩
        have found := Array.getElem?_eq_getElem lt
        exact ⟨_, found, by simpa [found] using vacant p.slots[k].generation⟩
    nodup_free := wf.free_nodup
    mem_toList := fun hd item => by rw [Arena.mem_toList, Arena.get?, lookups]
    sorted := p.pairwise_toList
    size_eq := wf.length_toList.symm
    stale := fun command hd subject absent => apply_of_stale subject (lookups ▸ absent) }

/-- As long as no slot is vacated as often as a generation has values, an arena answers like a table
in which every key is given out once. -/
theorem commands_run_on_table (commands : List (Command space α))
    (room : ∀ index, vacations ((empty : Arena space α).applyAll commands).1 index < 2 ^ 32) :
    ∃ table, Table.empty.Runs ((empty : Arena space α).applyAll commands).1 table ∧
      ((empty : Arena space α).applyAll commands).2.Shows table := by
  obtain ⟨table, runs, tracks⟩ := tracks_empty.run commands fun index => by
    rw [Nat.zero_add]
    exact room index
  exact ⟨table, runs, tracks.shows⟩

/-- A slot is vacated by its last owner and filled again under a new handle. -/
theorem slot_is_filled_again : ∃ table : Table Unit Nat,
    Table.empty.Runs
      [(.insert 5, .placed ⟨0, 0⟩), (.retain ⟨0, 0⟩, .retained 2),
        (.release ⟨0, 0⟩, .released (.alive 1)), (.release ⟨0, 0⟩, .released (.freed 5)),
        (.insert 6, .placed ⟨0, 1⟩), (.take ⟨0, 0⟩, .stale)] table ∧
      table.entries ⟨0, 0⟩ = none ∧ table.entries ⟨0, 1⟩ = some ⟨6, 1⟩ := by
  let commands : List (Command Unit Nat) := [.insert 5, .retain ⟨0, 0⟩, .release ⟨0, 0⟩,
    .release ⟨0, 0⟩, .insert 6, .take ⟨0, 0⟩]
  have room (index : Nat) : vacations ((empty : Arena Unit Nat).applyAll commands).1 index <
      2 ^ 32 := (List.count_le_length (l := [0])).trans_lt (by decide)
  obtain ⟨table, runs, shows⟩ := commands_run_on_table commands room
  refine ⟨table, runs, ?_, ?_⟩
  · have item : none = (table.entries ⟨0, 0⟩).map (·.item) := shows.get? ⟨0, 0⟩
    exact map_eq_none_iff.mp item.symm
  · have item : some 6 = (table.entries ⟨0, 1⟩).map (·.item) := shows.get? ⟨0, 1⟩
    have count : some 1 = (table.entries ⟨0, 1⟩).map (·.count) := shows.count? ⟨0, 1⟩
    obtain ⟨⟨_, number⟩, h, rfl⟩ := map_eq_some_iff.mp item.symm
    obtain rfl : 1 = number := by simpa [h] using count
    exact h

end ValueGraph.Arena
