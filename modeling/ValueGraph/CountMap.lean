import ValueGraph.Handle

namespace ValueGraph

/-!
# Count maps

A count map says how often each block was counted.  A count that falls to nothing
goes together with its key, so a count that is kept is never 0.
-/

/-- Counts of blocks: every key stands once, and its count is not 0. -/
structure CountMap where
  entries : List (BlockId × Nat)
  nodup_keys : (entries.map (·.1)).Nodup
  positive : ∀ entry ∈ entries, 0 < entry.2
deriving DecidableEq

namespace CountMap

variable {key : BlockId} {entries : List (BlockId × Nat)}

/-- Nothing was counted. -/
def empty : CountMap where
  entries := []
  nodup_keys := List.nodup_nil
  positive := by simp

/-- The blocks that were counted. -/
def keys (map : CountMap) : List BlockId :=
  map.entries.map (·.1)

/-- The count that entries have for a key. -/
def countIn (key : BlockId) : List (BlockId × Nat) → Nat
  | [] => 0
  | (other, count) :: rest => if other = key then count else countIn key rest

/-- How often a block was counted. -/
def count (map : CountMap) (key : BlockId) : Nat :=
  countIn key map.entries

/-- Entries in which the count of a key is one more; a new key comes last. -/
def raise (key : BlockId) : List (BlockId × Nat) → List (BlockId × Nat)
  | [] => [(key, 1)]
  | (other, count) :: rest =>
      if other = key then (key, count + 1) :: rest else (other, count) :: raise key rest

/-- Entries in which the count of a key is one less; a key whose count falls to
nothing goes. -/
def lower (key : BlockId) : List (BlockId × Nat) → List (BlockId × Nat)
  | [] => []
  | (other, count) :: rest =>
      if other = key then
        if count - 1 = 0 then rest else (key, count - 1) :: rest
      else
        (other, count) :: lower key rest

/-- Raising a count adds its key to the others or leaves the keys as they are. -/
theorem mem_keys_raise {other : BlockId} :
    other ∈ (raise key entries).map (·.1) ↔ other = key ∨ other ∈ entries.map (·.1) := by
  induction entries with
  | nil => simp [raise]
  | cons entry rest inductionHypothesis =>
    unfold raise
    split
    · simp_all
    · simp_all [or_left_comm]

/-- Keys stay different when a count is raised. -/
theorem nodup_raise (nodup : (entries.map (·.1)).Nodup) :
    ((raise key entries).map (·.1)).Nodup := by
  induction entries with
  | nil => simp [raise]
  | cons entry rest inductionHypothesis =>
    obtain ⟨fresh, nodup⟩ := List.nodup_cons.mp nodup
    unfold raise
    split
    next same => exact List.nodup_cons.mpr ⟨same ▸ fresh, nodup⟩
    next different =>
      refine List.nodup_cons.mpr ⟨?_, inductionHypothesis nodup⟩
      rw [mem_keys_raise]
      exact not_or.mpr ⟨different, fresh⟩

/-- Lowering a count removes a key or leaves the keys as they are. -/
theorem keys_lower_sublist : ((lower key entries).map (·.1)).Sublist (entries.map (·.1)) := by
  induction entries with
  | nil => exact .slnil
  | cons entry rest inductionHypothesis =>
    unfold lower
    split
    next same =>
      split
      · exact List.sublist_cons_self _ _
      · simp [same]
    next => exact inductionHypothesis.cons_cons _

theorem positive_raise (positive : ∀ entry ∈ entries, 0 < entry.2) :
    ∀ entry ∈ raise key entries, 0 < entry.2 := by
  induction entries with
  | nil => simp [raise]
  | cons entry rest inductionHypothesis =>
    simp only [List.forall_mem_cons] at positive
    unfold raise
    split
    · exact List.forall_mem_cons.mpr ⟨Nat.succ_pos _, positive.2⟩
    · exact List.forall_mem_cons.mpr ⟨positive.1, inductionHypothesis positive.2⟩

/-- A count that falls to nothing is not kept, so what is kept stays above 0. -/
theorem positive_lower (positive : ∀ entry ∈ entries, 0 < entry.2) :
    ∀ entry ∈ lower key entries, 0 < entry.2 := by
  induction entries with
  | nil => simp [lower]
  | cons entry rest inductionHypothesis =>
    simp only [List.forall_mem_cons] at positive
    unfold lower
    split
    next =>
      split
      next => exact positive.2
      next kept => exact List.forall_mem_cons.mpr ⟨Nat.pos_of_ne_zero kept, positive.2⟩
    next => exact List.forall_mem_cons.mpr ⟨positive.1, inductionHypothesis positive.2⟩

/-- Count a block once more. -/
def increment (map : CountMap) (key : BlockId) : CountMap where
  entries := raise key map.entries
  nodup_keys := nodup_raise map.nodup_keys
  positive := positive_raise map.positive

/-- Count a block once less, if it was counted. -/
def decrement (map : CountMap) (key : BlockId) : CountMap where
  entries := lower key map.entries
  nodup_keys := keys_lower_sublist.nodup map.nodup_keys
  positive := positive_lower map.positive

/-- What was counted last can be taken back. -/
theorem decrement_increment (map : CountMap) (key : BlockId) :
    (map.increment key).decrement key = map := by
  have restored : ∀ entries : List (BlockId × Nat), (∀ entry ∈ entries, 0 < entry.2) →
      lower key (raise key entries) = entries := by
    intro entries positive
    induction entries with
    | nil => simp [raise, lower]
    | cons entry rest inductionHypothesis =>
      obtain ⟨other, count⟩ := entry
      simp only [List.forall_mem_cons] at positive
      by_cases same : other = key
      · simp [raise, lower, same, Nat.ne_of_gt positive.1]
      · simp [raise, lower, same, inductionHypothesis positive.2]
  cases map with
  | mk entries nodup_keys positive => simp [increment, decrement, restored entries positive]

@[simp]
theorem count_empty (key : BlockId) : empty.count key = 0 :=
  rfl

/-- What is no key has no count. -/
theorem countIn_eq_zero (absent : key ∉ entries.map (·.1)) : countIn key entries = 0 := by
  induction entries with
  | nil => rfl
  | cons entry rest inductionHypothesis =>
    simp only [List.map_cons, List.mem_cons, not_or] at absent
    rw [countIn, if_neg (Ne.symm absent.1), inductionHypothesis absent.2]

/-- Every key has a count. -/
theorem countIn_pos (positive : ∀ entry ∈ entries, 0 < entry.2)
    (member : key ∈ entries.map (·.1)) : 0 < countIn key entries := by
  induction entries with
  | nil => simp at member
  | cons entry rest inductionHypothesis =>
    simp only [List.forall_mem_cons] at positive
    simp only [List.map_cons, List.mem_cons] at member
    rw [countIn]
    split
    next => exact positive.1
    next different =>
      exact inductionHypothesis positive.2 (member.resolve_left (Ne.symm different))

/-- The keys are the blocks whose count is not 0. -/
theorem mem_keys_iff {map : CountMap} : key ∈ map.keys ↔ 0 < map.count key := by
  refine ⟨countIn_pos map.positive, fun counted => ?_⟩
  refine Decidable.byContradiction fun absent => ?_
  rw [count, countIn_eq_zero absent] at counted
  exact absurd counted (Nat.lt_irrefl 0)

/-- Counting a block once more changes its count alone. -/
theorem count_increment (map : CountMap) (key other : BlockId) :
    (map.increment key).count other = map.count other + if other = key then 1 else 0 := by
  show countIn other (raise key map.entries) = countIn other map.entries + _
  induction map.entries with
  | nil => simp [raise, countIn, eq_comm]
  | cons entry rest inductionHypothesis =>
    by_cases same : entry.1 = key
    · by_cases here : entry.1 = other <;> simp_all [raise, countIn, eq_comm]
    · by_cases here : entry.1 = other <;> simp_all [raise, countIn]

/-- Lowering a count changes it alone: the key that may go stood nowhere else. -/
theorem countIn_lower (nodup : (entries.map (·.1)).Nodup) (other : BlockId) :
    countIn other (lower key entries) = countIn other entries - if other = key then 1 else 0 := by
  induction entries with
  | nil => simp [lower, countIn]
  | cons entry rest inductionHypothesis =>
    obtain ⟨fresh, nodup⟩ := List.nodup_cons.mp nodup
    by_cases same : entry.1 = key
    · subst same
      have gone : countIn entry.1 rest = 0 := countIn_eq_zero fresh
      by_cases here : other = entry.1
      · by_cases last : entry.2 - 1 = 0 <;> simp [lower, countIn, here, last, gone]
      · by_cases last : entry.2 - 1 = 0 <;> simp [lower, countIn, Ne.symm here, here, last]
    · by_cases here : entry.1 = other
      · simp [lower, countIn, same, ← here]
      · simp [lower, countIn, same, here, inductionHypothesis nodup]

/-- Counting a block once less changes its count alone. -/
theorem count_decrement (map : CountMap) (key other : BlockId) :
    (map.decrement key).count other = map.count other - if other = key then 1 else 0 :=
  countIn_lower map.nodup_keys other

end CountMap

end ValueGraph
