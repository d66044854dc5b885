import Mathlib
import ValueGraph.Proofs.Runs

namespace ValueGraph

/-!
# Generations along runs

An operation moves every slot by at most one generation.  As long as fewer
operations than generations have been run, no slot has come round to a generation
that it had before, and a handle whose node is gone names nothing ever after.
-/

variable {k age : Nat} {reached : UInt32}

namespace Arena

variable {space α : Type} {p q : Arena space α} {hd : Handle space}

/-- The slot of a handle has moved on to later generations. -/
def Spent (arena : Arena space α) (handle : Handle space) : Prop :=
  ∃ reached, arena.generation? handle.index = some reached ∧ handle.generation < reached

/-- No slot has reached a generation beyond some number. -/
def Young (arena : Arena space α) (age : Nat) : Prop :=
  ∀ index reached, arena.generation? index = some reached → reached.toNat ≤ age

/-- A handle has been given out: it names something, or did so before. -/
def Known (arena : Arena space α) (handle : Handle space) : Prop :=
  arena.contains handle = true ∨ arena.Spent handle

theorem Spent.contains_eq_false (spent : p.Spent hd) : p.contains hd = false := by
  obtain ⟨reached, atSlot, later⟩ := spent
  by_contra h
  have eq := generation?_of_contains (by simpa using h)
  rw [atSlot, Option.some.injEq] at eq
  exact absurd later (by simp [eq])

theorem Grows.generation?_of_some (grows : p.Grows q) (h : p.generation? k = some reached) :
    q.generation? k = some reached := by
  rcases grows.generation k with eq | ⟨absent, -⟩
  · exact eq.trans h
  · simp [absent] at h

theorem Spent.of_grows (spent : p.Spent hd) (grows : p.Grows q) : q.Spent hd := by
  obtain ⟨reached, atSlot, later⟩ := spent
  exact ⟨reached, grows.generation?_of_some atSlot, later⟩

theorem Known.of_grows (known : p.Known hd) (grows : p.Grows q) : q.Known hd :=
  known.imp (grows.contains hd) (·.of_grows grows)

/-- A handle that has been given out is not given out again. -/
theorem Known.contains_before (known : p.Known hd) (grows : p.Grows q) (h : q.contains hd = true) :
    p.contains hd = true := by
  rcases known with there | spent
  · exact there
  · simp [(spent.of_grows grows).contains_eq_false] at h

theorem Young.of_grows (young : p.Young age) (grows : p.Grows q) : q.Young age := by
  intro k reached h
  rcases grows.generation k with eq | ⟨-, first⟩
  · exact young k reached (eq ▸ h)
  · obtain rfl := Option.mem_unique first h
    simp

/-- A handle that has been given out stays so, unless its slot is vacated in its last generation. -/
theorem Known.of_room (known : p.Known hd) (shrinks : p.Shrinks q)
    (room : ∀ generation, p.contains ⟨hd.index, generation⟩ = true →
      q.contains ⟨hd.index, generation⟩ = false → generation.toNat + 1 < 2 ^ 32) : q.Known hd := by
  rcases known with there | ⟨reached, atSlot, later⟩
  · by_cases stays : q.contains hd = true
    · exact Or.inl stays
    · have gone : q.contains hd = false := by simpa using stays
      refine Or.inr ⟨_, shrinks.vacated hd there gone, ?_⟩
      rw [UInt32.lt_iff_toNat_lt, UInt32.toNat_add, UInt32.toNat_one,
        Nat.mod_eq_of_lt (room _ there gone)]
      exact Nat.lt_succ_self _
  · rcases shrinks.generation hd.index with eq | ⟨generation, there, moved, vacant⟩
    · exact Or.inr ⟨reached, eq.trans atSlot, later⟩
    · have here := generation?_of_contains there
      obtain rfl := Option.mem_unique atSlot here
      refine Or.inr ⟨_, moved, ?_⟩
      rw [UInt32.lt_iff_toNat_lt] at later ⊢
      rw [UInt32.toNat_add, UInt32.toNat_one, Nat.mod_eq_of_lt (room _ there (vacant _))]
      exact later.trans (Nat.lt_succ_self _)

section Shrinking

variable (young : p.Young age) (room : age + 1 < 2 ^ 32) (shrinks : p.Shrinks q)
include young room shrinks

theorem Young.of_shrinks : q.Young (age + 1) := by
  intro k reached h
  rcases shrinks.generation k with eq | ⟨generation, there, moved, -⟩
  · exact (young k reached (eq ▸ h)).trans (Nat.le_succ _)
  · obtain rfl := Option.mem_unique moved h
    have bound := young k generation (generation?_of_contains there)
    rw [UInt32.toNat_add, UInt32.toNat_one, Nat.mod_eq_of_lt (by omega)]
    exact Nat.succ_le_succ bound

theorem Known.of_shrinks (known : p.Known hd) : q.Known hd := by
  refine known.of_room shrinks fun generation there _ => ?_
  have bound := young _ generation (generation?_of_contains there)
  omega

end Shrinking

end Arena

namespace Program

variable {p q : Program} {pr : Promise}

theorem Adopts.grows {i write : InstId} {l : Link} (adopts : p.Adopts q i write l) :
    p.values.Grows q.values :=
  adopts.relinked.restrings.grows

/-- In the course of an operation nodes come, and then nodes go; what holds once nodes
have come holds in between if nesting an instruction keeps it. -/
theorem Reaches.between (reaches : p.Reaches pr q) (hs : p.Sound) (inv : Program → Prop)
    (grown : ∀ {m : Program}, Grown pr p m → inv m)
    (adopt : ∀ {first second : Program} {i write : InstId} {l : Link}, first.Sound →
      first.Adopts second i write l → inv first → inv second) :
    ∃ m : Program, m.Sound ∧ p.values.Grows m.values ∧ inv m ∧ Shrunk pr m q := by
  obtain ⟨m, adopted, isGrown, isAdopted, isShrunk⟩ := reaches
  have hsm := Grown.sound isGrown hs
  have grows := (Grown.waxes isGrown hs).grows
  rcases isAdopted with rfl | ⟨i, write, l, adopts, -⟩
  · exact ⟨adopted, hsm, grows, grown isGrown, isShrunk⟩
  · exact ⟨adopted, adopts.sound hsm, grows.trans adopts.grows,
      adopt hsm adopts (grown isGrown), isShrunk⟩

/-- One operation makes slots older by at most one generation. -/
theorem Reaches.young (reaches : p.Reaches pr q) (hs : p.Sound) (young : p.values.Young age)
    (room : age + 1 < 2 ^ 32) : q.values.Young (age + 1) := by
  obtain ⟨m, -, grows, -, isShrunk⟩ :=
    reaches.between hs (fun _ => True) (fun _ => trivial) fun _ _ _ => trivial
  exact (young.of_grows grows).of_shrinks room (Shrunk.wanes isShrunk).shrinks

theorem young_initial (name : String) (cfg : Settings) : (initial name cfg).values.Young 0 := by
  intro k reached h
  simp [initial, Arena.generation?, Arena.empty] at h

end Program

end ValueGraph
