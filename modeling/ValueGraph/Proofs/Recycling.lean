import Mathlib
import ValueGraph.Proofs.Runs

namespace ValueGraph

open Program

/-!
# Generations that come round

The generation of a slot is a word of 32 bits.  Whoever makes and releases a constant over and
over moves the slot that was vacated last through all generations, until a handle that was
given out long ago names whatever is placed there next.
-/

/-! ### The slot that was vacated last -/

namespace Arena

variable {space α : Type} {arena : Arena space α} {index : Nat} {generation : UInt32}

/-- The slot that was vacated last, with the generation that its next occupant gets. -/
def VacatedLast (arena : Arena space α) (index : Nat) (generation : UInt32) : Prop :=
  arena.free.head? = some index ∧ arena.slots[index]? = some { generation, entry := none }

instance [DecidableEq α] : Decidable (arena.VacatedLast index generation) :=
  inferInstanceAs (Decidable (_ ∧ _))

/-- An arena in which a vacant slot has another generation. -/
def aged (arena : Arena space α) (index : Nat) (generation : UInt32) : Arena space α :=
  { arena with slots := arena.slots.setIfInBounds index { generation, entry := none } }

namespace VacatedLast

variable (vacated : arena.VacatedLast index generation)
include vacated

theorem of_aged (later : UInt32) : (arena.aged index later).VacatedLast index later := by
  obtain ⟨bound, -⟩ := Array.getElem?_eq_some_iff.mp vacated.2
  exact ⟨vacated.1, by simp [aged, bound]⟩

theorem aged_self : arena.aged index generation = arena := by
  obtain ⟨bound, held⟩ := Array.getElem?_eq_some_iff.mp vacated.2
  rw [aged, Array.setIfInBounds_def, dif_pos bound, ← held, Array.set_getElem_self]

/-- What is placed in the slot and taken out again leaves it one generation on. -/
theorem take?_insert (item : α) :
    ∃ filled, arena.insert item = ({ index, generation }, filled) ∧
      filled.lookup? { index, generation } = some { item, count := 1 } ∧
      filled.take? { index, generation } = some (item, arena.aged index (generation + 1)) := by
  obtain ⟨top, vacant⟩ := vacated
  obtain ⟨bound, held⟩ := Array.getElem?_eq_some_iff.mp vacant
  obtain ⟨rest, isFree⟩ := List.head?_eq_some_iff.mp top
  refine ⟨_, by simp only [insert, isFree, vacant]; rfl, ?_, ?_⟩
  · simp [lookup?, bound]
  · simp [take?, lookup?, bound, aged, isFree]

end VacatedLast

end Arena

/-! ### Constants that come and go -/

namespace Program

variable {p : Program} {v : ValueId} {index : Nat} {generation later : UInt32}

/-- A program in which a vacant slot has another generation. -/
def aged (program : Program) (index : Nat) (generation : UInt32) : Program :=
  { program with values := program.values.aged index generation }

/-- A constant that nothing reads goes with its one handle. -/
theorem release_of_take? {node : Node} {constant : Constant} {left : Arena ValueSpace Node}
    (held : p.values.lookup? v = some { item := node, count := 1 })
    (isConstant : node.payload = .constant constant) (unread : node.usedBy = [])
    (taken : p.values.take? v = some (node, left)) :
    release v p = .done 0 { p with values := left } := by
  have found : p.values.get? v = some node := by rw [Arena.get?, held, Option.map_some]
  have counted : p.values.count? v = some 1 := by rw [Arena.count?, held, Option.map_some]
  have isPayload : p.payload v = .ok (.constant constant) :=
    payload_eq_ok.mpr (by rw [payload?, found, Option.map_some, isConstant])
  have unused : p.checkUnused v = .ok () := by
    have readers : p.usedBy v = .ok [] := usedBy_eq_ok.mpr ⟨node, found, unread⟩
    simp only [checkUnused, checkUsersWithin, usersOutside, readers]
    rfl
  refine Edit.plan_eq_done.mpr ⟨(do Step.releaseNode v; return 0), ?_, ?_⟩
  · simp only [counted, isOwnedByContainer, isPayload]
    rfl
  · refine Step.run_bind.mpr ⟨(), _, Step.run_get_bind.mpr ?_, rfl⟩
    rw [if_pos counted]
    refine Step.run_bind.mpr ⟨_, p, Step.run_lift.mpr ⟨isPayload, rfl⟩, Step.run_get_bind.mpr ?_⟩
    rw [if_pos counted]
    refine Step.run_bind.mpr ⟨(), p, Step.run_lift.mpr ⟨unused, rfl⟩, ?_⟩
    simp only [Arena.release?, held, taken, Nat.le_refl, if_true, Option.map_some]
    rfl

/-- A constant is made and released: the slot that was vacated last moves on by one
generation, and nothing else changes. -/
theorem exists_cycle (vacated : p.values.VacatedLast index generation) : ∃ filled,
    (Operation.constBool true).run p = .done (.value ⟨index, generation⟩) filled ∧
    (Operation.release ⟨index, generation⟩).run filled =
      .done (.count 0) (p.aged index (generation + 1)) := by
  obtain ⟨filled, inserted, held, taken⟩ :=
    vacated.take?_insert (Node.fresh TypeId.bool (.constant (.int 1)))
  have added : (Step.addNode TypeId.bool (.constant (.int 1))).run p =
      .ok (⟨index, generation⟩, { p with values := filled }) := by
    rw [Step.addNode, Step.run_get_bind, inserted]
    rfl
  refine ⟨{ p with values := filled }, ?_, ?_⟩
  · exact Edit.map_eq_done.mpr ⟨_, Edit.perform_eq_done.mpr added, rfl⟩
  · exact Edit.map_eq_done.mpr ⟨0, release_of_take? held rfl rfl taken, rfl⟩

/-- Constants are made and released in turn, so that a slot passes through some generations. -/
def churn (index : Nat) (generation : UInt32) : Nat → List Operation
  | 0 => []
  | cycles + 1 =>
    .constBool true :: .release ⟨index, generation⟩ :: churn index (generation + 1) cycles

theorem mem_churn {cycles : Nat} {op : Operation} (member : op ∈ churn index generation cycles) :
    op = .constBool true ∨ ∃ v, op = .release v := by
  induction cycles generalizing generation with
  | zero => simp [churn] at member
  | succ cycles inductionHypothesis =>
    simp only [churn, List.mem_cons] at member
    rcases member with rfl | rfl | later
    · exact .inl rfl
    · exact .inr ⟨_, rfl⟩
    · exact inductionHypothesis later

/-- While constants come and go, the slot that was vacated last changes its generation. -/
theorem runAll?_churn (vacated : p.values.VacatedLast index generation) (cycles : Nat) :
    p.runAll? (churn index generation cycles) =
      some (p.aged index (generation + UInt32.ofNat cycles)) := by
  induction cycles generalizing p generation with
  | zero => simp [churn, runAll?, aged, vacated.aged_self]
  | succ cycles inductionHypothesis =>
    obtain ⟨filled, made, released⟩ := exists_cycle vacated
    simp only [churn, runAll?, made, released, Outcome.after?, Option.bind_eq_bind,
      Option.bind_some]
    rw [inductionHypothesis (vacated.of_aged _)]
    simp [aged, Arena.aged, UInt32.add_assoc, UInt32.add_comm]

/-- A run in which constants bring a vacant slot back to its first generation.  Where it leads is
computed without going through all generations. -/
theorem exists_churn {start : Program} {holds : Program → Program → Prop}
    [∀ p s, Decidable (holds p s)] (first rest : List Operation) (index : Nat)
    (decided : (start.runAll? first).any (fun p => p.values.VacatedLast index 1 ∧
      ((p.aged index 0).runAll? rest).any (holds p ·) = true) = true := by
        decide +kernel) :
    ∃ p cycles s, start.runAll? first = some p ∧ p.values.VacatedLast index 1 ∧
      p.runAll? (churn index 1 cycles) = some (p.aged index 0) ∧
      (p.aged index 0).runAll? rest = some s ∧ holds p s := by
  simp only [Option.any_eq_true, decide_eq_true_eq] at decided
  obtain ⟨p, run, vacated, s, runRest, isEnd⟩ := decided
  exact ⟨p, 2 ^ 32 - 1, s, run, vacated, runAll?_churn vacated _, runRest, isEnd⟩

/-- What holds at the end of such a run. -/
theorem exists_runAll?_of_churn {start : Program} {holds : Program → Prop}
    [∀ s, Decidable (holds s)] (first rest : List Operation) (index : Nat)
    (decided : (start.runAll? first).any (fun p => p.values.VacatedLast index 1 ∧
      ((p.aged index 0).runAll? rest).any (holds ·) = true) = true := by decide +kernel) :
    ∃ ops s, start.runAll? ops = some s ∧ holds s := by
  obtain ⟨p, cycles, s, run, -, runCycles, runRest, isEnd⟩ :=
    @exists_churn start (fun _ s => holds s) _ first rest index decided
  refine ⟨first ++ churn index 1 cycles ++ rest, s, ?_, isEnd⟩
  rw [runAll?_append, runAll?_append, run, Option.bind_some, runCycles, Option.bind_some, runRest]

end Program

/-! ### An edge whose user comes back -/

/-- A switch gets a case after it was finalized.  The edge of the case stays when the switch goes,
and the slot of the switch is vacant. -/
def strayCase : List Operation :=
  [.requestType (.function ⟨.void, [], false⟩), .addFunction "f" ⟨13⟩, .addBlock ⟨0, 0⟩,
    .addBlock ⟨0, 0⟩, .createBlock, .constSigned ⟨5⟩ 1, .buildRet none, .pushBack ⟨1, 0⟩ ⟨5, 0⟩,
    .buildSwitch ⟨4, 0⟩ ⟨3, 0⟩, .finalize ⟨6, 0⟩, .addCase ⟨6, 0⟩ 7 ⟨3, 0⟩, .release ⟨6, 0⟩]

/-- Another switch without cases gets the handle of the first.  It leads from the second block to
the first. -/
def namesake : List Operation :=
  [.buildSwitch ⟨4, 0⟩ ⟨1, 0⟩, .pushBack ⟨2, 0⟩ ⟨6, 0⟩]

end ValueGraph
