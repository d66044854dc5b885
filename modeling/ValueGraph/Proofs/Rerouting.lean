import Mathlib
import ValueGraph.Proofs.Reachability
import ValueGraph.Proofs.Recycling
import ValueGraph.Proofs.Typing

namespace ValueGraph

open List Option

/-!
# Edges that read another value

Edges are made to read another value one after another.  What is known of one edge adds
up: each keeps its user, its slot and its place among the operands, constants change
owners with their uses, and the flow graph follows the targets of terminators.
-/

variable {p q s : Program} {e : EdgeId} {d : Edge} {old new v : ValueId}
  {moved : List EdgeId} {i : InstId}

namespace Program

/-- Some edges read another value, and the rest of the graph follows. -/
structure Diverts (before after : Program) (moved : List EdgeId) (new : ValueId) : Prop where
  rewires : before.Rewires after
  edges : ∀ edge, after.edges.get? edge =
    if edge ∈ moved then (before.edges.get? edge).map fun data => { data with value := new }
    else before.edges.get? edge
  operands : after.operandsOf = before.operandsOf
  uses : ∀ value, (after.usesOf value).Perm
    ((before.usesOf value).filter (· ∉ moved) ++ if value = new then moved else [])
  spare : after.spare = before.spare

theorem Diverts.refl (s : Program) (new : ValueId) : s.Diverts s [] new :=
  ⟨.refl s, by simp, rfl, by simp, rfl⟩

/-- One edge is moved first, then others. -/
theorem EdgeMoved.diverts {rest : List EdgeId} (first : p.EdgeMoved s e d new) (away : e ∉ rest)
    (diverts : s.Diverts q rest new) : p.Diverts q (e :: rest) new where
  rewires := first.rewires.trans diverts.rewires
  edges edge := by
    rw [diverts.edges, first.edges]
    by_cases eq : edge = e
    · simp [eq, away, first.held]
    · simp [eq]
  operands := diverts.operands.trans first.operands
  uses v := by
    refine (diverts.uses v).trans ((((first.uses v).filter _).append_right _).trans ?_)
    rw [List.filter_append, List.filter_filter, List.append_assoc]
    have kept : ∀ edge, (decide (edge ∉ rest) && decide (edge ≠ e)) =
        decide (edge ∉ e :: rest) := by simp [Bool.and_comm]
    simp only [kept]
    refine List.Perm.append_left _ ?_
    split <;> simp [away]
  spare := diverts.spare.trans first.spare

namespace Diverts

variable (diverts : p.Diverts q moved new) (hs : p.Sound)
  (reads : ∀ e ∈ moved, p.readBy? e = some old)

include diverts

theorem targetEdgesOf_eq (i : InstId) : q.targetEdgesOf i = p.targetEdgesOf i := by
  rw [targetEdgesOf, targetEdgesOf, diverts.rewires.skeleton.shell?, diverts.operands]
  have slots : ∀ e, (q.wire? e).map (·.slot) = (p.wire? e).map (·.slot) := by
    intro e
    rw [wire?, wire?, diverts.edges]
    split <;> simp [Function.comp_def, Edge.outline]
  have eq : ∀ (kind : InstKind) e, (q.wire? e).any (kind.isTargetSlot ·.slot) =
      (p.wire? e).any (kind.isTargetSlot ·.slot) := fun kind e => by
    simpa [Option.any_map, Function.comp_def] using
      congrArg (Option.any kind.isTargetSlot) (slots e)
  simp only [eq]

end Diverts

end Program

end ValueGraph
