import Mathlib
import ValueGraph.Proofs.Measures

namespace ValueGraph

/-!
# Const behind pointers

A value is used as it is under an equal type if no pointer loses sight of const: behind each
pointer the layer of the target is const where that of the source is.  Only the layer next to a
pointer counts; the elements of an array behind a pointer do not.
-/

namespace TypeTree

/-- The layers next to a pointer, reached through pointers and arrays. -/
def pointees : TypeTree → List TypeTree
  | .pointer _ pointee => pointee :: pointee.pointees
  | .array _ element _ => element.pointees
  | _ => []

/-- All layers reached through pointers and arrays. -/
def layers : TypeTree → List TypeTree
  | .pointer isConst pointee => .pointer isConst pointee :: pointee.layers
  | .array isConst element length => .array isConst element length :: element.layers
  | tree => [tree]

/-- The layers with a pointer above them. -/
def behindPointers : TypeTree → List TypeTree
  | .pointer _ pointee => pointee.layers
  | .array _ element _ => element.behindPointers
  | _ => []

/-- A layer that is const where another is. -/
def KeepsConst (source target : TypeTree) : Prop :=
  source.isConst = true → target.isConst = true

theorem dropsConst_eq_false_iff : ∀ s t : TypeTree, s.erase .plain = t.erase .plain →
    (s.dropsConst t = false ↔ List.Forall₂ KeepsConst s.pointees t.pointees)
  | .pointer _ s, t, same => by
    cases t with
    | pointer _ t =>
      rw [erase, erase, pointer.injEq] at same
      rw [pointees, pointees, List.forall₂_cons, ← dropsConst_eq_false_iff s t same.2, dropsConst,
        Bool.or_eq_false_iff, KeepsConst]
      cases s.isConst <;> simp
    | _ => simp [erase] at same
  | .array _ s _, t, same => by
    cases t with
    | array _ t _ =>
      rw [erase, erase, array.injEq] at same
      exact dropsConst_eq_false_iff s t same.2.1
    | _ => simp [erase] at same
  | .void _, t, same | .label _, t, same | .int .., t, same | .float .., t, same
  | .function .., t, same => by
    cases t <;> simp_all [erase, dropsConst, pointees]

theorem exists_scalarBits? {bits : UInt32} :
    ∀ {tree : TypeTree}, ¬ tree.Overwide → ∃ width, tree.scalarBits? bits = .ok width
  | .float _ exponent fraction _, narrow => by
    have width : Shape.floatBits exponent fraction = .ok _ := if_pos (Nat.not_le.mp narrow)
    exact ⟨_, by rw [scalarBits?, width]; rfl⟩
  | .void _, _ | .label _, _ | .int .., _ | .array .., _ | .pointer .., _ | .function .., _ =>
    ⟨_, rfl⟩

end TypeTree

/-- A conversion is implicit exactly if the types are equal and the layer behind each pointer of
the target is const where that of the source is. -/
theorem implicit_iff_pointees_keep_const (bits : UInt32) {requests : List TypeRequest}
    {types : List TypeId} {table : TypeTable}
    (run : (TypeTable.ofPointerBits bits).answerAll requests = .ok (types, table))
    {source target : TypeId} (registered : table.Registered source)
    (registered' : table.Registered target) (narrow : ¬ (table.tree .full source).Overwide)
    (narrow' : ¬ (table.tree .full target).Overwide) :
    ∃ ways, table.conversions source target = .ok ways ∧ (ways.implicit = true ↔
      table.equal source target = .ok true ∧ List.Forall₂ TypeTree.KeepsConst
        (table.tree .full source).pointees (table.tree .full target).pointees) := by
  have layered := (TypeTable.answerAll_spec (TypeTable.layered_ofPointerBits bits) run).1.layered
    (TypeTable.layered_ofPointerBits bits)
  obtain ⟨bits, width⟩ : ∃ bits, table.scalarBits? source = .ok bits := by
    rw [TypeTable.scalarBits?_eq layered registered]
    exact TypeTree.exists_scalarBits? narrow
  obtain ⟨bits', width'⟩ : ∃ bits, table.scalarBits? target = .ok bits := by
    rw [TypeTable.scalarBits?_eq layered registered']
    exact TypeTree.exists_scalarBits? narrow'
  obtain ⟨same, equal⟩ := layered.equal_answers registered registered'
  have drops : table.dropsConst source target = .ok _ :=
    layered.dropsConstWithin_eq registered registered' (Nat.lt_succ_self _)
  obtain ⟨anew, sameWidth⟩ : ∃ anew, table.sameWidth source target = .ok anew := by
    rw [TypeTable.sameWidth, width, width']
    cases bits <;> cases bits' <;> exact ⟨_, rfl⟩
  simp only [TypeTable.conversions, sameWidth, equal, drops, bind, Except.bind]
  cases same with
  | true =>
    have trees := (layered.equal_iff registered registered').mp equal
    rw [← TypeTable.erase_tree layered .full registered rfl rfl,
      ← TypeTable.erase_tree layered .full registered' rfl rfl] at trees
    exact ⟨_, rfl, by simp [← TypeTree.dropsConst_eq_false_iff _ _ trees]⟩
  | false =>
    obtain ⟨shape, isShape⟩ := bind_eq_ok.mp width
    obtain ⟨shape', isShape'⟩ := bind_eq_ok.mp width'
    simp only [isShape.1, isShape'.1, Bool.false_eq_true, if_false]
    cases shape <;> cases shape' <;> exact ⟨_, rfl, by simp [Conversions.none]⟩

/-- A pointer to bytes is used as a pointer to const bytes, and not the other way round. -/
theorem const_byte_is_pointed_at_as_const :
    ∃ table, (TypeTable.ofPointerBits 64).answerAll
        [.withConst ⟨3⟩ true, .pointer ⟨13⟩, .pointer ⟨3⟩] = .ok ([⟨13⟩, ⟨14⟩, ⟨15⟩], table) ∧
      (∃ ways, table.conversions ⟨15⟩ ⟨14⟩ = .ok ways ∧ ways.implicit = true) ∧
      ∃ ways, table.conversions ⟨14⟩ ⟨15⟩ = .ok ways ∧ ways.implicit = false := by
  let requests : List TypeRequest := [.withConst ⟨3⟩ true, .pointer ⟨13⟩, .pointer ⟨3⟩]
  obtain ⟨table, run⟩ : ∃ table, (TypeTable.ofPointerBits 64).answerAll requests =
    .ok ([⟨13⟩, ⟨14⟩, ⟨15⟩], table) := ⟨_, rfl⟩
  have read : ((TypeTable.ofPointerBits 64).answerAll requests).map (fun answer =>
      (answer.2.tree .full ⟨14⟩, answer.2.tree .full ⟨15⟩, answer.2.equal ⟨15⟩ ⟨14⟩,
        answer.2.size)) =
    .ok (.pointer false (.int true 8 true), .pointer false (.int false 8 true), .ok true, 16) := rfl
  rw [run] at read
  simp only [Except.map, Except.ok.injEq, Prod.mk.injEq] at read
  obtain ⟨tree, tree', equal, size⟩ := read
  have known : ∀ index < 16, table.Registered ⟨index⟩ := fun index small => by
    rwa [TypeTable.Registered, ← TypeTable.size, size]
  obtain ⟨ways, converts, implicit⟩ := implicit_iff_pointees_keep_const 64 run
    (known 15 (by decide)) (known 14 (by decide)) (by rw [tree']; exact id) (by rw [tree]; exact id)
  obtain ⟨back, convertsBack, implicitBack⟩ := implicit_iff_pointees_keep_const 64 run
    (known 14 (by decide)) (known 15 (by decide)) (by rw [tree]; exact id) (by rw [tree']; exact id)
  refine ⟨table, run, ⟨ways, converts, implicit.mpr ⟨equal, ?_⟩⟩, back, convertsBack, ?_⟩
  · simp [tree, tree', TypeTree.pointees, TypeTree.KeepsConst, TypeTree.isConst]
  · rw [← Bool.not_eq_true, implicitBack]
    simp [tree, tree', TypeTree.pointees, TypeTree.KeepsConst, TypeTree.isConst]

/-- A pointer to an array of const bytes is used as a pointer to an array of bytes. -/
theorem const_elements_lose_const :
    ∃ table, (TypeTable.ofPointerBits 64).answerAll
        [.withConst ⟨3⟩ true, .array ⟨13⟩ 4, .array ⟨3⟩ 4, .pointer ⟨14⟩, .pointer ⟨15⟩] =
          .ok ([⟨13⟩, ⟨14⟩, ⟨15⟩, ⟨16⟩, ⟨17⟩], table) ∧
      (∃ ways, table.conversions ⟨16⟩ ⟨17⟩ = .ok ways ∧ ways.implicit = true) ∧
      ¬ List.Forall₂ TypeTree.KeepsConst (table.tree .full ⟨16⟩).behindPointers
        (table.tree .full ⟨17⟩).behindPointers := by
  refine ⟨_, rfl, ⟨_, rfl, rfl⟩, ?_⟩
  have lost : ¬ List.Forall₂ TypeTree.KeepsConst
      [.array false (.int true 8 true) 4, .int true 8 true]
      [.array false (.int false 8 true) 4, .int false 8 true] := by
    simp [TypeTree.KeepsConst, TypeTree.isConst]
  exact lost

end ValueGraph
