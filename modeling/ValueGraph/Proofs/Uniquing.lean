import Mathlib
import ValueGraph.Proofs.TypeTrees

namespace ValueGraph

/-!
# One type for each tree

Registration compares entries, one layer deep.  Since the parts of an entry are
registered before it, this is enough to tell whole trees apart: in every table
that requests lead to from a fresh one, two types are the same exactly when all
of their layers agree in shape, sign and const.
-/

theorem TypeEntry.eq_of_tree_eq {entry other : TypeEntry} {below : TypeId → TypeTree}
    (known : ∀ part ∈ entry.shape.children, ∀ otherPart ∈ other.shape.children,
      below part = below otherPart → part = otherPart)
    (eq : entry.tree .full below = other.tree .full below) : entry = other := by
  have known_params : ∀ params others : List TypeId,
      (∀ part ∈ params, ∀ otherPart ∈ others, below part = below otherPart → part = otherPart) →
      params.map below = others.map below → params = others := by
    intro params
    induction params with
    | nil =>
      intro others _ agree
      exact (List.map_eq_nil_iff.mp agree.symm).symm
    | cons param rest ih =>
      intro others known agree
      obtain ⟨head, tail, rfl, sameHead, sameTail⟩ := List.map_eq_cons_iff.mp agree.symm
      rw [known param (by simp) head (by simp) sameHead.symm,
        ih tail (fun part mem otherPart otherMember =>
          known part (by simp [mem]) otherPart (by simp [otherMember])) sameTail.symm]
  obtain ⟨shape, isConst⟩ := entry
  obtain ⟨otherShape, otherConst⟩ := other
  cases shape <;> cases otherShape <;>
    simp only [TypeEntry.tree, Detail.full, Bool.true_and, TypeTree.void.injEq,
      TypeTree.label.injEq, TypeTree.int.injEq, TypeTree.float.injEq, TypeTree.array.injEq,
      TypeTree.pointer.injEq, TypeTree.function.injEq, reduceCtorEq] at eq
  case array.array element length otherElement otherLength =>
    obtain ⟨rfl, sameElement, rfl⟩ := eq
    rw [known element (by simp [Shape.children]) otherElement
      (by simp [Shape.children]) sameElement]
  case pointer.pointer pointee otherPointee =>
    obtain ⟨rfl, samePointee⟩ := eq
    rw [known pointee (by simp [Shape.children]) otherPointee
      (by simp [Shape.children]) samePointee]
  case function.function sig otherSignature =>
    obtain ⟨res, params, variadic⟩ := sig
    obtain ⟨otherResult, otherParams, otherVariadic⟩ := otherSignature
    obtain ⟨rfl, sameResult, sameParams, rfl⟩ := eq
    rw [known res (by simp [Shape.children]) otherResult (by simp [Shape.children]) sameResult,
      known_params params otherParams (fun part mem otherPart otherMember =>
        known part (by simp [Shape.children, mem]) otherPart
          (by simp [Shape.children, otherMember])) sameParams]
  all_goals grind

namespace TypeTable

variable {t t' : TypeTable} {entry : TypeEntry} {ty : TypeId}

theorem Layered.eq_of_tree_eq (lay : t.Layered) {first second : TypeId} (reg : t.Registered first)
    (reg' : t.Registered second) (eq : t.tree .full first = t.tree .full second) :
    first = second := by
  -- The parts come before the type, so the induction is on its position.
  induction pos : first.index using Nat.strong_induction_on generalizing first second with
  | _ pos ih =>
    obtain ⟨entry, found⟩ := reg.exists_entry
    obtain ⟨other, foundSecond⟩ := reg'.exists_entry
    rw [lay.tree_eq found, lay.tree_eq foundSecond] at eq
    have alike : entry = other := by
      refine TypeEntry.eq_of_tree_eq (fun part mem otherPart otherMember agree => ?_) eq
      exact ih part.index (pos ▸ lay.parts _ entry found part mem)
        (lay.registered found mem) (lay.registered foundSecond otherMember) agree rfl
    have indexed := (lay.indexed.find_iff entry first).mpr found
    rw [alike, (lay.indexed.find_iff other second).mpr foundSecond] at indexed
    exact (Option.some.inj indexed).symm

theorem Layered.register_eq (lay : t.Layered) (found : t.entries[ty.index]? = some entry) :
    t.register entry = .ok (ty, t) := by
  rw [register, lay.indexed.lookup_eq, (lay.indexed.find_iff entry ty).mpr found]

theorem answerAll_spec {requests : List TypeRequest} {types : List TypeId} (lay : t.Layered)
    (run : t.answerAll requests = .ok (types, t')) :
    t.Extends t' ∧ ∀ ty ∈ types, t'.Registered ty := by
  induction requests generalizing t types with
  | nil =>
    cases run
    exact ⟨.refl _, by simp⟩
  | cons request rest ih =>
    unfold answerAll at run
    simp only [bind_eq_ok, pure_eq_ok] at run
    obtain ⟨⟨first, between⟩, answered, ⟨others, last⟩, answeredRest, eq⟩ := run
    cases eq
    obtain ⟨grows, entry, -, found⟩ := answer_spec lay answered
    obtain ⟨growsRest, reg⟩ := ih (grows.layered lay) answeredRest
    refine ⟨grows.trans growsRest, fun ty mem => ?_⟩
    rcases List.mem_cons.mp mem with rfl | mem
    · exact growsRest.registered (registered_of_entry found)
    · exact reg ty mem

end TypeTable

/-- Whatever types are asked for, from a fresh table on, there is one type for each
tree.  Its parts come before it, both indexes lead to it, and it is found again in
every later table. -/
theorem types_unique_by_tree (bits : UInt32) {requests : List TypeRequest} {types : List TypeId}
    {table : TypeTable}
    (run : (TypeTable.ofPointerBits bits).answerAll requests = .ok (types, table)) :
    (∀ type ∈ types, table.Registered type) ∧
    (∀ first second, table.Registered first → table.Registered second →
      (first = second ↔ table.tree .full first = table.tree .full second)) ∧
    (∀ type entry, table.entry type = .ok entry →
      ∀ part ∈ entry.shape.children, part.index < type.index) ∧
    (∀ entry type, table.find? entry = some type ↔ table.entry type = .ok entry) ∧
    (∀ key : IntKey, table.findInt? key = table.find? key.entry) ∧
    ∀ type entry, table.entry type = .ok entry →
      ∀ more answers later, table.answerAll more = .ok (answers, later) →
        later.entry type = .ok entry ∧ later.register entry = .ok (type, later) := by
  have fresh := TypeTable.layered_ofPointerBits bits
  obtain ⟨grows, registered⟩ := TypeTable.answerAll_spec fresh run
  have layered := grows.layered fresh
  refine ⟨registered, fun first second one two => ?_, fun type entry found => ?_,
    fun entry type => ?_, layered.indexed.ints,
      fun type entry found more answers later runMore => ?_⟩
  · exact ⟨fun same => same ▸ rfl, layered.eq_of_tree_eq one two⟩
  · exact layered.parts type.index entry (TypeTable.entry_eq_ok.mp found)
  · rw [layered.indexed.find_iff, TypeTable.entry_eq_ok]
  · have growsMore := (TypeTable.answerAll_spec layered runMore).1
    have foundLater := growsMore.entries _ _ (TypeTable.entry_eq_ok.mp found)
    exact ⟨TypeTable.entry_eq_ok.mpr foundLater, (growsMore.layered layered).register_eq foundLater⟩

/-- A pointer to a const integer and a pointer to that integer differ below their
first layer only; the integer is found again under its first type. -/
theorem pointers_unique_by_tree :
    ∃ table, (TypeTable.ofPointerBits 64).answerAll
        [.int 24 true, .withConst ⟨13⟩ true, .pointer ⟨13⟩, .pointer ⟨14⟩, .withoutConst ⟨14⟩] =
          .ok ([⟨13⟩, ⟨14⟩, ⟨15⟩, ⟨16⟩, ⟨13⟩], table) ∧
      table.tree .full ⟨15⟩ ≠ table.tree .full ⟨16⟩ ∧
      table.register { shape := .int 24 true, isConst := true } = .ok (⟨14⟩, table) := by
  obtain ⟨table, run⟩ : ∃ table, (TypeTable.ofPointerBits 64).answerAll
      [.int 24 true, .withConst ⟨13⟩ true, .pointer ⟨13⟩, .pointer ⟨14⟩, .withoutConst ⟨14⟩] =
        .ok ([⟨13⟩, ⟨14⟩, ⟨15⟩, ⟨16⟩, ⟨13⟩], table) := ⟨_, rfl⟩
  obtain ⟨registered, known, -, found, ints, again⟩ := types_unique_by_tree 64 run
  refine ⟨table, run, fun same => ?_, ?_⟩
  · have collapsed := (known ⟨15⟩ ⟨16⟩ (registered _ (by simp)) (registered _ (by simp))).mpr same
    exact absurd collapsed (by decide)
  · have filed : ((TypeTable.ofPointerBits 64).answerAll
        [.int 24 true, .withConst ⟨13⟩ true, .pointer ⟨13⟩, .pointer ⟨14⟩, .withoutConst ⟨14⟩]).map
          (·.2.findInt? ⟨24, true, true⟩) = .ok (some ⟨14⟩) := rfl
    rw [run] at filed
    have filed : table.findInt? ⟨24, true, true⟩ = some ⟨14⟩ := Except.ok.inj filed
    have entered := (found _ _).mp ((ints _).symm.trans filed)
    exact (again ⟨14⟩ _ entered [] [] table rfl).2

end ValueGraph
