import Mathlib
import ValueGraph.Proofs.Uniquing

namespace ValueGraph

/-!
# Levels of equality

Two types are compared layer by layer, with const or with const and signs left out.  Each
level compares the trees of the types with that much erased, so it is an equivalence that
types formed alike inherit, and types that differ in const alone measure the same.
-/

variable {ignoreSign : Bool} {first second : TypeId}

/-- Shape only, const and signs left out at every layer. -/
def Detail.weak : Detail :=
  { qualifiers := false, signs := false }

namespace TypeTree

/-- A tree with only so much of each layer. -/
def erase (detail : Detail) : TypeTree → TypeTree
  | .void isConst => .void (detail.qualifiers && isConst)
  | .label isConst => .label (detail.qualifiers && isConst)
  | .int isConst bits signed => .int (detail.qualifiers && isConst) bits (detail.signs && signed)
  | .float isConst exponent fraction radix =>
    .float (detail.qualifiers && isConst) exponent fraction radix
  | .array isConst element length =>
    .array (detail.qualifiers && isConst) (element.erase detail) length
  | .pointer isConst pointee => .pointer (detail.qualifiers && isConst) (pointee.erase detail)
  | .function isConst result params variadic =>
    .function (detail.qualifiers && isConst) (result.erase detail)
      (params.attach.map fun param => param.1.erase detail) variadic
decreasing_by
  all_goals simp_wf
  all_goals try have smaller := List.sizeOf_lt_of_mem param.2
  all_goals omega

/-- The bytes that a value of the type takes in memory. -/
def bytes? (pointerBits : UInt32) : TypeTree → Except Fault (Option Nat)
  | .array _ element length => do
    match ← element.bytes? pointerBits with
    | some bytes =>
      let total := bytes * length.toNat
      return if total < word64Limit then some total else none
    | none => return none
  | tree => return (← tree.scalarBits? pointerBits).map storageBytes

/-- The alignment of the innermost layer that is no array. -/
def alignment? (pointerBits : UInt32) : TypeTree → Except Fault (Option Nat)
  | .array _ element _ => element.alignment? pointerBits
  | tree => return (← tree.scalarBits? pointerBits).map storageBytes

end TypeTree

namespace TypeTable

variable {t : TypeTable} {ty : TypeId} {detail : Detail} {fuel : Nat}

section Layered

variable (layered : t.Layered)
include layered

/-- What is erased from a tree is what the tree with less detail does not have. -/
theorem erase_tree (fine : Detail) (reg : t.Registered ty)
    (qualifiers : (detail.qualifiers && fine.qualifiers) = detail.qualifiers)
    (signs : (detail.signs && fine.signs) = detail.signs) :
    (t.tree fine ty).erase detail = t.tree detail ty := by
  induction h : ty.index using Nat.strong_induction_on generalizing ty with
  | _ k ih =>
    subst h
    obtain ⟨entry, found⟩ := reg.exists_entry
    have below : ∀ part ∈ entry.shape.children,
        (t.tree fine part).erase detail = t.tree detail part := fun part mem =>
      ih _ (layered.parts _ entry found part mem) (layered.registered found mem) rfl
    rw [layered.tree_eq found, layered.tree_eq found, TypeEntry.tree, TypeEntry.tree]
    cases shape : entry.shape with
    | void | label | int _ _ | float _ _ _ =>
      simp [TypeTree.erase, ← Bool.and_assoc, qualifiers, signs]
    | array part _ | pointer part =>
      simp [TypeTree.erase, ← Bool.and_assoc, qualifiers,
        below part (by simp [shape, Shape.children])]
    | function sig =>
      have params : ∀ param ∈ sig.params,
          (t.tree fine param).erase detail = t.tree detail param := fun param mem =>
        below param (by simp [shape, Shape.children, mem])
      simpa [TypeTree.erase, ← Bool.and_assoc, qualifiers,
        below sig.result (by simp [shape, Shape.children])] using params

theorem bytesWithin_eq (reg : t.Registered ty) (enough : ty.index < fuel) :
    t.bytesWithin fuel ty = (t.tree detail ty).bytes? t.pointerBits := by
  induction fuel generalizing ty with
  | zero => omega
  | succ fuel ih =>
    obtain ⟨entry, read, tree, parts⟩ := layered.shape_and_tree detail reg
    rw [tree, bytesWithin, read, TypeEntry.tree]
    cases shape : entry.shape with
    | array element length =>
      obtain ⟨known, earlier⟩ := parts element (by simp [shape, Shape.children])
      rw [TypeTree.bytes?, ← ih known (by omega)]
      rfl
    | void | label | int _ _ | float _ _ _ | pointer _ | function _ => rfl

theorem alignmentWithin_eq (reg : t.Registered ty) (enough : ty.index < fuel) :
    t.alignmentWithin fuel ty = (t.tree detail ty).alignment? t.pointerBits := by
  induction fuel generalizing ty with
  | zero => omega
  | succ fuel ih =>
    obtain ⟨entry, read, tree, parts⟩ := layered.shape_and_tree detail reg
    rw [tree, alignmentWithin, read, TypeEntry.tree]
    cases shape : entry.shape with
    | array element length =>
      obtain ⟨known, earlier⟩ := parts element (by simp [shape, Shape.children])
      exact ih known (by omega)
    | void | label | int _ _ | float _ _ _ | pointer _ | function _ => rfl

end Layered

/-- A level of equality compares trees with some detail erased, and types formed alike from
types that agree agree as well. -/
structure ComparesTrees (table : TypeTable) (level : TypeId → TypeId → Except Fault Bool)
    (detail : Detail) : Prop where
  trees : ∀ first second, table.Registered first → table.Registered second →
    ∃ same, level first second = .ok same ∧ (same = true ↔
      (table.tree .full first).erase detail = (table.tree .full second).erase detail)
  equivalence : Equivalence fun first second : { type // table.Registered type } =>
    level first second = .ok true
  arrays : ∀ first second element element' length, table.shape first = .ok (.array element length) →
    table.shape second = .ok (.array element' length) → level element element' = .ok true →
    level first second = .ok true
  pointers : ∀ first second pointee pointee', table.shape first = .ok (.pointer pointee) →
    table.shape second = .ok (.pointer pointee') → level pointee pointee' = .ok true →
    level first second = .ok true
  functions : ∀ first second signature signature',
    table.shape first = .ok (.function signature) →
    table.shape second = .ok (.function signature') →
    level signature.result signature'.result = .ok true →
    List.Forall₂ (fun param param' => level param param' = .ok true)
      signature.params signature'.params →
    signature.variadic = signature'.variadic → level first second = .ok true

theorem Layered.agree_iff (lay : t.Layered) (reg : t.Registered first)
    (reg' : t.Registered second) :
    t.agreeWithin ignoreSign (first.index + 1) first second = .ok true ↔
      t.tree (.ofIgnoreSign ignoreSign) first = t.tree (.ofIgnoreSign ignoreSign) second := by
  obtain ⟨eq, read, iff⟩ := lay.agreeWithin_eq ignoreSign reg reg' (Nat.lt_succ_self _)
  rw [read, Except.ok.injEq, iff]

theorem Layered.map_tree_eq (lay : t.Layered) {params params' : List TypeId}
    (agree : List.Forall₂ (fun param param' =>
      t.agreeWithin ignoreSign (param.index + 1) param param' = .ok true) params params')
    (known : ∀ param ∈ params ++ params', t.Registered param) :
    params.map (t.tree (.ofIgnoreSign ignoreSign)) =
      params'.map (t.tree (.ofIgnoreSign ignoreSign)) := by
  induction agree with
  | nil => rfl
  | cons first _ ih =>
    rw [lay.agree_iff (known _ (by simp)) (known _ (by simp))] at first
    rw [List.map_cons, List.map_cons, first, ih fun param mem => known param (by
      simp at mem ⊢; tauto)]

/-- Types agree if their outermost layers do once the trees of the parts are put in. -/
theorem Layered.agree_of_shapes (lay : t.Layered) {shape shape' : Shape}
    (read : t.shape first = .ok shape) (read' : t.shape second = .ok shape')
    (eq : (∀ part ∈ shape.children ++ shape'.children, t.Registered part) →
      shape.entry.tree (.ofIgnoreSign ignoreSign) (t.tree (.ofIgnoreSign ignoreSign)) =
        shape'.entry.tree (.ofIgnoreSign ignoreSign) (t.tree (.ofIgnoreSign ignoreSign))) :
    t.agreeWithin ignoreSign (first.index + 1) first second = .ok true := by
  obtain ⟨entry, found, rfl⟩ := shape_eq_ok.mp read
  obtain ⟨entry', found', rfl⟩ := shape_eq_ok.mp read'
  rw [lay.agree_iff (registered_of_entry found) (registered_of_entry found'), lay.tree_eq found,
    lay.tree_eq found']
  refine eq fun part mem => ?_
  rcases List.mem_append.mp mem with inFirst | inSecond
  · exact lay.registered found inFirst
  · exact lay.registered found' inSecond

theorem Layered.comparesTrees (lay : t.Layered) (ignoreSign : Bool) :
    t.ComparesTrees (fun first second => t.agreeWithin ignoreSign (first.index + 1) first second)
      (.ofIgnoreSign ignoreSign) where
  trees first second reg reg' := by
    rw [erase_tree lay .full reg (Bool.and_true _) (Bool.and_true _),
      erase_tree lay .full reg' (Bool.and_true _) (Bool.and_true _)]
    exact lay.agreeWithin_eq ignoreSign reg reg' (Nat.lt_succ_self _)
  equivalence := by
    refine ⟨fun type => ?_, fun {first second} => ?_, fun {first second r} => ?_⟩
    · exact (lay.agree_iff type.2 type.2).mpr rfl
    · rw [lay.agree_iff first.2 second.2, lay.agree_iff second.2 first.2]
      exact Eq.symm
    · rw [lay.agree_iff first.2 second.2, lay.agree_iff second.2 r.2, lay.agree_iff first.2 r.2]
      exact Eq.trans
  arrays first second element element' length read read' below := by
    refine lay.agree_of_shapes read read' fun known => ?_
    rw [lay.agree_iff (known _ (by simp [Shape.children])) (known _ (by simp [Shape.children]))]
      at below
    simp [TypeEntry.tree, Shape.entry, below]
  pointers first second pointee pointee' read read' below := by
    refine lay.agree_of_shapes read read' fun known => ?_
    rw [lay.agree_iff (known _ (by simp [Shape.children])) (known _ (by simp [Shape.children]))]
      at below
    simp [TypeEntry.tree, Shape.entry, below]
  functions first second signature signature' read read' results params variadic := by
    refine lay.agree_of_shapes read read' fun known => ?_
    rw [lay.agree_iff (known _ (by simp [Shape.children])) (known _ (by simp [Shape.children]))]
      at results
    have eq := lay.map_tree_eq params fun param mem => known param (by
      simp [Shape.children] at mem ⊢; tauto)
    simp [TypeEntry.tree, Shape.entry, results, eq, variadic]

end TypeTable

/-- Each level of equality compares the trees of types, const or const and signs erased; types that
differ in const alone can be stored alike and have the same widths, sizes and alignments. -/
theorem equality_levels_compare_trees (bits : UInt32) {requests : List TypeRequest}
    {types : List TypeId} {table : TypeTable}
    (run : (TypeTable.ofPointerBits bits).answerAll requests = .ok (types, table)) :
    table.ComparesTrees table.equal .plain ∧ table.ComparesTrees table.weakEqual .weak ∧
    ∀ first second, table.Registered first → table.Registered second →
      (first = second → table.equal first second = .ok true) ∧
      (table.equal first second = .ok true → table.weakEqual first second = .ok true ∧
        table.isStorable first = table.isStorable second ∧
        table.intBits? first = table.intBits? second ∧
        table.floatBits? first = table.floatBits? second ∧
        table.scalarBits? first = table.scalarBits? second ∧
        table.bytes? first = table.bytes? second ∧
        table.alignment? first = table.alignment? second) := by
  have lay := (TypeTable.answerAll_spec (TypeTable.layered_ofPointerBits bits) run).1.layered
    (TypeTable.layered_ofPointerBits bits)
  have plain : table.ComparesTrees table.equal .plain := lay.comparesTrees false
  have weak : table.ComparesTrees table.weakEqual .weak := lay.comparesTrees true
  refine ⟨plain, weak, fun first second reg reg' => ⟨?_, fun equal => ?_⟩⟩
  · rintro rfl
    exact plain.equivalence.refl ⟨first, reg⟩
  · have same := (lay.equal_iff reg reg').mp equal
    have bare : table.tree .weak first = table.tree .weak second := by
      rw [← TypeTable.erase_tree lay .plain reg rfl rfl, same,
        TypeTable.erase_tree lay .plain reg' rfl rfl]
    refine ⟨(lay.agree_iff reg reg').mpr bare, ?_, ?_, ?_, ?_, ?_, ?_⟩
    · rw [TypeTable.isStorable_eq lay reg, same, TypeTable.isStorable_eq lay reg']
    · rw [TypeTable.intBits?_eq lay reg, same, TypeTable.intBits?_eq lay reg']
    · rw [TypeTable.floatBits?_eq lay reg, same, TypeTable.floatBits?_eq lay reg']
    · rw [TypeTable.scalarBits?_eq lay reg, same, TypeTable.scalarBits?_eq lay reg']
    · rw [TypeTable.bytes?, TypeTable.bytes?, TypeTable.bytesWithin_eq lay reg (Nat.lt_succ_self _),
        same, TypeTable.bytesWithin_eq lay reg' (Nat.lt_succ_self _)]
    · rw [TypeTable.alignment?, TypeTable.alignment?,
        TypeTable.alignmentWithin_eq lay reg (Nat.lt_succ_self _), same,
        TypeTable.alignmentWithin_eq lay reg' (Nat.lt_succ_self _)]

/-- Arrays of an integer and of the same integer with const are equal and take the same bytes. -/
theorem arrays_equal_up_to_const :
    ∃ table, (TypeTable.ofPointerBits 64).answerAll
        [.int 24 true, .withConst ⟨13⟩ true, .array ⟨13⟩ 3, .array ⟨14⟩ 3] =
          .ok ([⟨13⟩, ⟨14⟩, ⟨15⟩, ⟨16⟩], table) ∧
      (table.tree .full ⟨15⟩).erase .plain = (table.tree .full ⟨16⟩).erase .plain ∧
      table.weakEqual ⟨15⟩ ⟨16⟩ = .ok true ∧ table.bytes? ⟨15⟩ = table.bytes? ⟨16⟩ := by
  let requests : List TypeRequest :=
    [.int 24 true, .withConst ⟨13⟩ true, .array ⟨13⟩ 3, .array ⟨14⟩ 3]
  obtain ⟨table, run⟩ : ∃ table, (TypeTable.ofPointerBits 64).answerAll requests =
    .ok ([⟨13⟩, ⟨14⟩, ⟨15⟩, ⟨16⟩], table) := ⟨_, rfl⟩
  have compared : ((TypeTable.ofPointerBits 64).answerAll requests).map
      (fun answer => (answer.2.equal ⟨15⟩ ⟨16⟩, answer.2.size)) = .ok (.ok true, 17) := rfl
  rw [run] at compared
  obtain ⟨equal, size⟩ := Prod.mk.inj (Except.ok.inj compared)
  have registered : ∀ index < 17, table.Registered ⟨index⟩ := fun index small => by
    rwa [TypeTable.Registered, ← TypeTable.size, size]
  obtain ⟨plain, -, levels⟩ := equality_levels_compare_trees 64 run
  obtain ⟨weak, -, -, -, -, bytes, -⟩ :=
    (levels ⟨15⟩ ⟨16⟩ (registered 15 (by decide)) (registered 16 (by decide))).2 equal
  obtain ⟨same, read, trees⟩ :=
    plain.trees ⟨15⟩ ⟨16⟩ (registered 15 (by decide)) (registered 16 (by decide))
  exact ⟨table, run, trees.mp (Except.ok.inj (read.symm.trans equal)), weak, bytes⟩

end ValueGraph
