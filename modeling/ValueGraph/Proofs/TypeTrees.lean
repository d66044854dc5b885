import Mathlib
import ValueGraph.Proofs.Stepping

namespace ValueGraph

open List Option

/-!
# Trees of types

A registered type stands for the tree of all of its layers.  The tables that
registration leads to are layered: the parts of an entry come before it, so the
tree is found by a descent that ends, and later entries do not change it.  Every
question about a type is a question about its tree, and two types are equal
exactly when their trees agree once const is left out.
-/

variable {fuel : Nat} {shape : Shape} {a : Bool} {entry : TypeEntry} {detail : Detail}
  {t t' : TypeTable} {ty first second : TypeId}

/-! ### Trees -/

/-- A type with all of its layers, each with its const qualifier. -/
inductive TypeTree where
  | void (isConst : Bool)
  | label (isConst : Bool)
  | int (isConst : Bool) (bits : UInt32) (signed : Bool)
  | float (isConst : Bool) (exponent fraction radix : UInt32)
  | array (isConst : Bool) (element : TypeTree) (length : UInt64)
  | pointer (isConst : Bool) (pointee : TypeTree)
  | function (isConst : Bool) (result : TypeTree) (params : List TypeTree) (variadic : Bool)

/-- What is looked at in a layer besides its shape. -/
structure Detail where
  qualifiers : Bool
  signs : Bool

/-- Shape and sign, const left out at every layer. -/
def Detail.plain : Detail :=
  { qualifiers := false, signs := true }

/-- Everything that there is in a layer. -/
def Detail.full : Detail :=
  { qualifiers := true, signs := true }

/-- The tree of an entry, from the trees of its parts. -/
def TypeEntry.tree (entry : TypeEntry) (detail : Detail) (below : TypeId → TypeTree) : TypeTree :=
  let isConst := detail.qualifiers && entry.isConst
  match entry.shape with
  | .void => .void isConst
  | .label => .label isConst
  | .int bits signed => .int isConst bits (detail.signs && signed)
  | .float exponent fraction radix => .float isConst exponent fraction radix
  | .array element length => .array isConst (below element) length
  | .pointer pointee => .pointer isConst (below pointee)
  | .function signature =>
    .function isConst (below signature.result) (signature.params.map below) signature.variadic

theorem TypeEntry.tree_congr {below other : TypeId → TypeTree}
    (agree : ∀ part ∈ entry.shape.children, below part = other part) :
    entry.tree detail below = entry.tree detail other := by
  unfold TypeEntry.tree
  cases shape : entry.shape with
  | array element length => simp [agree element (by simp [shape, Shape.children])]
  | pointer pointee => simp [agree pointee (by simp [shape, Shape.children])]
  | function sig =>
    have params : sig.params.map below = sig.params.map other :=
      map_congr_left fun param mem => agree param (by simp [shape, Shape.children, mem])
    simp [agree sig.result (by simp [shape, Shape.children]), params]
  | void | label | int _ _ | float _ _ _ => rfl

namespace TypeTable

/-- The tree of a type, to at most so many layers. -/
def treeWithin (table : TypeTable) (detail : Detail) : Nat → TypeId → TypeTree
  | 0, _ => .void false
  | fuel + 1, type =>
    match table.entries[type.index]? with
    | some entry => entry.tree detail (table.treeWithin detail fuel)
    | none => .void false

/-- The tree of a type. -/
def tree (table : TypeTable) (detail : Detail) (type : TypeId) : TypeTree :=
  table.treeWithin detail (type.index + 1) type

/-- Both indexes of a table lead to its entries. -/
structure Indexed (table : TypeTable) : Prop where
  find_iff : ∀ entry type, table.find? entry = some type ↔
    table.entries[type.index]? = some entry
  ints : ∀ key, table.findInt? key = table.find? key.entry

/-- The parts of every entry come before it, and the indexes lead to all entries. -/
structure Layered (table : TypeTable) : Prop where
  parts : ∀ (index : Nat) (entry : TypeEntry), table.entries[index]? = some entry →
    ∀ part ∈ entry.shape.children, part.index < index
  indexed : table.Indexed

/-- Whether a type is registered. -/
def Registered (table : TypeTable) (type : TypeId) : Prop :=
  type.index < table.entries.size

theorem Registered.exists_entry (reg : t.Registered ty) :
    ∃ entry, t.entries[ty.index]? = some entry :=
  ⟨_, Array.getElem?_eq_getElem reg⟩

theorem registered_of_entry (found : t.entries[ty.index]? = some entry) : t.Registered ty :=
  (Array.getElem?_eq_some_iff.mp found).1

/-- The parts of an entry are registered. -/
theorem Layered.registered (lay : t.Layered) (found : t.entries[ty.index]? = some entry)
    {part : TypeId} (mem : part ∈ entry.shape.children) : t.Registered part :=
  (lay.parts _ entry found part mem).trans (registered_of_entry found)

theorem Layered.treeWithin_eq (lay : t.Layered) {more : Nat} (enough : ty.index < fuel)
    (enoughMore : ty.index < more) : t.treeWithin detail fuel ty = t.treeWithin detail more ty := by
  induction fuel generalizing ty more with
  | zero => omega
  | succ fuel ih =>
    obtain ⟨more, rfl⟩ := Nat.exists_eq_succ_of_ne_zero (by omega : more ≠ 0)
    unfold treeWithin
    cases absent : t.entries[ty.index]? with
    | none => rfl
    | some entry =>
      refine TypeEntry.tree_congr fun part mem => ?_
      have earlier := lay.parts _ entry absent part mem
      exact ih (by omega) (by omega)

/-- The tree of a type is that of its entry over the trees of the parts. -/
theorem Layered.tree_eq (lay : t.Layered) (found : t.entries[ty.index]? = some entry) :
    t.tree detail ty = entry.tree detail (t.tree detail) := by
  rw [tree, treeWithin, found]
  refine TypeEntry.tree_congr fun part mem => ?_
  exact lay.treeWithin_eq (lay.parts _ entry found part mem) (Nat.lt_succ_self _)

theorem entry_eq_ok : t.entry ty = .ok entry ↔ t.entries[ty.index]? = some entry := by
  unfold TypeTable.entry
  split
  next found => simp [found]
  next missing => simp [missing]

theorem shape_eq_ok :
    t.shape ty = .ok shape ↔ ∃ entry, t.entries[ty.index]? = some entry ∧ entry.shape = shape := by
  simp only [TypeTable.shape, bind_eq_ok, pure_eq_ok, entry_eq_ok]

/-! ### Tables that grow -/

/-- A table that has all that another has. -/
structure Extends (earlier later : TypeTable) : Prop where
  pointerBits : later.pointerBits = earlier.pointerBits
  entries : ∀ (index : Nat) (entry : TypeEntry), earlier.entries[index]? = some entry →
    later.entries[index]? = some entry
  layered : earlier.Layered → later.Layered

namespace Extends

variable {first second r : TypeTable}

theorem refl (t : TypeTable) : t.Extends t :=
  ⟨rfl, fun _ _ => id, id⟩

theorem trans (t : first.Extends second) (t' : second.Extends r) : first.Extends r where
  pointerBits := t'.pointerBits.trans t.pointerBits
  entries index entry found := t'.entries index entry (t.entries index entry found)
  layered := t'.layered ∘ t.layered

theorem registered (grows : first.Extends second) (reg : first.Registered ty) :
    second.Registered ty := by
  obtain ⟨entry, found⟩ := reg.exists_entry
  exact registered_of_entry (grows.entries _ _ found)

/-- What is registered later does not change the tree of a type. -/
theorem tree_eq (grows : first.Extends second) (lay : first.Layered) (reg : first.Registered ty) :
    second.tree detail ty = first.tree detail ty := by
  induction pos : ty.index using Nat.strong_induction_on generalizing ty with
  | _ pos ih =>
    obtain ⟨entry, found⟩ := reg.exists_entry
    rw [lay.tree_eq found, (grows.layered lay).tree_eq (grows.entries _ _ found)]
    refine TypeEntry.tree_congr fun part mem => ?_
    exact ih part.index (pos ▸ lay.parts _ entry found part mem) (lay.registered found mem) rfl

end Extends

/-! ### Registration -/

theorem intKey?_eq_some_iff {key : IntKey} : entry.intKey? = some key ↔ key.entry = entry := by
  obtain ⟨shape, isConst⟩ := entry
  obtain ⟨bits, signed, isConst'⟩ := key
  cases shape <;> grind [TypeEntry.intKey?, IntKey.entry]

/-- The index of the integers never finds anything else than the general one. -/
theorem Indexed.lookup_eq (indexed : t.Indexed) (entry : TypeEntry) :
    (entry.intKey?.bind t.findInt?).or (t.find? entry) = t.find? entry := by
  cases isInt : entry.intKey? with
  | none => rfl
  | some key =>
    rw [bind_some, indexed.ints, intKey?_eq_some_iff.mp isInt]
    exact or_self

/-- A new entry goes into both indexes. -/
theorem Indexed.enter (indexed : t.Indexed) (isNew : t.find? entry = none) :
    (t.enter entry).2.Indexed := by
  have lookup : ∀ other, (t.enter entry).2.find? other =
      if other = entry then some ⟨t.entries.size⟩ else t.find? other := by
    intro other
    by_cases eq : other = entry
    · simp [TypeTable.enter, find?, eq]
    · have unlike : (other == entry) = false := by simp [eq]
      simp [TypeTable.enter, find?, lookup_cons, unlike, eq]
  constructor
  · intro other ty
    have pushed : (t.enter entry).2.entries = t.entries.push entry := rfl
    rw [lookup, pushed, Array.getElem?_push]
    split
    next eq =>
      subst eq
      constructor
      · rintro ⟨⟩
        simp
      · intro found
        split at found
        next last =>
          rw [← last]
        next =>
          rw [(indexed.find_iff other ty).mpr found] at isNew
          cases isNew
    next ne =>
      rw [indexed.find_iff]
      split
      next last =>
        simp only [last, some.injEq, Ne.symm ne, iff_false]
        simp
      next => rfl
  · intro key
    have ints : (t.enter entry).2.findInt? key =
        if key.entry = entry then some ⟨t.entries.size⟩ else t.findInt? key := by
      simp only [← intKey?_eq_some_iff]
      cases isInt : entry.intKey? with
      | none => simp [TypeTable.enter, findInt?, isInt]
      | some bitsKey =>
        by_cases eq : key = bitsKey
        · simp [TypeTable.enter, findInt?, isInt, eq]
        · have unlike : (key == bitsKey) = false := by simp [eq]
          simp [TypeTable.enter, findInt?, isInt, lookup_cons, unlike, Ne.symm eq]
    rw [ints, lookup, indexed.ints]

/-- An entry that is new and whose parts are registered can be put behind the others. -/
theorem Layered.enter (lay : t.Layered) (isNew : t.find? entry = none)
    (known : ∀ part ∈ entry.shape.children, part.index < t.entries.size) :
    (t.enter entry).2.Layered where
  parts k old found part mem := by
    have pushed : (t.enter entry).2.entries = t.entries.push entry := rfl
    rw [pushed, Array.getElem?_push] at found
    split at found
    next last =>
      cases found
      subst last
      exact known part mem
    next => exact lay.parts k old found part mem
  indexed := lay.indexed.enter isNew

theorem register_spec (lay : t.Layered) (run : t.register entry = .ok (ty, t')) :
    t.Extends t' ∧ t'.entries[ty.index]? = some entry := by
  rw [register, lay.indexed.lookup_eq] at run
  split at run
  next known found =>
    cases run
    exact ⟨.refl _, (lay.indexed.find_iff entry ty).mp found⟩
  next isNew =>
    split at run
    next partsKnown =>
      cases run
      have known : ∀ part ∈ entry.shape.children, part.index < t.entries.size := fun part mem =>
        by simpa using all_eq_true.mp partsKnown part mem
      refine ⟨⟨rfl, fun k old found => ?_, fun lay => lay.enter isNew known⟩, by simp⟩
      have lt := (Array.getElem?_eq_some_iff.mp found).1
      rw [Array.getElem?_push_lt lt, ← found, Array.getElem?_eq_getElem lt]
    next => cases run

theorem requalify_spec {isConst : Bool} {res : TypeId} (lay : t.Layered)
    (run : t.requalify ty isConst = .ok (res, t')) :
    t.Extends t' ∧ ∃ entry, t.entries[ty.index]? = some entry ∧
      t'.entries[res.index]? = some { entry with isConst } := by
  unfold requalify at run
  obtain ⟨entry, read, run⟩ := bind_eq_ok.mp run
  have found := entry_eq_ok.mp read
  split at run
  next eq =>
    cases run
    exact ⟨.refl _, entry, found, by rw [found, ← eq]⟩
  next =>
    obtain ⟨grows, reg⟩ := register_spec lay run
    exact ⟨grows, entry, found, reg⟩

/-- Looking for an integer among the integers first finds what registration does. -/
theorem Indexed.int_eq_register (indexed : t.Indexed) (bits : UInt32) (signed : Bool) :
    t.int bits signed = t.register (Shape.int bits signed).entry := by
  have eq : t.findInt? { bits, signed, isConst := false } =
      t.find? (Shape.int bits signed).entry := indexed.ints _
  rw [int, eq]
  split
  next found => rw [register, indexed.lookup_eq, found]
  next => rfl

end TypeTable

/-- The entry that a request speaks of. -/
def TypeRequest.entry? (table : TypeTable) : TypeRequest → Option TypeEntry
  | .register entry => some entry
  | .int bits signed => some (Shape.int bits signed).entry
  | .float exponent fraction radix => some (Shape.float exponent fraction radix).entry
  | .array element length => some (Shape.array element length).entry
  | .pointer pointee => some (Shape.pointer pointee).entry
  | .function signature => some (Shape.function signature).entry
  | .withConst type isConst => table.entries[type.index]?.map ({ · with isConst })
  | .withoutConst type => table.entries[type.index]?.map ({ · with isConst := false })

namespace TypeTable

theorem answer_spec {request : TypeRequest} (lay : t.Layered)
    (run : t.answer request = .ok (ty, t')) :
    t.Extends t' ∧ ∃ entry, request.entry? t = some entry ∧ t'.entries[ty.index]? = some entry := by
  have registering : ∀ {entry}, t.register entry = .ok (ty, t') →
      t.Extends t' ∧ ∃ other, some entry = some other ∧ t'.entries[ty.index]? = some other := by
    intro entry run
    obtain ⟨grows, found⟩ := register_spec lay run
    exact ⟨grows, entry, rfl, found⟩
  cases request with
  | int bits signed => exact registering (lay.indexed.int_eq_register bits signed ▸ run)
  | register _ | float _ _ _ | array _ _ | pointer _ | function _ => exact registering run
  | withConst _ _ | withoutConst _ =>
    obtain ⟨grows, entry, found, foundLater⟩ := requalify_spec lay run
    exact ⟨grows, _, by rw [TypeRequest.entry?, found, map_some], foundLater⟩

/-! ### Fresh tables -/

theorem Layered.enterAll {entries : List TypeEntry} (lay : t.Layered)
    (areNew : ∀ entry ∈ entries, t.find? entry = none) (nd : entries.Nodup)
    (flat : ∀ entry ∈ entries, entry.shape.children = []) :
    (entries.foldl (fun t entry => (t.enter entry).2) t).Layered := by
  induction entries generalizing t with
  | nil => exact lay
  | cons entry rest ih =>
    obtain ⟨notInRest, nd'⟩ := nodup_cons.mp nd
    have next := lay.enter (areNew entry (by simp)) (by simp [flat entry (by simp)])
    refine ih next (fun other mem => ?_) nd' fun other mem => flat other (by simp [mem])
    have unlike : (other == entry) = false := by
      simp only [beq_eq_false_iff_ne]
      exact fun eq => notInRest (eq ▸ mem)
    have isNew := areNew other (by simp [mem])
    rw [find?] at isNew
    simp [TypeTable.enter, find?, lookup_cons, unlike, isNew]

/-- The types that every table registers first are different and have no parts. -/
theorem layered_ofPointerBits (bits : UInt32) : (ofPointerBits bits).Layered := by
  have layered : (empty bits).Layered :=
    ⟨by simp [empty], ⟨by simp [empty, find?], by simp [empty, find?, findInt?]⟩⟩
  exact layered.enterAll (by simp [empty, find?]) (by decide) (by decide)

end TypeTable

/-! ### Questions about trees -/

namespace TypeTree

def isInt : TypeTree → Bool
  | .int _ _ _ => true
  | _ => false

def isFloat : TypeTree → Bool
  | .float _ _ _ _ => true
  | _ => false

def isPointer : TypeTree → Bool
  | .pointer _ _ => true
  | _ => false

/-- The const qualifier of the outermost layer. -/
def isConst : TypeTree → Bool
  | .void isConst | .label isConst | .int isConst _ _ | .float isConst _ _ _ | .array isConst _ _
  | .pointer isConst _ | .function isConst _ _ _ => isConst

/-- Whether a pointer of the first type points at const data where the second does not. -/
def dropsConst : TypeTree → TypeTree → Bool
  | .pointer _ pointee, .pointer _ pointee' =>
    pointee.isConst && !pointee'.isConst || pointee.dropsConst pointee'
  | .array _ element _, .array _ element' _ => element.dropsConst element'
  | _, _ => false

/-- Whether values of the type can be stored. -/
def isStorable : TypeTree → Bool
  | .void _ | .label _ | .function _ _ _ _ => false
  | .array _ element _ => element.isStorable
  | .int _ _ _ | .float _ _ _ _ | .pointer _ _ => true

/-- The tree behind a pointer. -/
def pointee? : TypeTree → Option TypeTree
  | .pointer _ pointee => some pointee
  | _ => none

/-- The tree one layer down from a pointer or an array. -/
def element? : TypeTree → Option TypeTree
  | .pointer _ pointee => some pointee
  | .array _ element _ => some element
  | _ => none

/-- The parts of a function type. -/
def signature? : TypeTree → Option (TypeTree × List TypeTree × Bool)
  | .function _ result params variadic => some (result, params, variadic)
  | _ => none

def intBits? : TypeTree → Option Nat
  | .int _ bits _ => some bits.toNat
  | _ => none

def floatBits? : TypeTree → Except Fault (Option Nat)
  | .float _ exponent fraction _ => do return some (← Shape.floatBits exponent fraction)
  | _ => return none

/-- The width of an integer, float or pointer type. -/
def scalarBits? (pointerBits : UInt32) : TypeTree → Except Fault (Option Nat)
  | .int _ bits _ => return some bits.toNat
  | .float _ exponent fraction _ => do return some (← Shape.floatBits exponent fraction)
  | .pointer _ _ => return some pointerBits.toNat
  | _ => return none

end TypeTree

namespace TypeTable

/-- The two sides of a question about the outermost layer of a type. -/
theorem Layered.shape_and_tree (lay : t.Layered) (detail : Detail) (reg : t.Registered ty) :
    ∃ entry : TypeEntry, t.shape ty = .ok entry.shape ∧
      t.tree detail ty = entry.tree detail (t.tree detail) ∧
        ∀ part ∈ entry.shape.children, t.Registered part ∧ part.index < ty.index := by
  obtain ⟨entry, found⟩ := reg.exists_entry
  exact ⟨entry, shape_eq_ok.mpr ⟨entry, found, rfl⟩, lay.tree_eq found,
    fun part mem => ⟨lay.registered found mem, lay.parts _ entry found part mem⟩⟩

variable (layered : t.Layered) (reg : t.Registered ty)

include layered reg

theorem isInt_eq : t.isInt ty = .ok (t.tree detail ty).isInt := by
  obtain ⟨entry, read, tree, -⟩ := layered.shape_and_tree detail reg
  rw [tree, isInt, read, TypeEntry.tree]
  cases entry.shape <;> rfl

theorem isFloat_eq : t.isFloat ty = .ok (t.tree detail ty).isFloat := by
  obtain ⟨entry, read, tree, -⟩ := layered.shape_and_tree detail reg
  rw [tree, isFloat, read, TypeEntry.tree]
  cases entry.shape <;> rfl

theorem isPointer_eq : t.isPointer ty = .ok (t.tree detail ty).isPointer := by
  obtain ⟨entry, read, tree, -⟩ := layered.shape_and_tree detail reg
  rw [tree, isPointer, read, TypeEntry.tree]
  cases entry.shape <;> rfl

theorem isArithmetic_eq :
    t.isArithmetic ty = .ok ((t.tree detail ty).isInt || (t.tree detail ty).isFloat) := by
  obtain ⟨entry, read, tree, -⟩ := layered.shape_and_tree detail reg
  rw [tree, isArithmetic, read, TypeEntry.tree]
  cases entry.shape <;> rfl

theorem intBits?_eq : t.intBits? ty = .ok (t.tree detail ty).intBits? := by
  obtain ⟨entry, read, tree, -⟩ := layered.shape_and_tree detail reg
  rw [tree, intBits?, read, TypeEntry.tree]
  cases entry.shape <;> rfl

theorem floatBits?_eq : t.floatBits? ty = (t.tree detail ty).floatBits? := by
  obtain ⟨entry, read, tree, -⟩ := layered.shape_and_tree detail reg
  rw [tree, floatBits?, read, TypeEntry.tree]
  cases entry.shape <;> rfl

theorem scalarBits?_eq : t.scalarBits? ty = (t.tree detail ty).scalarBits? t.pointerBits := by
  obtain ⟨entry, read, tree, -⟩ := layered.shape_and_tree detail reg
  rw [tree, scalarBits?, read, TypeEntry.tree]
  cases entry.shape <;> rfl

theorem pointee?_eq (detail : Detail) :
    ∃ a, t.pointee? ty = .ok a ∧ (t.tree detail ty).pointee? = a.map (t.tree detail) ∧
        ∀ pointee ∈ a, t.Registered pointee := by
  obtain ⟨entry, read, tree, parts⟩ := layered.shape_and_tree detail reg
  rw [tree, pointee?, read, TypeEntry.tree]
  cases shape : entry.shape with
  | pointer pointee =>
    exact ⟨some pointee, rfl, rfl, by simp [(parts pointee (by simp [shape, Shape.children])).1]⟩
  | void | label | int _ _ | float _ _ _ | array _ _ | function _ => exact ⟨none, rfl, rfl, nofun⟩

theorem element?_eq (detail : Detail) :
    ∃ a, t.element? ty = .ok a ∧ (t.tree detail ty).element? = a.map (t.tree detail) ∧
        ∀ element ∈ a, t.Registered element := by
  obtain ⟨entry, read, tree, parts⟩ := layered.shape_and_tree detail reg
  rw [tree, element?, read, TypeEntry.tree]
  cases shape : entry.shape with
  | pointer pointee =>
    exact ⟨some pointee, rfl, rfl, by simp [(parts pointee (by simp [shape, Shape.children])).1]⟩
  | array element _ =>
    exact ⟨some element, rfl, rfl, by simp [(parts element (by simp [shape, Shape.children])).1]⟩
  | void | label | int _ _ | float _ _ _ | function _ => exact ⟨none, rfl, rfl, nofun⟩

theorem signature?_eq (detail : Detail) :
    ∃ a, t.signature? ty = .ok a ∧ (t.tree detail ty).signature? = a.map (fun sig =>
        (t.tree detail sig.result, sig.params.map (t.tree detail), sig.variadic)) ∧
        ∀ sig ∈ a, t.Registered sig.result ∧ ∀ param ∈ sig.params, t.Registered param := by
  obtain ⟨entry, read, tree, parts⟩ := layered.shape_and_tree detail reg
  rw [tree, signature?, read, TypeEntry.tree]
  cases shape : entry.shape with
  | function sig =>
    refine ⟨some sig, rfl, rfl, ?_⟩
    simp only [mem_some_iff, forall_eq']
    exact ⟨(parts _ (by simp [shape, Shape.children])).1,
      fun param mem => (parts param (by simp [shape, Shape.children, mem])).1⟩
  | void | label | int _ _ | float _ _ _ | array _ _ | pointer _ => exact ⟨none, rfl, rfl, nofun⟩

omit reg in
theorem storableWithin_eq (reg : t.Registered ty) (enough : ty.index < fuel) :
    t.storableWithin fuel ty = .ok (t.tree detail ty).isStorable := by
  induction fuel generalizing ty with
  | zero => omega
  | succ fuel ih =>
    obtain ⟨entry, read, tree, parts⟩ := layered.shape_and_tree detail reg
    rw [tree, storableWithin, read, TypeEntry.tree]
    cases shape : entry.shape with
    | array element length =>
      obtain ⟨known, earlier⟩ := parts element (by simp [shape, Shape.children])
      exact ih known (by omega)
    | void | label | int _ _ | float _ _ _ | pointer _ | function _ => rfl

theorem isStorable_eq : t.isStorable ty = .ok (t.tree detail ty).isStorable :=
  storableWithin_eq layered reg (Nat.lt_succ_self _)

end TypeTable

/-! ### Equality -/

/-- What a comparison of types looks at: const never, signs unless told otherwise. -/
def Detail.ofIgnoreSign (ignoreSign : Bool) : Detail :=
  { qualifiers := false, signs := !ignoreSign }

namespace TypeTable

/-- Comparing two lists of types member by member compares the lists of trees. -/
theorem allM_zip_eq (compare : TypeId → TypeId → Except Fault Bool) {first second : List TypeId}
    (sameLength : first.length = second.length)
    (each : ∀ param ∈ first, ∀ param' ∈ second, ∃ a, compare param param' = .ok a ∧
      (a = true ↔ t.tree detail param = t.tree detail param')) :
    ∃ a, (first.zip second).allM (fun (param, param') => compare param param') = .ok a ∧
      (a = true ↔ first.map (t.tree detail) = second.map (t.tree detail)) := by
  induction first generalizing second with
  | nil =>
    obtain rfl : second = [] := eq_nil_of_length_eq_zero sameLength.symm
    exact ⟨true, rfl, by simp⟩
  | cons param rest ih =>
    obtain ⟨param', rest', rfl⟩ : ∃ param' rest', second = param' :: rest' := by
      cases second with
      | nil => simp at sameLength
      | cons param' rest' => exact ⟨param', rest', rfl⟩
    obtain ⟨here, readHere, agreeHere⟩ := each param (by simp) param' (by simp)
    obtain ⟨there, readThere, agreeThere⟩ := ih (by simpa using sameLength)
      fun one mem type memberOther =>
        each one (mem_cons_of_mem _ mem) type (mem_cons_of_mem _ memberOther)
    simp only [zip_cons_cons, allM, readHere]
    cases here with
    | false => exact ⟨false, rfl, by simpa using fun eq => absurd (agreeHere.mpr eq) (by simp)⟩
    | true =>
      refine ⟨there, readThere, ?_⟩
      rw [agreeThere, map_cons, map_cons, cons.injEq]
      simp [agreeHere.mp rfl]

theorem Layered.agreeWithin_eq (lay : t.Layered) (ignoreSign : Bool) (reg : t.Registered first)
    (reg' : t.Registered second) (enough : first.index < fuel) :
    ∃ a, t.agreeWithin ignoreSign fuel first second = .ok a ∧
      (a = true ↔ t.tree (.ofIgnoreSign ignoreSign) first =
        t.tree (.ofIgnoreSign ignoreSign) second) := by
  induction fuel generalizing first second with
  | zero => omega
  | succ fuel ih =>
    rw [agreeWithin]
    split
    next eq => exact ⟨true, rfl, by simp [eq]⟩
    next =>
      obtain ⟨entry, read, tree, parts⟩ := lay.shape_and_tree (.ofIgnoreSign ignoreSign) reg
      obtain ⟨entry', read', tree', parts'⟩ := lay.shape_and_tree (.ofIgnoreSign ignoreSign) reg'
      have below : ∀ part ∈ entry.shape.children, ∀ part' ∈ entry'.shape.children,
          ∃ a, t.agreeWithin ignoreSign fuel part part' = .ok a ∧
            (a = true ↔ t.tree (.ofIgnoreSign ignoreSign) part =
              t.tree (.ofIgnoreSign ignoreSign) part') := by
        intro part mem part' member'
        obtain ⟨known, earlier⟩ := parts part mem
        exact ih known (parts' part' member').1 (by omega)
      rw [tree, tree', read, read']
      unfold TypeEntry.tree
      cases shape : entry.shape with
      | array element length =>
        cases shape' : entry'.shape with
        | array element' length' =>
          obtain ⟨a, agrees, meaning⟩ := below element (by simp [shape, Shape.children])
            element' (by simp [shape', Shape.children])
          by_cases lengths : length = length'
          · exact ⟨a, (if_pos (beq_iff_eq.mpr lengths)).trans agrees,
              by simp [meaning, lengths, Detail.ofIgnoreSign]⟩
          · exact ⟨false, if_neg (lengths ∘ beq_iff_eq.mp), by simp [lengths]⟩
        | _ => exact ⟨false, rfl, by simp⟩
      | pointer pointee =>
        cases shape' : entry'.shape with
        | pointer pointee' =>
          obtain ⟨a, agrees, meaning⟩ := below pointee (by simp [shape, Shape.children])
            pointee' (by simp [shape', Shape.children])
          exact ⟨a, agrees, by simp [meaning, Detail.ofIgnoreSign]⟩
        | _ => exact ⟨false, rfl, by simp⟩
      | function sig =>
        cases shape' : entry'.shape with
        | function signature' =>
          by_cases alike : (sig.variadic == signature'.variadic &&
              sig.params.length == signature'.params.length) = true
          · obtain ⟨variadic, lengths⟩ : sig.variadic = signature'.variadic ∧
                sig.params.length = signature'.params.length := by simpa using alike
            obtain ⟨res, readResult, meaning⟩ :=
              below sig.result (by simp [shape, Shape.children])
                signature'.result (by simp [shape', Shape.children])
            obtain ⟨params, readParams, meaningParams⟩ :=
              allM_zip_eq (t.agreeWithin ignoreSign fuel) lengths fun param mem param' member' =>
                  below param (by simp [shape, Shape.children, mem])
                    param' (by simp [shape', Shape.children, member'])
            refine ⟨res && params, (if_pos alike).trans ?_, ?_⟩
            · rw [readResult]
              cases res with
              | true => exact readParams
              | false => rfl
            · simp [meaning, meaningParams, variadic, Detail.ofIgnoreSign]
          · refine ⟨false, if_neg alike, ?_⟩
            have differ : ¬ (sig.params.map (t.tree (.ofIgnoreSign ignoreSign)) =
                  signature'.params.map (t.tree (.ofIgnoreSign ignoreSign)) ∧
                    sig.variadic = signature'.variadic) := by
              rintro ⟨params, variadic⟩
              have lengths := congrArg length params
              exact alike (by simpa [variadic] using lengths)
            simp only [TypeTree.function.injEq]
            tauto
        | _ => exact ⟨false, rfl, by simp⟩
      | int bits signed =>
        cases shape' : entry'.shape with
        | int bits' signed' =>
          exact ⟨_, rfl, by cases ignoreSign <;> simp [Detail.ofIgnoreSign]⟩
        | _ => exact ⟨false, rfl, by simp⟩
      | float exponent fraction radix =>
        cases shape' : entry'.shape with
        | float exponent' fraction' radix' =>
          exact ⟨_, rfl, by simp [Detail.ofIgnoreSign, and_assoc]⟩
        | _ => exact ⟨false, rfl, by simp⟩
      | void =>
        cases shape' : entry'.shape with
        | void => exact ⟨true, rfl, by simp [Detail.ofIgnoreSign]⟩
        | _ => exact ⟨false, rfl, by simp⟩
      | label =>
        cases shape' : entry'.shape with
        | label => exact ⟨true, rfl, by simp [Detail.ofIgnoreSign]⟩
        | _ => exact ⟨false, rfl, by simp⟩

/-- Two registered types compare as equal exactly when their trees agree. -/
theorem Layered.equal_iff (lay : t.Layered) (reg : t.Registered first)
    (reg' : t.Registered second) :
    t.equal first second = .ok true ↔ t.tree .plain first = t.tree .plain second := by
  obtain ⟨a, read, meaning⟩ := lay.agreeWithin_eq false reg reg' (Nat.lt_succ_self _)
  rw [equal, read, Except.ok.injEq]
  exact meaning

/-- Comparing two registered types always gives an answer. -/
theorem Layered.equal_answers (lay : t.Layered) (reg : t.Registered first)
    (reg' : t.Registered second) : ∃ a, t.equal first second = .ok a := by
  obtain ⟨a, read, -⟩ := lay.agreeWithin_eq false reg reg' (Nat.lt_succ_self _)
  exact ⟨a, read⟩

theorem Layered.isConst_eq (lay : t.Layered) (reg : t.Registered ty) :
    t.isConst ty = .ok (t.tree .full ty).isConst := by
  obtain ⟨entry, found⟩ := reg.exists_entry
  rw [isConst, entry_eq_ok.mpr found, lay.tree_eq found, TypeEntry.tree]
  cases entry.shape <;> rfl

/-- Dropped const qualifiers in registered types are found in their trees. -/
theorem Layered.dropsConstWithin_eq (lay : t.Layered) {src tgt : TypeId} (reg : t.Registered src)
    (reg' : t.Registered tgt) (enough : src.index < fuel) :
    t.dropsConstWithin fuel src tgt = .ok ((t.tree .full src).dropsConst (t.tree .full tgt)) := by
  induction fuel generalizing src tgt with
  | zero => omega
  | succ fuel ih =>
    obtain ⟨entry, read, tree, parts⟩ := lay.shape_and_tree .full reg
    obtain ⟨entry', hr', tree', parts'⟩ := lay.shape_and_tree .full reg'
    rw [dropsConstWithin, read, hr', tree, tree', TypeEntry.tree, TypeEntry.tree]
    have deeper : ∀ part ∈ entry.shape.children, ∀ part' ∈ entry'.shape.children,
        t.Registered part ∧ t.Registered part' ∧ t.dropsConstWithin fuel part part' =
          .ok ((t.tree .full part).dropsConst (t.tree .full part')) := by
      intro part mem part' mem'
      have known := parts part mem
      have known' := parts' part' mem'
      exact ⟨known.1, known'.1, ih known.1 known'.1 (by omega)⟩
    cases shape : entry.shape with
    | pointer pointee =>
      cases shape' : entry'.shape with
      | pointer pointee' =>
        obtain ⟨known, known', below⟩ := deeper pointee (by simp [shape, Shape.children]) pointee'
          (by simp [shape', Shape.children])
        simp only [bind, Except.bind, lay.isConst_eq known, lay.isConst_eq known', below,
          TypeTree.dropsConst]
        cases (t.tree .full pointee).isConst <;> cases (t.tree .full pointee').isConst <;> rfl
      | _ => rfl
    | array element length =>
      cases shape' : entry'.shape with
      | array element' length' =>
        exact (deeper element (by simp [shape, Shape.children]) element'
          (by simp [shape', Shape.children])).2.2
      | _ => rfl
    | void | label | int _ _ | float _ _ _ | function _ => rfl

/-! ### Types that are read are registered -/

theorem registered_of_shape (read : t.shape ty = .ok shape) : t.Registered ty := by
  obtain ⟨entry, found, -⟩ := shape_eq_ok.mp read
  exact registered_of_entry found

theorem registered_of_isStorable (reading : t.isStorable ty = .ok a) : t.Registered ty := by
  obtain ⟨shape, read, -⟩ := bind_eq_ok.mp reading
  exact registered_of_shape read

theorem registered_of_isPointer (reading : t.isPointer ty = .ok a) : t.Registered ty := by
  obtain ⟨shape, read, -⟩ := bind_eq_ok.mp reading
  exact registered_of_shape read

theorem registered_of_intBits? {a : Option Nat} (reading : t.intBits? ty = .ok a) :
    t.Registered ty := by
  obtain ⟨shape, read, -⟩ := bind_eq_ok.mp reading
  exact registered_of_shape read

theorem registered_of_floatBits? {a : Option Nat} (reading : t.floatBits? ty = .ok a) :
    t.Registered ty := by
  obtain ⟨shape, read, -⟩ := bind_eq_ok.mp reading
  exact registered_of_shape read

end TypeTable

end ValueGraph
