import Mathlib
import ValueGraph.Proofs.TypeTrees

namespace ValueGraph

/-!
# Rules of types

The rule that each kind of instruction sets for its own type and the types of its
operands, and the places that its operands have.  A rule never looks at const
qualifiers and never asks which of two equal types an operand has: types whose
trees agree can stand for each other, also when the table has grown in between.
-/

variable {others ops : List TypeId} {t t' : TypeTable}
  {ty other first first' second second' pointee : TypeId}

/-- A layer without the types that it is built from. -/
def Shape.withoutParts : Shape → Shape
  | .array _ length => .array .void length
  | .pointer _ => .pointer .void
  | .function signature => .function { signature with result := .void, params := [] }
  | shape => shape

namespace TypeTable

/-! ### Types that can stand for each other -/

/-- A type of one table and a type of a later one that agree but for const. -/
structure Alike (earlier later : TypeTable) (type other : TypeId) : Prop where
  registered : earlier.Registered type
  registeredOther : later.Registered other
  trees : later.tree .plain other = earlier.tree .plain type

namespace Alike

/-- A type stands for itself when the table grows. -/
theorem of_extends (grows : t.Extends t') (lay : t.Layered) (reg : t.Registered ty) :
    t.Alike t' ty ty :=
  ⟨reg, grows.registered reg, grows.tree_eq lay reg⟩

theorem of_equal (lay : t.Layered) (reg : t.Registered ty) (registeredOther : t.Registered other)
    (equal : t.equal ty other = .ok true) : t.Alike t ty other :=
  ⟨reg, registeredOther, ((lay.equal_iff reg registeredOther).mp equal).symm⟩

section Questions

variable (alike : t.Alike t' ty other) (lay : t.Layered) (lay' : t'.Layered)

include alike lay lay'

theorem isInt : t'.isInt other = t.isInt ty := by
  rw [isInt_eq lay' alike.registeredOther, alike.trees, ← isInt_eq lay alike.registered]

theorem isFloat : t'.isFloat other = t.isFloat ty := by
  rw [isFloat_eq lay' alike.registeredOther, alike.trees, ← isFloat_eq lay alike.registered]

theorem isPointer : t'.isPointer other = t.isPointer ty := by
  rw [isPointer_eq lay' alike.registeredOther, alike.trees, ← isPointer_eq lay alike.registered]

theorem isArithmetic : t'.isArithmetic other = t.isArithmetic ty := by
  rw [isArithmetic_eq lay' alike.registeredOther, alike.trees,
    ← isArithmetic_eq lay alike.registered]

theorem isStorable : t'.isStorable other = t.isStorable ty := by
  rw [isStorable_eq lay' alike.registeredOther, alike.trees, ← isStorable_eq lay alike.registered]

theorem intBits? : t'.intBits? other = t.intBits? ty := by
  rw [intBits?_eq lay' alike.registeredOther, alike.trees, ← intBits?_eq lay alike.registered]

theorem floatBits? : t'.floatBits? other = t.floatBits? ty := by
  rw [floatBits?_eq lay' alike.registeredOther, alike.trees, ← floatBits?_eq lay alike.registered]

theorem scalarBits? (pointerBits : t'.pointerBits = t.pointerBits) :
    t'.scalarBits? other = t.scalarBits? ty := by
  rw [scalarBits?_eq lay' alike.registeredOther, alike.trees, pointerBits,
    ← scalarBits?_eq lay alike.registered]

theorem pointee? (read : t.pointee? ty = .ok (some pointee)) :
    ∃ pointee', t'.pointee? other = .ok (some pointee') ∧ t.Alike t' pointee pointee' := by
  obtain ⟨a, readType, tree, known⟩ := pointee?_eq lay alike.registered .plain
  obtain ⟨answer', readOther, tree', known'⟩ := pointee?_eq lay' alike.registeredOther .plain
  obtain rfl : a = some pointee := Except.ok.inj (readType.symm.trans read)
  rw [alike.trees, tree] at tree'
  obtain ⟨pointee', rfl, agrees⟩ := Option.map_eq_some_iff.mp tree'.symm
  exact ⟨pointee', readOther, known pointee rfl, known' pointee' rfl, agrees⟩

theorem element? {element : TypeId} (read : t.element? ty = .ok (some element)) :
    ∃ element', t'.element? other = .ok (some element') ∧ t.Alike t' element element' := by
  obtain ⟨a, readType, tree, known⟩ := element?_eq lay alike.registered .plain
  obtain ⟨answer', readOther, tree', known'⟩ := element?_eq lay' alike.registeredOther .plain
  obtain rfl : a = some element := Except.ok.inj (readType.symm.trans read)
  rw [alike.trees, tree] at tree'
  obtain ⟨element', rfl, agrees⟩ := Option.map_eq_some_iff.mp tree'.symm
  exact ⟨element', readOther, known element rfl, known' element' rfl, agrees⟩

theorem signature? {sig : Signature} (read : t.signature? ty = .ok (some sig)) :
    ∃ signature', t'.signature? other = .ok (some signature') ∧
      t.Alike t' sig.result signature'.result ∧
        List.Forall₂ (t.Alike t') sig.params signature'.params ∧
          signature'.variadic = sig.variadic := by
  obtain ⟨a, readType, tree, known⟩ := signature?_eq lay alike.registered .plain
  obtain ⟨answer', readOther, tree', known'⟩ := signature?_eq lay' alike.registeredOther .plain
  obtain rfl : a = some sig := Except.ok.inj (readType.symm.trans read)
  rw [alike.trees, tree] at tree'
  obtain ⟨signature', rfl, agrees⟩ := Option.map_eq_some_iff.mp tree'.symm
  simp only [Prod.mk.injEq] at agrees
  obtain ⟨results, params, variadic⟩ := agrees
  obtain ⟨knownResult, knownParams⟩ := known sig rfl
  obtain ⟨knownResult', knownParams'⟩ := known' signature' rfl
  refine ⟨signature', readOther, ⟨knownResult, knownResult', results⟩, ?_, variadic⟩
  have lengths := congrArg List.length params
  rw [List.length_map, List.length_map] at lengths
  rw [List.forall₂_iff_get]
  refine ⟨lengths.symm, fun k lt inBounds' => ⟨knownParams _ (by simp),
    knownParams' _ (by simp), ?_⟩⟩
  have entries := congrArg (·[k]?) params
  simpa [lt, inBounds'] using entries

end Questions

/-- Equality is a question about trees. -/
theorem equal (alike : t.Alike t' first first') (alike' : t.Alike t' second second')
    (lay : t.Layered) (lay' : t'.Layered) : t'.equal first' second' = t.equal first second := by
  obtain ⟨a, read⟩ := lay.equal_answers alike.registered alike'.registered
  obtain ⟨answer', read'⟩ := lay'.equal_answers alike.registeredOther alike'.registeredOther
  have meaning := lay.equal_iff alike.registered alike'.registered
  have meaning' := lay'.equal_iff alike.registeredOther alike'.registeredOther
  rw [alike.trees, alike'.trees, ← meaning, read, read', Except.ok.injEq, Except.ok.injEq]
    at meaning'
  rw [read, read', Bool.eq_iff_iff.mpr meaning']

/-- The outermost layers agree but for the types that they are built from. -/
theorem shapes (alike : t.Alike t' ty other) (lay : t.Layered) (lay' : t'.Layered) :
    ∃ shape shape', t.shape ty = .ok shape ∧ t'.shape other = .ok shape' ∧
      shape'.withoutParts = shape.withoutParts := by
  obtain ⟨entry, read, tree, -⟩ := lay.shape_and_tree .plain alike.registered
  obtain ⟨entry', read', tree', -⟩ := lay'.shape_and_tree .plain alike.registeredOther
  refine ⟨_, _, read, read', ?_⟩
  have agrees := alike.trees
  rw [tree, tree'] at agrees
  unfold TypeEntry.tree at agrees
  cases shape : entry.shape <;> cases shape' : entry'.shape <;>
    simp_all [Detail.plain, Shape.withoutParts]

section

variable (alike : t.Alike t' first first') (alike' : t.Alike t' second second') (lay : t.Layered)
include alike alike' lay

theorem sameWidth (lay' : t'.Layered) (pointerBits : t'.pointerBits = t.pointerBits) :
    t'.sameWidth first' second' = t.sameWidth first second := by
  rw [TypeTable.sameWidth, TypeTable.sameWidth, alike.scalarBits? lay lay' pointerBits,
    alike'.scalarBits? lay lay' pointerBits]

/-- Whether a value can be reinterpreted does not depend on const qualifiers. -/
theorem reinterpret (lay' : t'.Layered) (pointerBits : t'.pointerBits = t.pointerBits)
    {ways : Conversions} (reading : t.conversions first second = .ok ways) :
    ∃ ways', t'.conversions first' second' = .ok ways' ∧ ways'.reinterpret = ways.reinterpret := by
  unfold conversions at reading ⊢
  obtain ⟨width, readWidth, reading⟩ := bind_eq_ok.mp reading
  obtain ⟨agree, readAgree, reading⟩ := bind_eq_ok.mp reading
  rw [alike.sameWidth alike' lay lay' pointerBits, readWidth]
  simp only [bind, Except.bind]
  rw [alike.equal alike' lay lay', readAgree]
  cases agree with
  | true =>
    obtain ⟨drops, -, read⟩ := bind_eq_ok.mp reading
    have readDrops := lay'.dropsConstWithin_eq alike.registeredOther alike'.registeredOther
      (Nat.lt_succ_self _)
    obtain rfl := pure_eq_ok.mp read
    simp only [if_true, dropsConst, readDrops]
    exact ⟨_, rfl, rfl⟩
  | false =>
    obtain ⟨shape, shape', readShape, readShape', parts⟩ := alike.shapes lay lay'
    obtain ⟨tgt, target', readTarget, readTarget', targetParts⟩ := alike'.shapes lay lay'
    simp only [Bool.false_eq_true, if_false, readShape, readTarget, readShape', readTarget', bind,
      Except.bind] at reading ⊢
    clear readShape readShape' readTarget readTarget'
    cases shape <;> cases shape' <;> simp only [Shape.withoutParts, reduceCtorEq] at parts <;>
      cases tgt <;> cases target' <;>
        simp only [Shape.withoutParts, reduceCtorEq] at targetParts <;>
          exact ⟨ways, reading, rfl⟩

/-- A conversion operator applies to types that stand for those that it applies to. -/
theorem castApplies {op : CastOp} (lay' : t'.Layered)
    (pointerBits : t'.pointerBits = t.pointerBits)
    (applies : t.castApplies op first second = .ok true) :
    t'.castApplies op first' second' = .ok true := by
  unfold TypeTable.castApplies at applies ⊢
  cases op with
  | bitcast =>
    obtain ⟨ways, reading, read⟩ := bind_eq_ok.mp applies
    obtain ⟨ways', read', eq⟩ := alike.reinterpret alike' lay lay' pointerBits reading
    refine bind_eq_ok.mpr ⟨ways', read', ?_⟩
    rw [eq]
    exact read
  | _ =>
    simp only [alike.intBits? lay lay', alike'.intBits? lay lay',
      alike.floatBits? lay lay', alike'.floatBits? lay lay',
      alike.isInt lay lay', alike'.isInt lay lay',
      alike.isFloat lay lay', alike'.isFloat lay lay',
      alike.isPointer lay lay', alike'.isPointer lay lay']
    exact applies

end

end Alike

end TypeTable

/-! ### Rules -/

namespace TypeTable

/-- The type reached from another by stepping through so many pointer or array layers. -/
def layer? (types : TypeTable) : Nat → TypeId → Except Fault (Option TypeId)
  | 0, type => return some type
  | count + 1, type => do
      match ← types.element? type with
      | some element => types.layer? count element
      | none => return none

/-- Arguments agree with the parameters that they are given for; what goes beyond the
parameters can be stored. -/
def ArgumentsFit (types : TypeTable) : List TypeId → List TypeId → Prop
  | [], _ => True
  | argument :: rest, param :: params =>
    types.equal argument param = .ok true ∧ types.ArgumentsFit rest params
  | argument :: rest, [] =>
    types.isStorable argument = .ok true ∧ types.ArgumentsFit rest []

end TypeTable

/-- The rule that an operator with two operands sets for them. -/
def BinaryOp.Fits (types : TypeTable) (op : BinaryOp) (left right : TypeId) : Prop :=
  if op.isShift then
    types.isInt left = .ok true ∧ types.isInt right = .ok true
  else
    types.equal left right = .ok true ∧ types.isArithmetic left = .ok true ∧
      (op.isIntegerOnly = true → types.isInt left = .ok true)

/-- The rule that an operator with one operand sets for it. -/
def UnaryOp.Fits (types : TypeTable) (value : TypeId) : UnaryOp → Prop
  | .neg => types.isArithmetic value = .ok true
  | .not => types.isInt value = .ok true

/-- The rule that a kind of instruction sets for its own type and for the types of its
operands. -/
def InstKind.Fits (types : TypeTable) (own : TypeId) (operands : List TypeId) : InstKind → Prop
  | .binary op => ∃ left right, operands = [left, right] ∧ op.Fits types left right ∧
      types.equal own left = .ok true
  | .compare _ => ∃ left right, operands = [left, right] ∧ types.equal left right = .ok true ∧
      (types.isArithmetic left = .ok true ∨ types.isPointer left = .ok true) ∧ own = .bool
  | .unary op => ∃ value, operands = [value] ∧ op.Fits types value ∧
      types.equal own value = .ok true
  | .cast op => ∃ value, operands = [value] ∧ types.castApplies op value own = .ok true ∧
      types.isStorable own = .ok true
  | .alloca allocated _ => operands = [] ∧ types.isStorable allocated = .ok true ∧
      types.pointee? own = .ok (some allocated)
  | .load _ => ∃ pointer pointee, operands = [pointer] ∧
      types.pointee? pointer = .ok (some pointee) ∧ types.isStorable pointee = .ok true ∧
      types.equal own pointee = .ok true
  | .store _ => ∃ value pointer pointee, operands = [value, pointer] ∧
      types.pointee? pointer = .ok (some pointee) ∧ types.isStorable pointee = .ok true ∧
      types.equal value pointee = .ok true ∧ own = .void
  | .elementPtr => ∃ base indices layer pointee, operands = base :: indices ∧ indices ≠ [] ∧
      types.isPointer base = .ok true ∧ (∀ index ∈ indices, types.isInt index = .ok true) ∧
      types.layer? indices.length base = .ok (some layer) ∧
      types.pointee? own = .ok (some pointee) ∧ types.equal pointee layer = .ok true
  | .phi => types.isStorable own = .ok true ∧ ∀ entry ∈ operands, types.equal entry own = .ok true
  | .call => ∃ callee arguments type signature, operands = callee :: arguments ∧
      types.pointee? callee = .ok (some type) ∧ types.signature? type = .ok (some signature) ∧
      signature.accepts arguments.length = true ∧
      types.ArgumentsFit arguments signature.params ∧
      types.equal own signature.result = .ok true
  | .select => ∃ condition onTrue onFalse, operands = [condition, onTrue, onFalse] ∧
      types.equal condition .bool = .ok true ∧ types.equal onTrue onFalse = .ok true ∧
      types.isStorable onTrue = .ok true ∧ types.equal own onTrue = .ok true
  | .regWrite => ∃ register value, operands = [register, value] ∧
      types.equal value register = .ok true ∧ types.isStorable register = .ok true ∧ own = .void
  | .ret => (operands = [] ∨ ∃ value, operands = [value] ∧ types.isStorable value = .ok true) ∧
      own = .void
  | .br => ∃ target, operands = [target] ∧ own = .void
  | .condBr => ∃ condition onTrue onFalse, operands = [condition, onTrue, onFalse] ∧
      types.equal condition .bool = .ok true ∧ own = .void
  | .switch _ => ∃ condition targets, operands = condition :: targets ∧
      types.isInt condition = .ok true ∧ own = .void
  | .unreachable => operands = [] ∧ own = .void

/-- The places of the operands of an instruction of some kind, in operand order: its
fixed parts first, then a list of any length. -/
def InstKind.Lays (slots : List Slot) : InstKind → Prop
  | .alloca _ _ | .unreachable => slots = []
  | .unary _ | .cast _ | .load _ | .br => slots = [.fixed 0]
  | .binary _ | .compare _ | .store _ | .regWrite => slots = [.fixed 0, .fixed 1]
  | .select | .condBr => slots = [.fixed 0, .fixed 1, .fixed 2]
  | .ret => slots = [] ∨ slots = [.fixed 0]
  | .elementPtr | .call => ∃ count, slots = .fixed 0 :: (List.range count).map .indexed
  | .phi => ∃ keys : List BlockId, keys.Nodup ∧ slots = keys.map .keyed
  | .switch cases => slots = .fixed 0 :: .fixed 1 :: (List.range cases.length).map .indexed

/-! ### Rules do not look at const -/

namespace TypeTable.Alike

theorem layer? (lay : t.Layered) (lay' : t'.Layered) {count : Nat} {layer : TypeId}
    (alike : t.Alike t' ty other) (read : t.layer? count ty = .ok (some layer)) :
    ∃ layer', t'.layer? count other = .ok (some layer') ∧ t.Alike t' layer layer' := by
  induction count generalizing ty other with
  | zero =>
    obtain rfl : ty = layer := by simpa [TypeTable.layer?, pure_eq_ok] using read
    exact ⟨other, rfl, alike⟩
  | succ count ih =>
    obtain ⟨element, readElement, read⟩ := bind_eq_ok.mp read
    cases element with
    | none => simp [pure_eq_ok] at read
    | some element =>
      obtain ⟨element', readElement', alikeElement⟩ := alike.element? lay lay' readElement
      obtain ⟨layer', readLayer', alikeLayer⟩ := ih alikeElement read
      refine ⟨layer', ?_, alikeLayer⟩
      exact bind_eq_ok.mpr ⟨some element', readElement', readLayer'⟩

theorem argumentsFit (lay : t.Layered) (lay' : t'.Layered)
    {args arguments' params params' : List TypeId}
    (alike : List.Forall₂ (t.Alike t') args arguments')
    (alikeParams : List.Forall₂ (t.Alike t') params params') (fits : t.ArgumentsFit args params) :
    t'.ArgumentsFit arguments' params' := by
  induction alike generalizing params params' with
  | nil => trivial
  | cons here _ ih =>
    cases alikeParams with
    | nil =>
      refine ⟨?_, ih .nil fits.2⟩
      rw [here.isStorable lay lay']
      exact fits.1
    | cons hereParam thereParams =>
      refine ⟨?_, ih thereParams fits.2⟩
      rw [here.equal hereParam lay lay']
      exact fits.1

theorem binaryFits {op : BinaryOp} (alike : t.Alike t' first first')
    (alike' : t.Alike t' second second') (lay : t.Layered) (lay' : t'.Layered)
    (fits : op.Fits t first second) : op.Fits t' first' second' := by
  unfold BinaryOp.Fits at fits ⊢
  rwa [alike.isInt lay lay', alike'.isInt lay lay',
    alike.equal alike' lay lay', alike.isArithmetic lay lay']

theorem unaryFits {op : UnaryOp} (alike : t.Alike t' ty other) (lay : t.Layered) (lay' : t'.Layered)
    (fits : op.Fits t ty) : op.Fits t' other := by
  cases op with
  | neg => exact (alike.isArithmetic lay lay').trans fits
  | not => exact (alike.isInt lay lay').trans fits

end TypeTable.Alike

/-- The outermost layer of a type that was registered does not change. -/
theorem TypeTable.Extends.shape {shape : Shape} (grows : t.Extends t')
    (read : t.shape ty = .ok shape) : t'.shape ty = .ok shape := by
  obtain ⟨entry, h, rfl⟩ := shape_eq_ok.mp read
  exact shape_eq_ok.mpr ⟨entry, grows.entries _ _ h, rfl⟩

/-- What a pointer type was registered as pointing at does not change. -/
theorem TypeTable.Extends.pointee? (grows : t.Extends t')
    (reading : t.pointee? ty = .ok (some pointee)) : t'.pointee? ty = .ok (some pointee) := by
  obtain ⟨shape, readShape, read⟩ := bind_eq_ok.mp reading
  exact bind_eq_ok.mpr ⟨shape, grows.shape readShape, read⟩

/-- A type that was registered as const or not stays so. -/
theorem TypeTable.Extends.isConst {qualified : Bool} (grows : t.Extends t')
    (reading : t.isConst ty = .ok qualified) : t'.isConst ty = .ok qualified := by
  obtain ⟨entry, read, isQualified⟩ := bind_eq_ok.mp reading
  exact bind_eq_ok.mpr ⟨entry, entry_eq_ok.mpr (grows.entries _ _ (entry_eq_ok.mp read)),
    isQualified⟩

/-! ### Returned values -/

namespace TypeTable

/-- The type that functions of some type return. -/
def Yields (types : TypeTable) (type result : TypeId) : Prop :=
  ∃ answer, types.signature? type = .ok answer ∧ result = answer.elim TypeId.void (·.result)

/-- What can be returned where some type is: one value of an equal type, or nothing in the
place of void. -/
def Returned (types : TypeTable) (result : TypeId) : List TypeId → Prop
  | [] => types.isVoid result = .ok true
  | [type] => types.equal type result = .ok true
  | _ => False

variable {res : TypeId}

theorem Extends.yields (grows : t.Extends t') (yields : t.Yields ty res) : t'.Yields ty res := by
  obtain ⟨a, reading, isResult⟩ := yields
  obtain ⟨shape, readShape, read⟩ := bind_eq_ok.mp reading
  exact ⟨a, bind_eq_ok.mpr ⟨shape, grows.shape readShape, read⟩, isResult⟩

/-- Functions return types that are registered. -/
theorem Yields.registered (yields : t.Yields ty res) (lay : t.Layered)
    (builtin : t.Registered .void) : t.Registered res := by
  obtain ⟨a, read, rfl⟩ := yields
  obtain ⟨shape, readShape, -⟩ := bind_eq_ok.mp read
  obtain ⟨_, hr', -, parts⟩ := signature?_eq lay (registered_of_shape readShape) .plain
  obtain rfl := Except.ok.inj (read.symm.trans hr')
  cases a with
  | none => exact builtin
  | some sig => exact (parts sig rfl).1

/-- What can be returned can still be returned when the table has grown and what is returned
has another type that agrees but for const. -/
theorem Returned.congr (returned : t.Returned res ops) (grows : t.Extends t') (lay : t.Layered)
    (reg : t.Registered res) (alike : List.Forall₂ (t.Alike t') ops others) :
    t'.Returned res others := by
  cases alike with
  | nil =>
    obtain ⟨shape, read, isVoid⟩ := bind_eq_ok.mp returned
    exact bind_eq_ok.mpr ⟨shape, grows.shape read, isVoid⟩
  | cons first rest =>
    cases rest with
    | nil =>
      have eq := first.equal (.of_extends grows lay reg) lay (grows.layered lay)
      exact eq.trans returned
    | cons => exact returned.elim

end TypeTable

/-- What holds of every type of a list holds of the types that stand for them. -/
theorem forall_of_alike {holds holdsLater : TypeId → Prop} {types : List TypeId}
    (alike : List.Forall₂ (t.Alike t') types others)
    (carry : ∀ {ty type}, t.Alike t' ty type → holds ty → holdsLater type)
    (all : ∀ ty ∈ types, holds ty) :
    ∀ type ∈ others, holdsLater type := by
  induction alike with
  | nil => simp
  | cons here _ ih =>
    rw [List.forall_mem_cons] at all ⊢
    exact ⟨carry here all.1, ih all.2⟩

/-- A rule that holds goes on to hold when the table grows and operands get other types
that agree but for const. -/
theorem InstKind.Fits.congr {own : TypeId} {kind : InstKind} (grows : t.Extends t')
    (lay : t.Layered) (reg : t.Registered own) (builtin : t.Registered .bool)
    (alike : List.Forall₂ (t.Alike t') ops others) (fits : kind.Fits t own ops) :
    kind.Fits t' own others := by
  have lay' := grows.layered lay
  have ownAlike := TypeTable.Alike.of_extends grows lay reg
  have boolAlike := TypeTable.Alike.of_extends grows lay builtin
  cases kind with
  | binary op =>
    obtain ⟨left, right, rfl, rule, res⟩ := fits
    obtain _ | ⟨alikeLeft, _ | ⟨alikeRight, _ | _⟩⟩ := alike
    exact ⟨_, _, rfl, alikeLeft.binaryFits alikeRight lay lay' rule,
      (ownAlike.equal alikeLeft lay lay').trans res⟩
  | compare comparison =>
    obtain ⟨left, right, rfl, agree, scalar, res⟩ := fits
    obtain _ | ⟨alikeLeft, _ | ⟨alikeRight, _ | _⟩⟩ := alike
    refine ⟨_, _, rfl, (alikeLeft.equal alikeRight lay lay').trans agree, ?_, res⟩
    rwa [alikeLeft.isArithmetic lay lay', alikeLeft.isPointer lay lay']
  | unary op =>
    obtain ⟨v, rfl, rule, res⟩ := fits
    obtain _ | ⟨alikeValue, _ | _⟩ := alike
    exact ⟨_, rfl, alikeValue.unaryFits lay lay' rule,
      (ownAlike.equal alikeValue lay lay').trans res⟩
  | cast op =>
    obtain ⟨v, rfl, applies, storable⟩ := fits
    obtain _ | ⟨alikeValue, _ | _⟩ := alike
    exact ⟨_, rfl, alikeValue.castApplies ownAlike lay lay' grows.pointerBits applies,
      (ownAlike.isStorable lay lay').trans storable⟩
  | alloca allocated align =>
    obtain ⟨rfl, storable, pointer⟩ := fits
    obtain _ | _ := alike
    have allocatedAlike := TypeTable.Alike.of_extends grows lay
      (TypeTable.registered_of_isStorable storable)
    exact ⟨rfl, (allocatedAlike.isStorable lay lay').trans storable, grows.pointee? pointer⟩
  | load align =>
    obtain ⟨pointer, pointee, rfl, read, storable, res⟩ := fits
    obtain _ | ⟨alikePointer, _ | _⟩ := alike
    obtain ⟨pointee', read', alikePointee⟩ := alikePointer.pointee? lay lay' read
    exact ⟨_, pointee', rfl, read', (alikePointee.isStorable lay lay').trans storable,
      (ownAlike.equal alikePointee lay lay').trans res⟩
  | store align =>
    obtain ⟨v, pointer, pointee, rfl, read, storable, agree, res⟩ := fits
    obtain _ | ⟨alikeValue, _ | ⟨alikePointer, _ | _⟩⟩ := alike
    obtain ⟨pointee', read', alikePointee⟩ := alikePointer.pointee? lay lay' read
    exact ⟨_, _, pointee', rfl, read', (alikePointee.isStorable lay lay').trans storable,
      (alikeValue.equal alikePointee lay lay').trans agree, res⟩
  | elementPtr =>
    obtain ⟨base, indices, layer, pointee, rfl, some, pointer, ints, read, res, agree⟩ := fits
    obtain _ | ⟨alikeBase, alikeIndices⟩ := alike
    rename_i base' indices'
    obtain ⟨layer', read', alikeLayer⟩ := alikeBase.layer? lay lay' read
    have lengths := alikeIndices.length_eq
    have pointeeKnown : t.Registered pointee := by
      obtain ⟨a, readAnswer, -, known⟩ := TypeTable.pointee?_eq lay reg .plain
      obtain rfl : a = Option.some pointee := Except.ok.inj (readAnswer.symm.trans res)
      exact known pointee rfl
    have pointeeAlike := TypeTable.Alike.of_extends grows lay pointeeKnown
    refine ⟨base', indices', layer', pointee, rfl, ?_,
      (alikeBase.isPointer lay lay').trans pointer, ?_, lengths ▸ read',
      grows.pointee? res, (pointeeAlike.equal alikeLayer lay lay').trans agree⟩
    · rintro rfl
      exact some (List.forall₂_nil_right_iff.mp alikeIndices)
    · exact forall_of_alike alikeIndices
        (fun alikeIndex isInt => (alikeIndex.isInt lay lay').trans isInt) ints
  | phi =>
    obtain ⟨storable, agree⟩ := fits
    exact ⟨(ownAlike.isStorable lay lay').trans storable, forall_of_alike alike
        (fun alikeEntry eq => (alikeEntry.equal ownAlike lay lay').trans eq) agree⟩
  | call =>
    obtain ⟨callee, args, ty, sig, rfl, read, readSignature, accepts, fits, res⟩ := fits
    obtain _ | ⟨alikeCallee, alikeArguments⟩ := alike
    obtain ⟨type', read', alikeType⟩ := alikeCallee.pointee? lay lay' read
    obtain ⟨signature', readSignature', alikeResult, alikeParams, variadic⟩ :=
      alikeType.signature? lay lay' readSignature
    refine ⟨_, _, type', signature', rfl, read', readSignature', ?_,
      TypeTable.Alike.argumentsFit lay lay' alikeArguments alikeParams fits,
      (ownAlike.equal alikeResult lay lay').trans res⟩
    rwa [Signature.accepts, variadic, ← alikeArguments.length_eq, ← alikeParams.length_eq,
      ← Signature.accepts]
  | select =>
    obtain ⟨cond, onTrue, onFalse, rfl, isBool, agree, storable, res⟩ := fits
    obtain _ | ⟨alikeCondition, _ | ⟨alikeTrue, _ | ⟨alikeFalse, _ | _⟩⟩⟩ := alike
    exact ⟨_, _, _, rfl, (alikeCondition.equal boolAlike lay lay').trans isBool,
      (alikeTrue.equal alikeFalse lay lay').trans agree,
      (alikeTrue.isStorable lay lay').trans storable,
      (ownAlike.equal alikeTrue lay lay').trans res⟩
  | regWrite =>
    obtain ⟨r, v, rfl, agree, storable, res⟩ := fits
    obtain _ | ⟨alikeRegister, _ | ⟨alikeValue, _ | _⟩⟩ := alike
    exact ⟨_, _, rfl, (alikeValue.equal alikeRegister lay lay').trans agree,
      (alikeRegister.isStorable lay lay').trans storable, res⟩
  | ret =>
    obtain ⟨rfl | ⟨v, rfl, storable⟩, res⟩ := fits
    · obtain _ | _ := alike
      exact ⟨Or.inl rfl, res⟩
    · obtain _ | ⟨alikeValue, _ | _⟩ := alike
      exact ⟨Or.inr ⟨_, rfl, (alikeValue.isStorable lay lay').trans storable⟩, res⟩
  | br =>
    obtain ⟨tgt, rfl, res⟩ := fits
    obtain _ | ⟨-, _ | _⟩ := alike
    exact ⟨_, rfl, res⟩
  | condBr =>
    obtain ⟨cond, onTrue, onFalse, rfl, isBool, res⟩ := fits
    obtain _ | ⟨alikeCondition, _ | ⟨-, _ | ⟨-, _ | _⟩⟩⟩ := alike
    exact ⟨_, _, _, rfl, (alikeCondition.equal boolAlike lay lay').trans isBool, res⟩
  | switch cases =>
    obtain ⟨cond, targets, rfl, isInt, res⟩ := fits
    obtain _ | ⟨alikeCondition, -⟩ := alike
    exact ⟨_, _, rfl, (alikeCondition.isInt lay lay').trans isInt, res⟩
  | unreachable =>
    obtain ⟨rfl, res⟩ := fits
    obtain _ | _ := alike
    exact ⟨rfl, res⟩

end ValueGraph
