import Mathlib
import ValueGraph.Proofs.Building

namespace ValueGraph

open Program List Option

/-!
# Factories

Every factory looks at its operands, may register the type of its result, and then
adds an instruction that conforms.
-/

variable {s p q typed : Program} {v left right cond pointer callee : ValueId}
  {operand : Slot × ValueId} {op : BinaryOp} {a : Unit} {indices args : List ValueId}
  {align : Option UInt32} {r : RegId} {pr : Promise} {ty res tgt : TypeId} {i write : InstId}
  {kind : InstKind}

/-! ### Types that are registered on the way -/

namespace Program

/-- The table of types has grown and nothing else is different. -/
structure Retyped (before after : Program) : Prop where
  others : after = { before with types := after.types }
  grows : before.types.Extends after.types

namespace Retyped

theorem refl (s : Program) : s.Retyped s :=
  ⟨rfl, .refl _⟩

section

variable (retyped : p.Retyped q)
include retyped

theorem relabels : p.Relabels q := by
  rw [retyped.others]
  exact .of_same rfl rfl retyped.grows

theorem catalogue (cat : p.Catalogue) : q.Catalogue := by
  rw [retyped.others]
  exact ⟨cat.functions, cat.globals, cat.named, cat.functionsNodup,
    cat.globalsNodup, cat.namesNodup, cat.labels, cat.entered,
    cat.texts⟩

theorem shapes : p.Shapes pr q :=
  .relabel retyped.relabels retyped.catalogue <| .of_same (by rw [retyped.others])
    (by rw [retyped.others]) (by rw [retyped.others])

theorem sound (hs : p.Sound) : q.Sound :=
  hs.of_relabels retyped.relabels (retyped.catalogue hs.catalogue)

theorem facet? : q.facet? = p.facet? := by
  rw [retyped.others]
  rfl

theorem values : q.values = p.values := by
  rw [retyped.others]

theorem tally (hs : p.Sound) : p.Tally q 0 := by
  have listed : q.listed = p.listed := by
    rw [retyped.others]
    rfl
  refine (retyped.relabels.tally hs.catalogue (retyped.catalogue hs.catalogue)).of_eq ?_
  rw [listed, sub_self]

/-- A type that was registered stands for itself. -/
theorem alike (hs : p.Sound) (reg : p.types.Registered ty) : p.types.Alike q.types ty ty :=
  .of_extends retyped.grows hs.registry.layered reg

end

end Retyped

/-- A new instruction goes to the client. -/
theorem Leads.of_built (hs : p.Sound) (retyped : p.Retyped typed)
    (built : typed.Built q i ty kind) : p.Leads pr q (Pi.single i 1) := by
  have grows : p.values.Grows typed.values := by
    rw [retyped.values]
    exact .refl _
  refine .of_grown (.tail (.single (.shape retyped.shapes grows)) (.build i ty kind built)) ?_
  exact ((retyped.tally hs).trans (built.tally (retyped.sound hs))).of_eq (zero_add _)

/-! ### Readings of operands -/

theorem operandType_eq_ok {role : Role} (read : s.operandType v role = .ok ty) :
    s.type? v = some ty := by
  simp only [operandType, bind_eq_ok, liftHalt_eq_ok, typeOf_eq_ok] at read
  obtain ⟨-, -, n, h, isType⟩ := read
  rw [type?, h, map_some, isType]

/-- The type of the node behind a handle; of no node, `void`. -/
def typeAt (program : Program) (value : ValueId) : TypeId :=
  (program.type? value).getD .void

theorem typeAt_eq (h : s.type? v = some ty) : s.typeAt v = ty := by
  rw [typeAt, h, getD_some]

/-- What an instruction sees of an operand that is there. -/
def shown (program : Program) (operand : Slot × ValueId) : Facet :=
  { slot := operand.1
    type := program.typeAt operand.2
    isBlock := program.isBlock operand.2 }

theorem facet?_eq_shown (live : ∃ type, s.type? operand.2 = some type) :
    s.facet? operand.1 operand.2 = some (s.shown operand) := by
  obtain ⟨type, h⟩ := live
  rw [facet?, shown, typeAt, h]
  rfl

end Program

namespace Step

variable {type : TypeId}

theorem requestType_spec {request : TypeRequest} (hs : p.Sound)
    (run : (requestType request).run p = .ok (res, q)) :
    p.Retyped q ∧ ∃ entry, request.entry? p.types = some entry ∧
      q.types.entries[res.index]? = some entry := by
  unfold requestType at run
  simp only [run_bind, run_get, run_lift, run_set, run_pure] at run
  obtain ⟨_, _, ⟨rfl, rfl⟩, ⟨_, types⟩, _, ⟨answered, rfl⟩, _, _, rfl, rfl, rfl⟩ := run
  obtain ⟨grows, found⟩ := TypeTable.answer_spec hs.registry.layered answered
  exact ⟨⟨rfl, grows⟩, found⟩

/-- Leaving out const gives an equal type. -/
theorem dropConst_spec (hs : p.Sound) (run : (dropConst type).run p = .ok (res, q)) :
    p.Retyped q ∧ q.types.Registered res ∧ q.types.equal res type = .ok true := by
  obtain ⟨retyped, _, asked, foundLater⟩ := requestType_spec hs run
  obtain ⟨entry, found, rfl⟩ := map_eq_some_iff.mp asked
  have grows := retyped.grows
  have reg := TypeTable.registered_of_entry foundLater
  have registeredType := grows.registered (TypeTable.registered_of_entry found)
  have lay := grows.layered hs.registry.layered
  refine ⟨retyped, reg, (lay.equal_iff reg registeredType).mpr ?_⟩
  rw [lay.tree_eq foundLater, lay.tree_eq (grows.entries _ _ found)]
  rfl

/-- A pointer points at the type that it was asked for. -/
theorem pointerTo_spec (hs : p.Sound) (run : (pointerTo type).run p = .ok (res, q)) :
    p.Retyped q ∧ q.types.Registered res ∧ q.types.pointee? res = .ok (some type) := by
  obtain ⟨retyped, _, asked, found⟩ := requestType_spec hs run
  cases asked
  refine ⟨retyped, TypeTable.registered_of_entry found, ?_⟩
  rw [TypeTable.pointee?, TypeTable.shape_eq_ok.mpr ⟨_, found, rfl⟩]
  rfl

variable {ops : List (Slot × ValueId)}

section

variable (hs : p.Sound) (retyped : p.Retyped typed)
  (run : (addInst type kind ops).run typed = .ok (i, q))
include hs retyped run

/-- An instruction whose operands a factory has looked at, after it has registered the
type of the result. -/
theorem addInst_fitted (reg : typed.types.Registered type)
    (live : ∀ operand ∈ ops, ∃ other, p.type? operand.2 = some other)
    (opens : kind.Opens (ops.map (·.1)))
    (fits : kind.Fits typed.types type (ops.map fun operand => p.typeAt operand.2))
    (targets : ∀ operand ∈ ops, kind.isTargetSlot operand.1 = true → p.isBlock operand.2 = true)
    (rules : ∀ operand ∈ ops, ∀ rule, kind.rule? operand.1 = some rule →
      typed.Meets operand.2 rule) :
    typed.Built q i type kind ∧ (q.operandsOf i).map q.edges.get? =
        ops.map fun (slot, v) => some { user := i, value := v, slot } := by
  have seen : ops.map (fun operand => typed.facet? operand.1 operand.2) =
      (ops.map p.shown).map some := by
    rw [List.map_map, retyped.facet?]
    exact map_congr_left fun operand mem => facet?_eq_shown (live operand mem)
  have accepts : kind.Accepts typed.types type (ops.map p.shown) :=
    { lays := by
        rw [List.map_map]
        exact opens.lays
      fits := by
        rw [List.map_map]
        exact fits
      targets := by
        intro facet mem ht
        obtain ⟨operand, inOperands, rfl⟩ := mem_map.mp mem
        exact targets operand inOperands ht
      differ := opens.differ }
  exact addInst_built (retyped.sound hs) reg seen accepts
    (fun operand mem => opens.unkeyed (mem_map_of_mem mem)) rules run

theorem addInst_leads (reg : typed.types.Registered type)
    (live : ∀ operand ∈ ops, ∃ other, p.type? operand.2 = some other)
    (opens : kind.Opens (ops.map (·.1)))
    (fits : kind.Fits typed.types type (ops.map fun operand => p.typeAt operand.2))
    (targets : ∀ operand ∈ ops, kind.isTargetSlot operand.1 = true → p.isBlock operand.2 = true)
    (rules : ∀ operand ∈ ops, ∀ rule, kind.rule? operand.1 = some rule →
      typed.Meets operand.2 rule) : p.Leads pr q (Pi.single i 1) :=
  .of_built hs retyped (addInst_fitted hs retyped run reg live opens fits targets rules).1

end

end Step

/-! ### Scalars -/

section Scalars

theorem Program.checkBinary_eq_ok {left right : TypeId}
    (checked : p.checkBinary op left right = .ok a) : op.Fits p.types left right := by
  unfold checkBinary at checked
  unfold BinaryOp.Fits
  split at checked
  next isShift =>
    simp only [bind_eq_ok, liftHalt_eq_ok, require_eq_ok] at checked
    obtain ⟨_, isInt, _, rfl, _, isIntRight, rfl⟩ := checked
    rw [if_pos isShift]
    exact ⟨isInt, isIntRight⟩
  next notShift =>
    rw [if_neg notShift]
    simp only [bind_eq_ok, liftHalt_eq_ok, require_eq_ok] at checked
    obtain ⟨_, agree, _, rfl, checked⟩ := checked
    split at checked
    next =>
      simp only [bind_eq_ok, liftHalt_eq_ok, require_eq_ok] at checked
      obtain ⟨_, isInt, _, rfl, _, isArithmetic, rfl⟩ := checked
      exact ⟨agree, isArithmetic, fun _ => isInt⟩
    next notIntegerOnly =>
      simp only [bind_eq_ok, liftHalt_eq_ok, require_eq_ok] at checked
      obtain ⟨_, isArithmetic, rfl⟩ := checked
      exact ⟨agree, isArithmetic, fun integerOnly => absurd integerOnly notIntegerOnly⟩

theorem Program.requireStorable_eq_ok {rule : TypeRule}
    (checked : p.requireStorable ty rule = .ok a) :
    p.types.isStorable ty = .ok true := by
  simp only [requireStorable, bind_eq_ok, liftHalt_eq_ok, require_eq_ok] at checked
  obtain ⟨_, isStorable, rfl⟩ := checked
  exact isStorable

variable (hs : p.Sound)
include hs

theorem buildBinary_leads (run : buildBinary op left right p = .done i q) :
    p.Leads pr q (Pi.single i 1) := by
  simp only [buildBinary, Edit.plan_eq_done, bind_eq_ok, pure_eq_ok] at run
  obtain ⟨_, ⟨leftType, readLeft, rightType, readRight, _, checked, rfl⟩, run⟩ := run
  obtain ⟨type, typed, runType, runAdd⟩ := Step.run_bind.mp run
  have hLeft := operandType_eq_ok readLeft
  have hRight := operandType_eq_ok readRight
  obtain ⟨retyped, reg, agrees⟩ := Step.dropConst_spec hs runType
  have fits : op.Fits typed.types leftType rightType :=
    (retyped.alike hs (hs.registry.nodes _ _ hLeft)).binaryFits
      (retyped.alike hs (hs.registry.nodes _ _ hRight)) hs.registry.layered
      (retyped.sound hs).registry.layered (checkBinary_eq_ok checked)
  refine Step.addInst_leads hs retyped runAdd reg ?_ rfl ?_ (by simp [InstKind.isTargetSlot])
    (by simp [InstKind.rule?])
  · simp [hLeft, hRight]
  · simpa [InstKind.Fits, typeAt_eq hLeft, typeAt_eq hRight] using ⟨fits, agrees⟩

theorem buildCompare_leads {comparison : Comparison}
    (run : buildCompare comparison left right p = .done i q) : p.Leads pr q (Pi.single i 1) := by
  simp only [buildCompare, Edit.plan_eq_done, bind_eq_ok, liftHalt_eq_ok,
    require_eq_ok, pure_eq_ok] at run
  obtain ⟨_, ⟨leftType, readLeft, rightType, readRight, _, agree, _, rfl, arithmetic,
    readArithmetic, pointer, readPointer, _, scalar, rfl⟩, run⟩ := run
  have hLeft := operandType_eq_ok readLeft
  have hRight := operandType_eq_ok readRight
  have isScalar : p.types.isArithmetic leftType = .ok true ∨
      p.types.isPointer leftType = .ok true := by
    rw [readArithmetic, readPointer]
    simpa using scalar
  refine Step.addInst_leads hs (.refl _) run (hs.registry.builtin (by decide)) ?_ rfl ?_
    (by simp [InstKind.isTargetSlot]) (by simp [InstKind.rule?])
  · simp [hLeft, hRight]
  · simpa [InstKind.Fits, typeAt_eq hLeft, typeAt_eq hRight] using ⟨agree, isScalar⟩

theorem buildUnary_leads {op : UnaryOp} (run : buildUnary op v p = .done i q) :
    p.Leads pr q (Pi.single i 1) := by
  simp only [buildUnary, Edit.plan_eq_done, bind_eq_ok] at run
  obtain ⟨step, ⟨type, read, run⟩, runStep⟩ := run
  have h := operandType_eq_ok read
  obtain ⟨fits, rfl⟩ : op.Fits p.types type ∧ step = (do
      let res ← Step.dropConst type
      Step.addInst res (.unary op) [(.fixed 0, v)]) := by
    cases op with
    | neg =>
      simp only [bind_eq_ok, liftHalt_eq_ok, require_eq_ok, pure_eq_ok] at run
      obtain ⟨_, isArithmetic, _, rfl, rfl⟩ := run
      exact ⟨isArithmetic, rfl⟩
    | not =>
      simp only [bind_eq_ok, liftHalt_eq_ok, require_eq_ok, pure_eq_ok] at run
      obtain ⟨_, isInt, _, rfl, rfl⟩ := run
      exact ⟨isInt, rfl⟩
  obtain ⟨res, typed, runType, runAdd⟩ := Step.run_bind.mp runStep
  obtain ⟨retyped, reg, agrees⟩ := Step.dropConst_spec hs runType
  have fitsTyped : op.Fits typed.types type :=
    (retyped.alike hs (hs.registry.nodes _ _ h)).unaryFits hs.registry.layered
      (retyped.sound hs).registry.layered fits
  refine Step.addInst_leads hs retyped runAdd reg ?_ rfl ?_ (by simp [InstKind.isTargetSlot])
    (by simp [InstKind.rule?])
  · simp [h]
  · simpa [InstKind.Fits, typeAt_eq h] using ⟨fitsTyped, agrees⟩

theorem buildSelect_leads {onTrue onFalse : ValueId}
    (run : buildSelect cond onTrue onFalse p = .done i q) : p.Leads pr q (Pi.single i 1) := by
  simp only [buildSelect, Edit.plan_eq_done, bind_eq_ok, liftHalt_eq_ok,
    require_eq_ok, pure_eq_ok] at run
  obtain ⟨_, ⟨conditionType, readCondition, trueType, readTrue, falseType, readFalse, _, isBool, _,
    rfl, _, agree, _, rfl, _, storable, rfl⟩, run⟩ := run
  obtain ⟨type, typed, runType, runAdd⟩ := Step.run_bind.mp run
  have hCondition := operandType_eq_ok readCondition
  have hTrue := operandType_eq_ok readTrue
  have hFalse := operandType_eq_ok readFalse
  obtain ⟨retyped, reg, agrees⟩ := Step.dropConst_spec hs runType
  have lay := hs.registry.layered
  have layeredTyped := (retyped.sound hs).registry.layered
  have alikeTrue := retyped.alike hs (hs.registry.nodes _ _ hTrue)
  have isBoolTyped : typed.types.equal conditionType .bool = .ok true := by
    rw [(retyped.alike hs (hs.registry.nodes _ _ hCondition)).equal
      (retyped.alike hs (hs.registry.builtin (by decide))) lay layeredTyped]
    exact isBool
  have agreeTyped : typed.types.equal trueType falseType = .ok true := by
    rw [alikeTrue.equal (retyped.alike hs (hs.registry.nodes _ _ hFalse)) lay layeredTyped]
    exact agree
  have storableTyped : typed.types.isStorable trueType = .ok true := by
    rw [alikeTrue.isStorable lay layeredTyped]
    exact requireStorable_eq_ok storable
  refine Step.addInst_leads hs retyped runAdd reg ?_ rfl ?_ (by simp [InstKind.isTargetSlot])
    (by simp [InstKind.rule?])
  · simp [hCondition, hTrue, hFalse]
  · simpa [InstKind.Fits, typeAt_eq hCondition, typeAt_eq hTrue,
      typeAt_eq hFalse] using ⟨isBoolTyped, agreeTyped, storableTyped, agrees⟩

theorem planCast_leads {op : CastOp} {step : Step InstId} (plan : p.planCast op v tgt = .ok step)
    (run : step.run p = .ok (i, q)) : p.Leads pr q (Pi.single i 1) := by
  simp only [planCast, bind_eq_ok, liftHalt_eq_ok, require_eq_ok, pure_eq_ok] at plan
  obtain ⟨src, read, _, checked, _, applies, _, rfl, rfl⟩ := plan
  have h := operandType_eq_ok read
  have storable := requireStorable_eq_ok checked
  refine Step.addInst_leads hs (.refl _) run (TypeTable.registered_of_isStorable storable) ?_ rfl ?_
    (by simp [InstKind.isTargetSlot]) (by simp [InstKind.rule?])
  · simp [h]
  · simpa [InstKind.Fits, typeAt_eq h] using ⟨applies, storable⟩

theorem buildCast_leads {op : CastOp} (run : buildCast op v tgt p = .done i q) :
    p.Leads pr q (Pi.single i 1) := by
  obtain ⟨_, plan, runStep⟩ := Edit.plan_eq_done.mp run
  exact planCast_leads hs plan runStep

theorem buildAutomaticCast_leads (run : buildAutomaticCast v tgt p = .done i q) :
    p.Leads pr q (Pi.single i 1) := by
  simp only [buildAutomaticCast, Edit.plan_eq_done, bind_eq_ok, liftHalt_eq_ok] at run
  obtain ⟨_, ⟨src, read, op, pick, plan⟩, runStep⟩ := run
  cases op with
  | some op => exact planCast_leads hs plan runStep
  | none => exact absurd plan (refuse_ne_ok _ _)

end Scalars

/-! ### Memory -/

section Memory

theorem map_fst_indexedOperands (values : List ValueId) :
    (indexedOperands values).map (·.1) = (List.range values.length).map Slot.indexed := by
  rw [indexedOperands, List.map_map, List.range_eq_range', ← List.zipIdx_map_snd, List.map_map]
  rfl

theorem map_snd_indexedOperands (values : List ValueId) :
    (indexedOperands values).map (·.2) = values := by
  rw [indexedOperands, List.map_map]
  exact zipIdx_map_fst 0 values

theorem mem_of_mem_indexedOperands {values : List ValueId}
    (mem : operand ∈ indexedOperands values) : operand.2 ∈ values := by
  rw [← map_snd_indexedOperands values]
  exact mem_map_of_mem mem

theorem Program.accessedType_eq_ok {pointee : TypeId}
    (read : p.accessedType pointer = .ok pointee) :
    ∃ type, p.type? pointer = some type ∧ p.types.pointee? type = .ok (some pointee) ∧
      p.types.isStorable pointee = .ok true := by
  simp only [accessedType, bind_eq_ok, liftHalt_eq_ok] at read
  obtain ⟨type, readType, answer, readPointee, read⟩ := read
  cases answer with
  | none => exact absurd read (refuse_ne_ok _ _)
  | some other =>
    simp only [bind_eq_ok, pure_eq_ok] at read
    obtain ⟨_, checked, rfl⟩ := read
    exact ⟨type, operandType_eq_ok readType, readPointee, requireStorable_eq_ok checked⟩

theorem Program.elementLayer_eq_ok {layer : TypeId}
    (read : p.elementLayer layer indices = .ok res) :
    (∀ k ∈ indices, ∃ type, p.type? k = some type ∧ p.types.isInt type = .ok true) ∧
      p.types.layer? indices.length layer = .ok (some res) := by
  induction indices generalizing layer with
  | nil =>
    simp only [elementLayer, pure_eq_ok] at read
    subst read
    exact ⟨by simp, rfl⟩
  | cons k rest ih =>
    simp only [elementLayer, bind_eq_ok, liftHalt_eq_ok, require_eq_ok] at read
    obtain ⟨type, readType, _, isInt, _, rfl, element, readElement, read⟩ := read
    cases element with
    | none => exact absurd read (refuse_ne_ok _ _)
    | some element =>
      obtain ⟨ints, steps⟩ := ih read
      refine ⟨?_, ?_⟩
      · intro value mem
        rcases mem_cons.mp mem with rfl | inRest
        · exact ⟨type, operandType_eq_ok readType, isInt⟩
        · exact ints value inRest
      · rw [length_cons, TypeTable.layer?, readElement]
        exact steps

variable (hs : p.Sound)
include hs

theorem buildAlloca_leads (run : buildAlloca ty align p = .done i q) :
    p.Leads pr q (Pi.single i 1) := by
  simp only [buildAlloca, Edit.plan_eq_done, bind_eq_ok, pure_eq_ok] at run
  obtain ⟨_, ⟨_, checked, aligned, -, rfl⟩, run⟩ := run
  obtain ⟨pointer, typed, runType, runAdd⟩ := Step.run_bind.mp run
  have storable := requireStorable_eq_ok checked
  obtain ⟨retyped, reg, pointee⟩ := Step.pointerTo_spec hs runType
  have storableTyped : typed.types.isStorable ty = .ok true := by
    rw [(retyped.alike hs (TypeTable.registered_of_isStorable storable)).isStorable
      hs.registry.layered (retyped.sound hs).registry.layered]
    exact storable
  exact Step.addInst_leads hs retyped runAdd reg (by simp) rfl
    ⟨rfl, storableTyped, pointee⟩ (by simp) (by simp)

theorem buildLoad_leads (run : buildLoad pointer align p = .done i q) :
    p.Leads pr q (Pi.single i 1) := by
  simp only [buildLoad, Edit.plan_eq_done, bind_eq_ok, pure_eq_ok] at run
  obtain ⟨_, ⟨pointee, read, aligned, -, rfl⟩, run⟩ := run
  obtain ⟨type, typed, runType, runAdd⟩ := Step.run_bind.mp run
  obtain ⟨pointerType, h, readPointee, storable⟩ := accessedType_eq_ok read
  obtain ⟨retyped, reg, agrees⟩ := Step.dropConst_spec hs runType
  have storableTyped : typed.types.isStorable pointee = .ok true := by
    rw [(retyped.alike hs (TypeTable.registered_of_isStorable storable)).isStorable
      hs.registry.layered (retyped.sound hs).registry.layered]
    exact storable
  refine Step.addInst_leads hs retyped runAdd reg ?_ rfl ?_ (by simp [InstKind.isTargetSlot])
    (by simp [InstKind.rule?])
  · simp [h]
  · simpa [InstKind.Fits, typeAt_eq h]
      using ⟨pointee, retyped.grows.pointee? readPointee, storableTyped, agrees⟩

theorem buildStore_leads (run : buildStore v pointer align p = .done i q) :
    p.Leads pr q (Pi.single i 1) := by
  simp only [buildStore, Edit.plan_eq_done, bind_eq_ok, liftHalt_eq_ok,
    require_eq_ok, pure_eq_ok] at run
  obtain ⟨_, ⟨valueType, readValue, pointee, read, isConst, readConst, _, mutable, _, agrees, _,
    rfl, aligned, -, rfl⟩, run⟩ := run
  have hValue := operandType_eq_ok readValue
  obtain ⟨pointerType, h, readPointee, storable⟩ := accessedType_eq_ok read
  have isMutable : p.types.isConst pointee = .ok false := by
    rw [readConst, Bool.not_eq_true' isConst |>.mp mutable]
  refine Step.addInst_leads hs (.refl _) run (hs.registry.builtin (by decide)) ?_ rfl ?_
    (by simp [InstKind.isTargetSlot]) ?_
  · simp [hValue, h]
  · simpa [InstKind.Fits, typeAt_eq hValue, typeAt_eq h]
      using ⟨pointee, readPointee, storable, agrees⟩
  · simpa [InstKind.rule?, Meets] using ⟨pointerType, pointee, h, readPointee, isMutable⟩

theorem buildElementPtr_leads {base : ValueId} (run : buildElementPtr base indices p = .done i q) :
    p.Leads pr q (Pi.single i 1) := by
  simp only [buildElementPtr, Edit.plan_eq_done, bind_eq_ok, liftHalt_eq_ok,
    require_eq_ok, pure_eq_ok] at run
  obtain ⟨_, ⟨baseType, readBase, _, isPointer, _, rfl, _, present, layer, readLayer, rfl⟩, run⟩ :=
    run
  obtain ⟨type, typed, runType, runAdd⟩ := Step.run_bind.mp run
  have hBase := operandType_eq_ok readBase
  obtain ⟨ints, steps⟩ := elementLayer_eq_ok readLayer
  obtain ⟨retyped, reg, pointee⟩ := Step.pointerTo_spec hs runType
  have lay := hs.registry.layered
  have layeredTyped := (retyped.sound hs).registry.layered
  have alikeBase := retyped.alike hs (hs.registry.nodes _ _ hBase)
  have isPointerTyped : typed.types.isPointer baseType = .ok true := by
    rw [alikeBase.isPointer lay layeredTyped]
    exact isPointer
  have intsTyped : ∀ k ∈ indices.map p.typeAt, typed.types.isInt k = .ok true := by
    intro type mem
    obtain ⟨k, inIndices, rfl⟩ := mem_map.mp mem
    obtain ⟨other, h, isInt⟩ := ints k inIndices
    rw [typeAt_eq h, (retyped.alike hs (hs.registry.nodes _ _ h)).isInt lay layeredTyped]
    exact isInt
  obtain ⟨reached, stepsTyped, alikeLayer⟩ := alikeBase.layer? lay layeredTyped steps
  have agrees : typed.types.equal layer reached = .ok true := by
    have registeredLayer := retyped.grows.registered alikeLayer.registered
    refine (layeredTyped.equal_iff registeredLayer alikeLayer.registeredOther).mpr ?_
    rw [alikeLayer.trees, retyped.grows.tree_eq lay alikeLayer.registered]
  have types : (indexedOperands indices).map (fun operand => p.typeAt operand.2) =
      indices.map p.typeAt := by
    conv_rhs => rw [← map_snd_indexedOperands indices, List.map_map]
    rfl
  refine Step.addInst_leads hs retyped runAdd reg ?_ ?_ ?_ (by simp [InstKind.isTargetSlot])
    (by simp [InstKind.rule?])
  · intro operand mem
    rcases mem_cons.mp mem with rfl | inIndices
    · exact ⟨baseType, hBase⟩
    · obtain ⟨other, h, -⟩ := ints _ (mem_of_mem_indexedOperands inIndices)
      exact ⟨other, h⟩
  · exact ⟨indices.length, by rw [map_cons, map_fst_indexedOperands]⟩
  · refine ⟨baseType, indices.map p.typeAt, reached, layer, ?_, ?_, isPointerTyped, intsTyped,
      ?_, pointee, agrees⟩
    · rw [map_cons, types, typeAt_eq hBase]
    · simpa using present
    · rw [length_map]
      exact stepsTyped

end Memory

/-! ### Calls, terminators and phis -/

section Control

variable {tgt : BlockId}

theorem Program.calleeSignature_eq_ok {sig : Signature}
    (read : p.calleeSignature callee = .ok (ty, sig)) :
    ∃ calleeType, p.type? callee = some calleeType ∧ p.types.pointee? calleeType = .ok (some ty) ∧
      p.types.signature? ty = .ok (some sig) := by
  simp only [calleeSignature, bind_eq_ok, liftHalt_eq_ok] at read
  obtain ⟨calleeType, readType, pointee, readPointee, read⟩ := read
  cases pointee with
  | none => exact absurd read (refuse_ne_ok _ _)
  | some pointee =>
    simp only [bind_eq_ok, liftHalt_eq_ok] at read
    obtain ⟨signature, readSignature, read⟩ := read
    cases signature with
    | none => exact absurd read (refuse_ne_ok _ _)
    | some signature =>
      simp only [pure_eq_ok, Prod.mk.injEq] at read
      obtain ⟨rfl, rfl⟩ := read
      exact ⟨calleeType, operandType_eq_ok readType, readPointee, readSignature⟩

theorem Program.checkArguments_eq_ok {params : List TypeId}
    (checked : p.checkArguments args params = .ok a) :
    (∀ arg ∈ args, ∃ type, p.type? arg = some type) ∧
      p.types.ArgumentsFit (args.map p.typeAt) params := by
  induction args generalizing params with
  | nil => exact ⟨by simp, trivial⟩
  | cons arg rest ih =>
    cases params with
    | nil =>
      simp only [checkArguments, bind_eq_ok] at checked
      obtain ⟨type, read, _, storable, checkedRest⟩ := checked
      have h := operandType_eq_ok read
      obtain ⟨live, fits⟩ := ih checkedRest
      refine ⟨forall_mem_cons.mpr ⟨⟨type, h⟩, live⟩, ?_, fits⟩
      rw [typeAt_eq h]
      exact requireStorable_eq_ok storable
    | cons param params =>
      simp only [checkArguments, bind_eq_ok, liftHalt_eq_ok, require_eq_ok] at checked
      obtain ⟨type, read, _, agrees, _, rfl, checkedRest⟩ := checked
      have h := operandType_eq_ok read
      obtain ⟨live, fits⟩ := ih checkedRest
      refine ⟨forall_mem_cons.mpr ⟨⟨type, h⟩, live⟩, ?_, fits⟩
      rw [typeAt_eq h]
      exact agrees

theorem Program.type?_of_isBlock {b : BlockId} (hb : p.isBlock b = true) :
    ∃ type, p.type? b = some type := by
  simp only [Program.isBlock, Program.payload?, beq_iff_eq, Option.map_map] at hb
  obtain ⟨n, h, -⟩ := map_eq_some_iff.mp hb
  exact ⟨n.type, by rw [Program.type?, h, Option.map_some]⟩

variable (hs : p.Sound)
include hs

theorem buildCall_leads (run : buildCall callee args p = .done i q) :
    p.Leads pr q (Pi.single i 1) := by
  simp only [buildCall, Edit.plan_eq_done, bind_eq_ok, require_eq_ok, pure_eq_ok] at run
  obtain ⟨_, ⟨⟨type, sig⟩, read, _, counted, _, checked, rfl⟩, run⟩ := run
  obtain ⟨calleeType, h, readPointee, readSignature⟩ := calleeSignature_eq_ok read
  obtain ⟨live, fits⟩ := checkArguments_eq_ok checked
  have lay := hs.registry.layered
  have reg : p.types.Registered sig.result := by
    obtain ⟨pointee, hr', -, registeredPointee⟩ :=
      TypeTable.pointee?_eq lay (hs.registry.nodes _ _ h) .plain
    rw [readPointee, Except.ok.injEq] at hr'
    obtain ⟨signature, readFound, -, registeredParts⟩ :=
      TypeTable.signature?_eq lay (registeredPointee type hr'.symm) .plain
    rw [readSignature, Except.ok.injEq] at readFound
    exact (registeredParts sig readFound.symm).1
  have types : (indexedOperands args).map (fun operand => p.typeAt operand.2) =
      args.map p.typeAt := by
    conv_rhs => rw [← map_snd_indexedOperands args, List.map_map]
    rfl
  refine Step.addInst_leads hs (.refl _) run reg ?_ ?_ ?_
    (by simp [InstKind.isTargetSlot]) (by simp [InstKind.rule?])
  · intro operand mem
    rcases mem_cons.mp mem with rfl | inArguments
    · exact ⟨calleeType, h⟩
    · exact live _ (mem_of_mem_indexedOperands inArguments)
  · exact ⟨args.length, by rw [map_cons, map_fst_indexedOperands]⟩
  · refine ⟨calleeType, args.map p.typeAt, type, sig, ?_, readPointee, readSignature,
      ?_, fits, (lay.equal_iff reg reg).mpr rfl⟩
    · rw [map_cons, types, typeAt_eq h]
    · rw [length_map]
      exact counted

theorem buildRet_leads {v : Option ValueId} (run : buildRet v p = .done i q) :
    p.Leads pr q (Pi.single i 1) := by
  cases v with
  | none =>
    simp only [buildRet, Edit.plan_eq_done, pure_eq_ok] at run
    obtain ⟨_, rfl, run⟩ := run
    exact Step.addInst_leads hs (.refl _) run (hs.registry.builtin (by decide)) (by simp)
      (Or.inl rfl) ⟨Or.inl rfl, rfl⟩ (by simp) (by simp)
  | some v =>
    simp only [buildRet, Edit.plan_eq_done, bind_eq_ok, pure_eq_ok] at run
    obtain ⟨_, ⟨type, read, _, storable, rfl⟩, run⟩ := run
    have h := operandType_eq_ok read
    refine Step.addInst_leads hs (.refl _) run (hs.registry.builtin (by decide)) ?_
      (Or.inr rfl) ⟨Or.inr ⟨type, ?_, requireStorable_eq_ok storable⟩, rfl⟩
      (by simp [InstKind.isTargetSlot]) (by simp [InstKind.rule?])
    · simp [h]
    · simp [typeAt_eq h]

theorem Step.addBr_built (hb : p.isBlock tgt = true)
    (run : (addInst TypeId.void .br [(.fixed 0, tgt)]).run p = .ok (i, q)) :
    p.Built q i TypeId.void .br := by
  refine (addInst_fitted hs (.refl _) run (hs.registry.builtin (by decide)) ?_ rfl
    ⟨_, rfl, rfl⟩ ?_ (by simp [InstKind.rule?])).1
  · simpa using type?_of_isBlock hb
  · simp [hb]

theorem buildBr_leads (run : buildBr tgt p = .done i q) : p.Leads pr q (Pi.single i 1) := by
  simp only [buildBr, Edit.plan_eq_done, bind_eq_ok, requireBlock, require_eq_ok, pure_eq_ok] at run
  obtain ⟨_, ⟨_, hb, rfl⟩, run⟩ := run
  exact .of_built hs (.refl _) (Step.addBr_built hs hb run)

theorem buildCondBr_leads {onTrue onFalse : BlockId}
    (run : buildCondBr cond onTrue onFalse p = .done i q) : p.Leads pr q (Pi.single i 1) := by
  simp only [buildCondBr, Edit.plan_eq_done, bind_eq_ok, liftHalt_eq_ok,
    requireBlock, require_eq_ok, pure_eq_ok] at run
  obtain ⟨_, ⟨type, read, _, isBool, _, rfl, _, isTrue, _, isFalse, rfl⟩, run⟩ := run
  have h := operandType_eq_ok read
  refine Step.addInst_leads hs (.refl _) run (hs.registry.builtin (by decide)) ?_ rfl ?_ ?_
    (by simp [InstKind.rule?])
  · simpa [h] using ⟨type?_of_isBlock isTrue, type?_of_isBlock isFalse⟩
  · simpa [InstKind.Fits, typeAt_eq h] using isBool
  · simp [isTrue, isFalse, InstKind.isTargetSlot]

theorem buildSwitch_leads {default : BlockId} (run : buildSwitch cond default p = .done i q) :
    p.Leads pr q (Pi.single i 1) := by
  simp only [buildSwitch, Edit.plan_eq_done, bind_eq_ok, liftHalt_eq_ok,
    requireBlock, require_eq_ok, pure_eq_ok] at run
  obtain ⟨_, ⟨type, read, _, isInt, _, rfl, _, hb, rfl⟩, run⟩ := run
  have h := operandType_eq_ok read
  refine Step.addInst_leads hs (.refl _) run (hs.registry.builtin (by decide)) ?_ ⟨rfl, rfl⟩
    ?_ ?_ (by simp [InstKind.rule?])
  · simpa [h] using type?_of_isBlock hb
  · simpa [InstKind.Fits, typeAt_eq h] using isInt
  · simp [hb, InstKind.isTargetSlot]

theorem buildUnreachable_leads (run : buildUnreachable p = .done i q) :
    p.Leads pr q (Pi.single i 1) :=
  Step.addInst_leads hs (.refl _) (Edit.perform_eq_done.mp run)
    (hs.registry.builtin (by decide)) (by simp) rfl ⟨rfl, rfl⟩ (by simp) (by simp)

theorem buildPhi_leads (run : buildPhi ty p = .done i q) : p.Leads pr q (Pi.single i 1) := by
  simp only [buildPhi, Edit.plan_eq_done, bind_eq_ok, pure_eq_ok] at run
  obtain ⟨_, ⟨_, checked, rfl⟩, run⟩ := run
  have storable := requireStorable_eq_ok checked
  exact Step.addInst_leads hs (.refl _) run (TypeTable.registered_of_isStorable storable)
    (by simp) rfl ⟨storable, by simp⟩ (by simp) (by simp)

end Control

/-! ### Register writes -/

namespace Step

/-- A register write of a value that agrees with the register.  What it nests goes from
the client to it. -/
theorem addRegWrite_leads {registerType : TypeId} (hs : p.Sound)
    (isRegister : p.isRegister r = true) (hReg : p.type? r = some registerType)
    (h : p.type? v = some ty) (agrees : p.types.equal ty registerType = .ok true)
    (run : (addRegWrite r v).run p = .ok (write, q)) :
    p.Leads pr q (Pi.single write 1 +
      if p.status? v = some .disconnected then Pi.single v (-1) else 0) := by
  unfold addRegWrite at run
  simp only [run_bind, run_get] at run
  obtain ⟨fresh, built, runAdd, _, _, ⟨rfl, rfl⟩, run⟩ := run
  have storable := hs.registry.registers r registerType isRegister hReg
  have seen : [(Slot.fixed 0, r), (.fixed 1, v)].map (fun operand => p.facet? operand.1 operand.2) =
        ([(Slot.fixed 0, r), (.fixed 1, v)].map p.shown).map some := by
    rw [List.map_map]
    refine map_congr_left fun operand mem => facet?_eq_shown ?_
    rcases mem_pair.mp mem with rfl | rfl
    · exact ⟨registerType, hReg⟩
    · exact ⟨ty, h⟩
  have accepts : InstKind.regWrite.Accepts p.types .void
      ([(Slot.fixed 0, r), (.fixed 1, v)].map p.shown) :=
    { lays := rfl
      fits := by
        refine ⟨registerType, ty, ?_, agrees, storable, rfl⟩
        simp [shown, typeAt_eq hReg, typeAt_eq h]
      targets := by simp [InstKind.isTargetSlot]
      differ := by simp }
  obtain ⟨building, edges⟩ := addInst_built hs (hs.registry.builtin (by decide)) seen accepts
    (by simp) (by simpa [InstKind.rule?, Meets] using isRegister) runAdd
  have grown : Grown pr p built := .single (.build fresh .void .regWrite building)
  have ne : v ≠ fresh := by
    rintro rfl
    simp [type?, building.fresh] at h
  have sameLink : built.link? v = p.link? v := by
    rw [building.link?, Function.update_of_ne ne]
  have tallyBuilt := building.tally hs
  have reads : ∃ e d, (built.operandsOf fresh)[1]? = some e ∧
      built.wire? e = some d ∧ d.value = v := by
    have second := congrArg (·[1]?) edges
    simp only [getElem?_map] at second
    obtain ⟨e, listed, hEdge⟩ := map_eq_some_iff.mp second
    exact ⟨e, _, listed, by rw [wire?, hEdge]; rfl, rfl⟩
  -- unless the value is a disconnected instruction nothing more happens
  have otherwise : p.status? v ≠ some .disconnected →
      (pure fresh : Step InstId).run built = .ok (write, q) → p.Leads pr q (Pi.single write 1 +
          if p.status? v = some .disconnected then Pi.single v (-1) else 0) := by
    intro otherStatus runPure
    obtain ⟨rfl, rfl⟩ := run_pure.mp runPure
    rw [if_neg otherStatus, add_zero]
    exact .of_grown grown tallyBuilt
  simp only [isInst_eq, sameLink] at run
  cases hLink : p.link? v with
  | none =>
    rw [hLink] at run
    exact otherwise (by simp [status?, hLink]) (by simpa using run)
  | some l =>
    rw [hLink] at run sameLink
    have isStatus : p.status? v = some l.status := by
      rw [status?, hLink, map_some]
    simp only [isSome_some, if_true, run_bind, run_lift, status_eq_ok] at run
    obtain ⟨_, _, ⟨⟨d, hInst, rfl⟩, rfl⟩, run⟩ := run
    obtain rfl : d.link = l := by
      rw [link?, hInst, map_some, some.injEq] at sameLink
      exact sameLink
    split at run
    next disconnected =>
      simp only [run_bind, run_pure] at run
      obtain ⟨_, q, runModify, rfl, rfl⟩ := run
      obtain ⟨restr, -, links, ends⟩ := modifyInst_restrings
        (·.nested fresh) runModify
      have relink : built.Relinked q v d.link (d.link.nested fresh) := by
        refine ⟨restr, sameLink, ?_, ends⟩
        funext inst
        rw [links, Function.update_apply]
        split
        next eq => rw [eq, sameLink, map_some]
        next => rfl
      have adopts : built.Adopts q v fresh d.link :=
        { relinked := relink
          status := disconnected
          apart := ne
          isWrite := by rw [building.shell?, Function.update_self]; rfl
          unplaced := by rw [building.link?, Function.update_self]
          reads := reads }
      rw [if_pos (isStatus.trans (congrArg some disconnected))]
      refine ⟨⟨built, q, grown, Or.inr ⟨v, fresh, d.link, adopts, ?_⟩, .refl⟩, fun _ => ?_⟩
      · rw [isStatus]
        exact congrArg some disconnected
      · refine (tallyBuilt.trans relink.tally).of_eq ?_
        have wasFree : d.link.isOwned = false := by simp [Link.isOwned, Inst.link, disconnected]
        have isNested : (d.link.nested fresh).isOwned = true := rfl
        simp [wasFree, isNested]
    next notLoose =>
      refine otherwise ?_ run
      rw [isStatus]
      exact fun eq => notLoose (some.inj eq)

end Step

theorem buildRegWrite_leads (hs : p.Sound) (run : buildRegWrite r v p = .done write q) :
    p.Leads pr q (Pi.single write 1 +
      if p.status? v = some .disconnected then Pi.single v (-1) else 0) := by
  simp only [buildRegWrite, Edit.plan_eq_done, bind_eq_ok, liftHalt_eq_ok,
    require_eq_ok, pure_eq_ok, typeOf_eq_ok] at run
  obtain ⟨_, ⟨_, isRegister, type, read, _, ⟨n, hNode, rfl⟩, _, agrees, _, rfl, rfl⟩, run⟩ := run
  refine Step.addRegWrite_leads hs isRegister ?_ (operandType_eq_ok read) agrees run
  rw [type?, hNode, map_some]

end ValueGraph
