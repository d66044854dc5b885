import Mathlib
import ValueGraph.Proofs.CastTables
import ValueGraph.Proofs.Measures

open Function

namespace ValueGraph

open Program List Option

/-!
# Alignment of accesses

A stack slot, a load or a store is aligned as requested, up to the next power of two, or else as
its type is by itself.  The power of two must fit a 32-bit word: what is beyond half of the word
cannot be requested.
-/

variable {p : Program} {v : ValueId} {ty : TypeId}

namespace Step

theorem requestType_succeeds {request : TypeRequest}
    (answers : ∃ answer, p.types.answer request = .ok answer) :
    (requestType request).Succeeds p := by
  obtain ⟨answer, read⟩ := answers
  exact .get_bind (.lift_bind read ⟨_, _, rfl⟩)

end Step

namespace TypeTable

variable {t : TypeTable}

theorem register_answers {entry : TypeEntry}
    (known : ∀ part ∈ entry.shape.children, t.Registered part) :
    ∃ answer, t.register entry = .ok answer := by
  unfold register
  split
  · exact ⟨_, rfl⟩
  · rw [if_pos (by simpa [Registered] using known)]
    exact ⟨_, rfl⟩

theorem Layered.requalify_answers (lay : t.Layered) (reg : t.Registered ty) (isConst : Bool) :
    ∃ answer, t.requalify ty isConst = .ok answer := by
  obtain ⟨entry, found⟩ := reg.exists_entry
  rw [requalify, entry_eq_ok.mpr found]
  simp only [bind, Except.bind]
  split
  · exact ⟨_, rfl⟩
  · exact register_answers fun part mem => lay.registered found mem

end TypeTable

theorem roundAlignment_eq (request : UInt32) : roundAlignment request =
    if request.toNat ≤ 2 ^ 31 then .ok (roundUpToPowerOfTwo (max request.toNat 1))
    else .error .sumOverflow := by
  obtain ⟨⟨⟨exponent, power⟩, enough⟩, least⟩ :=
    isLeast_roundUpToPowerOfTwo (max request.toNat 1)
  refine if_congr ?_ rfl rfl
  have limit : word32Limit = 2 ^ 32 := rfl
  rw [power] at enough least ⊢
  constructor
  · intro fits
    have small : exponent < 32 := (Nat.pow_lt_pow_iff_right (by decide)).mp (limit ▸ fits)
    have bound : 2 ^ exponent ≤ 2 ^ 31 := Nat.pow_le_pow_right (by decide) (Nat.le_of_lt_succ small)
    omega
  · intro small
    have bound : 2 ^ exponent ≤ 2 ^ 31 := least ⟨⟨31, rfl⟩, by omega⟩
    omega

/-- The edits that access memory, with the type that they access and what they build for an
alignment, as far as their operands go. -/
inductive Program.Accesses (program : Program) :
    (Option UInt32 → Edit InstId) → TypeId → (Nat → InstKind) → Prop where
  | alloca {type : TypeId} (storable : program.types.isStorable type = .ok true) :
    program.Accesses (buildAlloca type) type (.alloca type)
  | load {pointer : ValueId} {type : TypeId}
    (accessed : program.accessedType pointer = .ok type) :
    program.Accesses (buildLoad pointer) type .load
  | store {value pointer : ValueId} {valueType type : TypeId}
    (stored : program.operandType value .storedValue = .ok valueType)
    (accessed : program.accessedType pointer = .ok type)
    (mutable : program.types.isConst type = .ok false)
    (agrees : program.types.equal valueType type = .ok true) :
    program.Accesses (buildStore value pointer) type .store

namespace Program.Accesses

variable {build : Option UInt32 → Edit InstId} {make : Nat → InstKind} {request : Option UInt32}

theorem isLive_of_type? {type : TypeId} (h : p.type? v = some type) : p.isLive v = true := by
  obtain ⟨n, found, -⟩ := map_eq_some_iff.mp h
  exact Arena.contains_iff_get?.mpr ⟨n, found⟩

theorem isStorable (accesses : p.Accesses build ty make) : p.types.isStorable ty = .ok true := by
  cases accesses with
  | alloca storable => exact storable
  | load accessed | store _ accessed =>
    obtain ⟨_, -, -, storable⟩ := accessedType_eq_ok accessed
    exact storable

theorem faults (accesses : p.Accesses build ty make) {fault : Fault}
    (fails : p.accessAlignment ty request = .error fault) : build request p = .faulted fault := by
  have storable := accesses.isStorable
  cases accesses with
  | alloca =>
    simp [buildAlloca, Edit.plan, requireStorable, storable, fails, bind, Except.bind, require,
      liftM, monadLift, MonadLift.monadLift]
  | load accessed =>
    simp [buildLoad, Edit.plan, accessed, fails, bind, Except.bind, liftM, monadLift,
      MonadLift.monadLift]
  | store stored accessed mutable agrees =>
    simp [buildStore, Edit.plan, accessed, stored, mutable, agrees, fails, bind, Except.bind,
      require, liftM, monadLift, MonadLift.monadLift]

/-- An access whose alignment is found is built with it. -/
theorem built (accesses : p.Accesses build ty make) (hs : p.Sound) {align : Nat}
    (aligned : p.accessAlignment ty request = .ok align) :
    ∃ i q, build request p = .done i q ∧ q.kind i = .ok (make align) := by
  have reg := TypeTable.registered_of_isStorable accesses.isStorable
  cases accesses with
  | alloca storable =>
    have checked : p.requireStorable ty .allocatedIsStorable = .ok () := by
      rw [requireStorable, storable]
      rfl
    obtain ⟨pointer, typed, runType⟩ : (Step.pointerTo ty).Succeeds p :=
      Step.requestType_succeeds
        (TypeTable.register_answers (by simpa [Shape.entry, Shape.children]))
    obtain ⟨retyped, -⟩ := Step.pointerTo_spec hs runType
    obtain ⟨i, q, run, isKind⟩ := Step.addInst_run (retyped.sound hs).stored
      (List.forall_mem_nil _)
    exact ⟨i, q, Edit.plan_eq_done.mpr ⟨_, bind_eq_ok.mpr ⟨(), checked, bind_eq_ok.mpr ⟨align,
      liftHalt_eq_ok.mpr aligned, rfl⟩⟩, Step.run_bind.mpr ⟨pointer, typed, runType, run⟩⟩, isKind⟩
  | @load pointer _ accessed =>
    obtain ⟨_, h, -, -⟩ := accessedType_eq_ok accessed
    obtain ⟨type, typed, runType⟩ : (Step.dropConst ty).Succeeds p :=
      Step.requestType_succeeds (hs.registry.layered.requalify_answers reg false)
    obtain ⟨retyped, -⟩ := Step.dropConst_spec hs runType
    have live : ∀ op ∈ [(Slot.fixed 0, pointer)], typed.isLive op.2 = true := by
      simpa [isLive, retyped.values] using isLive_of_type? h
    obtain ⟨i, q, run, isKind⟩ := Step.addInst_run (retyped.sound hs).stored live
    exact ⟨i, q, Edit.plan_eq_done.mpr ⟨_, bind_eq_ok.mpr ⟨ty, accessed, bind_eq_ok.mpr ⟨align,
      liftHalt_eq_ok.mpr aligned, rfl⟩⟩, Step.run_bind.mpr ⟨type, typed, runType, run⟩⟩, isKind⟩
  | @store value pointer _ _ stored accessed mutable agrees =>
    obtain ⟨_, h, -, -⟩ := accessedType_eq_ok accessed
    have live : ∀ op ∈ [(Slot.fixed 0, value), (Slot.fixed 1, pointer)], p.isLive op.2 = true := by
      simp [isLive_of_type? h, isLive_of_type? (operandType_eq_ok stored)]
    obtain ⟨i, q, run, isKind⟩ := Step.addInst_run hs.stored live
    refine ⟨i, q, Edit.plan_eq_done.mpr ⟨_, ?_, run⟩, isKind⟩
    simp only [bind_eq_ok, liftHalt_eq_ok]
    exact ⟨_, stored, ty, accessed, _, mutable, (), rfl, _, agrees, (), rfl, align, aligned, rfl⟩

end Program.Accesses

/-- Every access that is valid otherwise is aligned to the least power of two that is not below its
request, as long as the request is at most half of a 32-bit word; beyond that it meets a fault.
Without a request it has the alignment of its type, a power of two. -/
theorem access_is_aligned_to_power_of_two {name : String} {settings : Settings}
    {operations : List Operation} {program : Program} {build : Option UInt32 → Edit InstId}
    {type : TypeId} {make : Nat → InstKind}
    (run : (Program.initial name settings).runAll? operations = some program)
    (accesses : program.Accesses build type make) :
    (∀ request : UInt32, request.toNat ≤ 2 ^ 31 → ∃ inst after align,
      build (some request) program = .done inst after ∧ after.kind inst = .ok (make align) ∧
      IsLeast (powersFrom (max request.toNat 1)) align) ∧
    (∀ request : UInt32, 2 ^ 31 < request.toNat →
      build (some request) program = .faulted .sumOverflow) ∧
    (¬ (program.types.tree .full type).content.Overwide → ∃ inst after exponent,
      build none program = .done inst after ∧ after.kind inst = .ok (make (2 ^ exponent)) ∧
      program.types.alignment? type = .ok (some (2 ^ exponent))) := by
  have sound := Program.sound_of_runAll? run
  refine ⟨fun request small => ?_, fun request large => ?_, fun narrow => ?_⟩
  · have aligned : program.accessAlignment type (some request) = .ok _ :=
      (roundAlignment_eq request).trans (if_pos small)
    obtain ⟨inst, after, done, kind⟩ := accesses.built sound aligned
    exact ⟨inst, after, _, done, kind, isLeast_roundUpToPowerOfTwo _⟩
  · have fails : program.accessAlignment type (some request) = .error .sumOverflow :=
      (roundAlignment_eq request).trans (if_neg (Nat.not_le.mpr large))
    exact accesses.faults fails
  · have storable := accesses.isStorable
    have registered := TypeTable.registered_of_isStorable storable
    have alignmentEq : program.types.alignment? type =
        (program.types.tree .full type).alignment? program.types.pointerBits :=
      TypeTable.alignmentWithin_eq sound.registry.layered registered (Nat.lt_succ_self _)
    have measured : (program.types.tree .full type).Measured program.types.pointerBits :=
      TypeTree.measured _
    cases measured with
    | overwide wide => exact absurd wide narrow
    | unstored _ unstored =>
      rw [TypeTable.isStorable_eq sound.registry.layered registered, unstored] at storable
      cases storable
    | scalar _ _ width _ _ alignment =>
      obtain ⟨⟨⟨exponent, power⟩, -⟩, -⟩ := isLeast_storageBytes width
      rw [alignment, power] at alignmentEq
      have aligned : program.accessAlignment type none = .ok (2 ^ exponent) := by
        rw [Program.accessAlignment, alignmentEq]
        rfl
      obtain ⟨inst, after, done, kind⟩ := accesses.built sound aligned
      exact ⟨inst, after, exponent, done, kind, alignmentEq⟩

/-- A long integer is reserved with the largest alignment, and by itself with 8 bytes. -/
theorem long_is_reserved_with_largest_alignment :
    let program := Program.initial "m" .standard
    (∃ inst after, buildAlloca ⟨6⟩ (some 2147483648) program = .done inst after ∧
      after.kind inst = .ok (.alloca ⟨6⟩ 2147483648)) ∧
    ∃ inst after, buildAlloca ⟨6⟩ none program = .done inst after ∧
      after.kind inst = .ok (.alloca ⟨6⟩ 8) := by
  intro program
  have run : program.runAll? [] = some program := rfl
  have storable : program.types.isStorable ⟨6⟩ = .ok true := rfl
  have alignment : program.types.alignment? ⟨6⟩ = .ok (some 8) := rfl
  obtain ⟨requested, -, natural⟩ := access_is_aligned_to_power_of_two run (.alloca storable)
  constructor
  · obtain ⟨inst, after, align, done, kind, least⟩ := requested 2147483648 (by decide)
    rw [least.unique (isLeast_roundUpToPowerOfTwo 2147483648)] at kind
    exact ⟨inst, after, done, kind⟩
  · obtain ⟨inst, after, exponent, done, kind, natural⟩ := natural id
    rw [natural, Except.ok.injEq, Option.some.injEq] at alignment
    exact ⟨inst, after, done, alignment ▸ kind⟩

/-- A byte cannot be reserved with an alignment above half of a 32-bit word. -/
theorem largest_alignments_are_not_rounded :
    (Program.initial "m" .standard).types.isStorable ⟨3⟩ = .ok true ∧
    buildAlloca ⟨3⟩ (some 2147483649) (Program.initial "m" .standard) = .faulted .sumOverflow :=
  ⟨rfl, rfl⟩

end ValueGraph
