import Mathlib
import ValueGraph.Proofs.Ledger
import ValueGraph.Proofs.Readers

open Function

namespace ValueGraph

open Program List Option Arena

/-!
# Steps that come to their end

A step meets no fault as long as the handles that it follows name what it takes them
for, and a node is not read any more when its last owner gives it up.  Taking
instructions apart comes to its end if every constant has an owner for each of its
uses and what is nested is read by nothing but the instruction that holds it.
-/

variable {a : Unit} {e : EdgeId} {d : Edge} {new u v : ValueId} {i : InstId}
  {tgt prev : Option InstId} {b src : BlockId} {l : Link} {nested insts : List InstId} {fuel : Nat}
  {p q : Program} {region : InstId → Prop}

namespace Step

variable {α β : Type}

/-- A step meets no fault. -/
def Succeeds (step : Step α) (before : Program) : Prop :=
  ∃ answer after, step.run before = .ok (answer, after)

theorem Succeeds.pure (a : α) : Succeeds (Pure.pure a) p :=
  ⟨a, p, rfl⟩

theorem Succeeds.bind {first : Step α} {next : α → Step β} (start : first.Succeeds p)
    (rest : ∀ a m, first.run p = .ok (a, m) → (next a).Succeeds m) :
    (first >>= next).Succeeds p := by
  obtain ⟨a, m, run⟩ := start
  obtain ⟨final, q, run'⟩ := rest a m run
  exact ⟨final, q, run_bind.mpr ⟨a, m, run, run'⟩⟩

theorem Succeeds.get_bind {next : Program → Step β} (rest : (next p).Succeeds p) :
    (MonadState.get >>= next : Step β).Succeeds p :=
  .bind ⟨p, p, rfl⟩ fun _ _ run => by
    obtain ⟨rfl, rfl⟩ := run_get.mp run
    exact rest

theorem Succeeds.lift_bind {reading : Except Fault α} {a : α} {next : α → Step β}
    (read : reading = .ok a) (rest : (next a).Succeeds p) :
    ((liftM reading : Step α) >>= next).Succeeds p :=
  .bind ⟨a, p, run_lift.mpr ⟨read, rfl⟩⟩ fun _ _ run => by
    obtain ⟨hr', rfl⟩ := run_lift.mp run
    obtain rfl := Except.ok.inj (read.symm.trans hr')
    exact rest

/-! ### Changes of one part -/

theorem modifyNode_succeeds (change : Node → Node) (live : p.isLive v = true) :
    (modifyNode v change).Succeeds p :=
  ⟨(), _, modifyNode_run.mpr ⟨contains_iff_get?.mp live, rfl⟩⟩

theorem modifyEdge_succeeds (change : Edge → Edge) (h : p.edges.get? e = some d) :
    (modifyEdge e change).Succeeds p :=
  ⟨(), _, modifyEdge_run.mpr ⟨⟨d, h⟩, rfl⟩⟩

theorem modifyBlock_succeeds (change : Block → Block) (hb : p.isBlock v = true) :
    (modifyBlock v change).Succeeds p := by
  obtain ⟨d, h⟩ := isBlock_iff.mp hb
  exact ⟨(), _, modifyBlock_run.mpr ⟨d, h, rfl⟩⟩

theorem modifyInst_succeeds (change : Inst → Inst) (hi : p.isInst v = true) :
    (modifyInst v change).Succeeds p := by
  obtain ⟨d, h⟩ := exists_inst?_of_isInst hi
  exact ⟨(), _, modifyInst_run.mpr ⟨d, h, rfl⟩⟩

theorem modifyFunction_succeeds {d : Function} (change : Function → Function)
    (h : p.function? v = some d) : (modifyFunction v change).Succeeds p :=
  ⟨(), _, modifyFunction_run.mpr ⟨d, h, rfl⟩⟩

section

variable (live : p.isLive v = true)
include live

theorem retainHandle_succeeds : (retainHandle v).Succeeds p := by
  obtain ⟨entry, named⟩ := isSome_iff_exists.mp live
  apply Succeeds.get_bind
  simp only [retain?, named]
  exact ⟨(), _, rfl⟩

theorem checkUnused_eq_ok (unread : p.usesOf v = []) : p.checkUnused v = .ok () := by
  obtain ⟨n, found⟩ := contains_iff_get?.mp live
  have readUses : p.usedBy v = .ok [] :=
    usedBy_eq_ok.mpr ⟨n, found, by rw [← usesOf_eq found, unread]⟩
  simp only [checkUnused, checkUsersWithin, usersOutside, readUses]
  rfl

/-- A handle can be given up, and the last one once nothing reads the node. -/
theorem dropHandle_succeeds (unread : p.countOf v = 1 → p.usesOf v = []) :
    (dropHandle v).Succeeds p := by
  have releases : ∃ released values, p.values.release? v = some (released, values) := by
    obtain ⟨entry, named⟩ := isSome_iff_exists.mp live
    simp only [release?, take?, named]
    split
    · exact ⟨_, _, rfl⟩
    · exact ⟨_, _, rfl⟩
  obtain ⟨released, values, isReleased⟩ := releases
  apply Succeeds.get_bind
  simp only [isReleased]
  split
  next last =>
    apply Succeeds.lift_bind (checkUnused_eq_ok live (unread (count?_eq_one_iff.mp last)))
    exact ⟨(), _, rfl⟩
  next => exact ⟨(), _, rfl⟩

theorem retainConstant_succeeds : (retainConstant v).Succeeds p := by
  obtain ⟨c, read⟩ := constant?_answers live
  apply Succeeds.get_bind
  apply Succeeds.lift_bind read
  split
  · exact retainHandle_succeeds live
  · exact .pure ()

theorem dropConstant_succeeds (unread : p.isConstant v = true → p.countOf v = 1 → p.usesOf v = []) :
    (dropConstant v).Succeeds p := by
  obtain ⟨c, read⟩ := constant?_answers live
  apply Succeeds.get_bind
  apply Succeeds.lift_bind read
  split
  next isConstant =>
    rw [constant?_isSome_iff read] at isConstant
    exact dropHandle_succeeds live (unread isConstant)
  next => exact .pure ()

end

section

variable {ty : TypeId} {kind : InstKind} {slot : Slot} {ops : List (Slot × ValueId)}

theorem addNode_succeeds (ty : TypeId) (payload : Payload) : (addNode ty payload).Succeeds p :=
  ⟨_, _, rfl⟩

theorem addOperand_succeeds (liveUser : p.isLive u = true) (liveValue : p.isLive v = true) :
    (addOperand u slot v).Succeeds p := by
  apply Succeeds.get_bind
  refine .bind ⟨_, _, rfl⟩ fun _ placed runEdge => ?_
  have nodes : placed.values = p.values := by
    rw [← run_set.mp runEdge]
  have lives : placed.isLive = p.isLive := by
    funext value
    rw [isLive, nodes, isLive]
  refine .bind (modifyNode_succeeds _ (by rwa [lives])) fun _ listed runUser => ?_
  have atUser := setOperands_spec (· ++ [_]) runUser
  have livesListed : listed.isLive = p.isLive := by
    funext value
    rw [isLive_iff, atUser.payloads, ← isLive_iff, lives]
  refine .bind (modifyNode_succeeds _ (by rwa [livesListed])) fun _ used runValue => ?_
  have atValue := setUses_spec (· ++ [_]) runValue
  apply retainConstant_succeeds
  rw [isLive_iff, atValue.payloads, ← isLive_iff, livesListed]
  exact liveValue

theorem addOperands_run (stored : p.Stored) (liveUser : p.isLive u = true)
    (live : ∀ op ∈ ops, p.isLive op.2 = true) :
    ∃ q, (ops.forM fun (slot, v) => addOperand u slot v).run p = .ok ((), q) ∧
      q.kind? = p.kind? := by
  induction ops generalizing p with
  | nil => exact ⟨p, rfl, rfl⟩
  | cons op rest ih =>
    obtain ⟨_, m, run1⟩ : (addOperand u op.1 op.2).Succeeds p :=
      addOperand_succeeds liveUser (live op (by simp))
    obtain ⟨e, added, kinds⟩ := addOperand_spec stored run1
    have kept := (added.grows stored).contains
    obtain ⟨q, run', kindsRest⟩ := ih (added.rewires.stored stored) (kept u liveUser)
      fun pair mem => kept _ (live pair (by simp [mem]))
    exact ⟨q, run_forM_cons.mpr ⟨m, run1, run'⟩, kindsRest.trans kinds⟩

theorem addInst_run (stored : p.Stored) (live : ∀ op ∈ ops, p.isLive op.2 = true) :
    ∃ i q, (addInst ty kind ops).run p = .ok (i, q) ∧ q.kind i = .ok kind := by
  obtain ⟨i, started, runNode⟩ : (addNode ty (.inst (Inst.fresh kind))).Succeeds p :=
    addNode_succeeds _ _
  have added := addNode_spec stored runNode
  have hInst : started.inst? i = some (Inst.fresh kind) := by
    rw [Program.inst?, show started.payload? = _ from added.exchanged, update_self]
    rfl
  obtain ⟨q, run', kinds⟩ := addOperands_run added.stored (isLive_of_inst? hInst)
    fun op mem => added.grows.contains _ (live op mem)
  refine ⟨i, q, run_bind.mpr ⟨i, started, runNode, run_bind.mpr ⟨(), q, run', rfl⟩⟩, ?_⟩
  have isKind : q.kind? i = some kind := by
    rw [kinds, kind?, hInst]
    rfl
  exact kind_eq_ok.mpr (map_eq_some_iff.mp isKind)

theorem addInst_succeeds (stored : p.Stored) (live : p.isLive v = true) :
    (addInst ty kind [(slot, v)]).Succeeds p := by
  have lives : ∀ op ∈ [(slot, v)], p.isLive op.2 = true := by simpa using live
  obtain ⟨i, q, run, -⟩ : ∃ i q, (addInst ty kind [(slot, v)]).run p = .ok (i, q) ∧
      q.kind i = .ok kind := addInst_run stored lives
  exact ⟨i, q, run⟩

end

end Step

/-! ### Edges -/

namespace Program

/-- A program in which the same constants are spared as much is covered as well. -/
theorem Covered.mono (covered : p.Covered)
    (spares : ∀ v, q.isConstant v = true → p.isConstant v = true ∧ q.spare v = p.spare v) :
    q.Covered := by
  intro v c
  obtain ⟨wasConstant, spare⟩ := spares v c
  rw [spare]
  exact covered v wasConstant

theorem Covered.of_rewires (covered : p.Covered) (rew : p.Rewires q) (spare : q.spare = p.spare) :
    q.Covered := by
  refine covered.mono fun v c => ⟨?_, congrFun spare v⟩
  by_contra other
  rw [rew.isConstant_eq_false (Bool.eq_false_iff.mpr other)] at c
  simp at c

/-- What an edge reads is there. -/
theorem UsesAgree.isLive (agree : p.UsesAgree) (h : p.edges.get? e = some d) :
    p.isLive d.value = true := by
  have mem : e ∈ p.usesOf d.value :=
    (agree.mem_iff d.value e).mpr ⟨d.outline, wire?_of_get? h, rfl⟩
  rw [usesOf] at mem
  cases absent : p.values.get? d.value with
  | none => simp [absent] at mem
  | some n => exact contains_iff_get?.mpr ⟨n, absent⟩

/-- When a covered constant has one owner left after it lost a use, that was its last use. -/
theorem UsesSet.unread_of_last {new : List EdgeId} (changed : p.UsesSet q v new)
    (shorter : new.length + 1 = (p.usesOf v).length)
    (covered : p.isConstant v = true → 0 ≤ p.spare v) (c : q.isConstant v = true)
    (last : q.countOf v = 1) : q.usesOf v = [] := by
  have wasConstant : p.isConstant v = true := by
    rwa [isConstant_eq_of_payload? changed.payloads] at c
  have spares := covered wasConstant
  have spare := congrFun changed.spare v
  rw [update_self, wasConstant, if_pos rfl, Program.spare, c, if_pos rfl, last,
    changed.uses, update_self] at spare
  rw [changed.uses, update_self]
  exact length_eq_zero_iff.mp (by omega)

theorem isBlock_of_mem_targetsOf {tgt : BlockId} (mem : tgt ∈ p.targetsOf i) :
    p.isBlock tgt = true := by
  cases hKind : p.shell? i with
  | none => simp [targetsOf, hKind] at mem
  | some kind =>
    rw [targetsOf, hKind, elim_some] at mem
    obtain ⟨e, -, leads⟩ := mem_filterMap.mp mem
    obtain ⟨d, hWire, -⟩ := bind_eq_some_iff.mp leads
    obtain ⟨-, hb, rfl⟩ := (leadsTo?_eq_some_iff hWire).mp leads
    exact hb

theorem Sound.nestedUnder_answers (hs : p.Sound) (hi : p.isInst i = true) :
    Answers (p.nestedUnder i) := by
  obtain ⟨values, readValues⟩ := operandValues_eq_ok hs.wired (isLive_of_category hi)
  apply Answers.bind readValues
  refine ⟨_, filterM_eq_ok.mpr ⟨fun inner mem => ?_, rfl⟩⟩
  obtain ⟨d, h⟩ := exists_inst?_of_isInst (mem_filter.mp mem).2
  exact Answers.bind (inst_eq_ok.mpr h) (Answers.pure _)

end Program

namespace Step

variable {next : Option InstId}

theorem unlinkEdge_succeeds (agree : p.UsesAgree)
    (covered : ∀ d, p.edges.get? e = some d → p.isConstant d.value = true → 0 ≤ p.spare d.value) :
    (unlinkEdge e).Succeeds p := by
  apply Succeeds.get_bind
  split
  next => exact .pure ()
  next d edges taken =>
    have h := take?_item taken
    have live := agree.isLive h
    refine .bind ⟨(), { p with edges }, rfl⟩ fun _ m run => ?_
    obtain rfl := run_set.mp run
    refine .bind (modifyNode_succeeds _ live) fun _ unused runUses => ?_
    have changed := setUses_spec (swapRemove · e) runUses
    have wired : p.wire? e = some d.outline := by
      exact wire?_of_get? h
    have shorter := agree.removed_length wired
    apply dropConstant_succeeds
    · rw [isLive_iff, changed.payloads, ← isLive_iff]
      exact live
    · exact changed.unread_of_last shorter (covered d h)

theorem unlinkEdges_succeeds {gone : List EdgeId} (stored : p.Stored) (placid : p.Placid)
    (agree : p.UsesAgree) (covered : p.Covered) : (gone.forM unlinkEdge).Succeeds p := by
  induction gone generalizing p with
  | nil => exact .pure ()
  | cons e rest ih =>
    refine .bind (unlinkEdge_succeeds agree fun d _ => covered d.value) fun _ m run => ?_
    have rem := unlinkEdge_spec stored placid agree run
    have rew := unlinkEdge_rewires e run
    apply ih (rew.stored stored)
    · exact placid.of_rewires rew fun v reads => Or.inl (by rwa [rem.operands] at reads)
    · exact rem.usesAgree agree
    · exact covered.of_rewires rew rem.spare

theorem clearOperands_succeeds (stored : p.Stored) (placid : p.Placid) (agree : p.UsesAgree)
    (covered : p.Covered) (live : p.isLive u = true) : (clearOperands u).Succeeds p := by
  obtain ⟨n, found⟩ := contains_iff_get?.mp live
  apply Succeeds.get_bind
  apply Succeeds.lift_bind (operands_eq_ok.mpr ⟨n, found, rfl⟩)
  refine .bind (modifyNode_succeeds _ live) fun _ bare run => ?_
  have changed := setOperands_spec (fun _ => []) run
  have rew := (modifyNode_rewires u) run
  exact unlinkEdges_succeeds (rew.stored stored) (changed.placid rew placid fun _ => rfl)
    (changed.usesAgree agree) (covered.of_rewires rew changed.spare)

theorem modifyInst_sorts {change : Inst → Inst} (run : (modifyInst i change).run p = .ok (a, q)) :
    q.isInst = p.isInst ∧ q.isBlock = p.isBlock := by
  obtain ⟨d, h, rfl⟩ := modifyInst_run.mp run
  constructor
  · funext other
    simp only [Program.isInst_eq, Program.link?, Program.inst?_withInst h, update_apply]
    split
    next eq => simp [eq, h]
    next => rfl
  · simp only [Program.isBlock_eq_ends?, Program.ends?, Program.block?_withInst h]

theorem modifyBlock_sorts {change : Block → Block}
    (run : (modifyBlock b change).run p = .ok (a, q)) :
    q.isInst = p.isInst ∧ q.isBlock = p.isBlock := by
  obtain ⟨d, h, rfl⟩ := modifyBlock_run.mp run
  constructor
  · simp only [Program.isInst_eq, Program.link?, Program.inst?_withBlock h]
  · funext other
    simp only [Program.isBlock_eq_ends?, Program.ends?, Program.block?_withBlock h, update_apply]
    split
    next eq => simp [eq, h]
    next => rfl

theorem modifyPair_succeeds {tgt : BlockId} (first second : Block → Block)
    (isSource : p.isBlock src = true) (ht : p.isBlock tgt = true) :
    (do
      modifyBlock src first
      modifyBlock tgt second : Step Unit).Succeeds p := by
  refine .bind (modifyBlock_succeeds _ isSource) fun _ m run => ?_
  apply modifyBlock_succeeds
  rwa [(modifyBlock_sorts run).2]

/-- The flow graph can follow an edge whose user stands in a block that is there. -/
theorem retarget_succeeds {old : ValueId} {slot : Slot}
    (stands : p.isBlock new = true → ∀ src, p.home? u = some src → p.isBlock src = true) :
    (retarget u slot old new).Succeeds p := by
  apply Succeeds.get_bind
  split
  next hi =>
    obtain ⟨d, h⟩ := exists_inst?_of_isInst hi
    apply Succeeds.lift_bind (kind_eq_ok.mpr ⟨d, h, rfl⟩)
    split
    next =>
      apply Succeeds.lift_bind (parentBlock?_eq_ok.mpr ⟨hi, rfl⟩)
      split
      next src home =>
        split
        next isNew =>
          have isSource := stands isNew src home
          split
          next isOld =>
            refine .bind (modifyPair_succeeds _ _ isSource isOld) fun _ cut runCut => ?_
            have blocks := (unlinkFlow_reflows _ _ runCut).rearranges.blocks
            exact modifyPair_succeeds _ _ (by rwa [blocks]) (by rwa [blocks])
          next => exact modifyPair_succeeds _ _ isSource isNew
        next => exact .pure ()
      next => exact .pure ()
    next => exact .pure ()
  next => exact .pure ()

theorem rebind_succeeds (agree : p.UsesAgree) (h : p.edges.get? e = some d)
    (covered : p.isConstant d.value = true → 0 ≤ p.spare d.value) (liveNew : p.isLive new = true)
    (stands : p.isBlock new = true → ∀ src, p.home? d.user = some src → p.isBlock src = true) :
    (rebind e new).Succeeds p := by
  have live := agree.isLive h
  apply Succeeds.get_bind
  apply Succeeds.lift_bind (edge_eq_ok.mpr h)
  refine .bind (modifyNode_succeeds _ live) fun _ unused runOld => ?_
  have atOld := setUses_spec (swapRemove · e) runOld
  refine .bind (modifyNode_succeeds _ ?_) fun _ used runNew => ?_
  · rwa [isLive_iff, atOld.payloads, ← isLive_iff]
  have atNew := setUses_spec (· ++ [e]) runNew
  have pls : used.payload? = p.payload? := atNew.payloads.trans atOld.payloads
  refine .bind (modifyEdge_succeeds _ (by rwa [atNew.edges, atOld.edges])) fun _ moved runEdge => ?_
  obtain ⟨-, rfl⟩ := modifyEdge_run.mp runEdge
  refine .bind (retainConstant_succeeds ?_) fun _ owned runRetain => ?_
  · rw [isLive_iff] at liveNew ⊢
    rwa [← pls] at liveNew
  obtain ⟨samePayloads, -, -, -, spareOwned⟩ := retainConstant_spec runRetain
  have payloadsOwned : owned.payload? = p.payload? := samePayloads.trans pls
  refine .bind (retarget_succeeds ?_) fun _ reflowed runFlow => ?_
  · simpa only [isBlock, home?, link?_eq_bind, payloadsOwned] using stands
  have reflows := (retarget_reflows _ _ _ _ runFlow).rearranges
  apply dropConstant_succeeds
  · rwa [reflows.isLive, isLive_iff, payloadsOwned, ← isLive_iff]
  · intro c last
    have constants : reflowed.isConstant = p.isConstant := by
      rw [reflows.constants, isConstant_eq_of_payload? payloadsOwned]
    have spares := covered (constants ▸ c)
    -- the old value has lost a use and not yet an owner
    have spared : reflowed.spare d.value = p.spare d.value + 1 := by
      have wired := wire?_of_get? h
      have shorter := agree.removed_length wired
      have isValue : d.outline.value = d.value := rfl
      have spareBetween : owned.spare = update used.spare new
        (used.spare new + if used.isConstant new then 1 else 0) := spareOwned
      rw [constants] at c
      simp only [reflows.spare_eq, spareBetween, atNew.spare, atOld.spare,
        isConstant_eq_of_payload? pls, isConstant_eq_of_payload? atOld.payloads,
        update_apply, atOld.uses, length_append, length_singleton]
      grind
    rw [Program.spare, c, if_pos rfl, last] at spared
    exact length_eq_zero_iff.mp (by omega)

/-! ### Chains -/

theorem setForward_succeeds (hb : p.isBlock b = true) (hi : ∀ i ∈ prev, p.isInst i = true) :
    (setForward b prev tgt).Succeeds p := by
  cases prev with
  | none => exact modifyBlock_succeeds _ hb
  | some prev => exact modifyInst_succeeds _ (hi prev rfl)

theorem setForward_sorts (run : (setForward b prev tgt).run p = .ok (a, q)) :
    q.isInst = p.isInst ∧ q.isBlock = p.isBlock := by
  cases prev with
  | none => exact modifyBlock_sorts run
  | some prev => exact modifyInst_sorts run

theorem setBackward_succeeds (hb : p.isBlock b = true) (hi : ∀ i ∈ next, p.isInst i = true) :
    (setBackward b next tgt).Succeeds p := by
  cases next with
  | none => exact modifyBlock_succeeds _ hb
  | some next => exact modifyInst_succeeds _ (hi next rfl)

theorem setBackward_sorts (run : (setBackward b next tgt).run p = .ok (a, q)) :
    q.isInst = p.isInst ∧ q.isBlock = p.isBlock := by
  cases next with
  | none => exact modifyBlock_sorts run
  | some next => exact modifyInst_sorts run

/-- An instruction can be unlinked when its block and its neighbours are there. -/
theorem unlink_succeeds (h : p.link? i = some l) (holder : l.holder = some (.block b))
    (hb : p.isBlock b = true) (isPrev : ∀ inst ∈ l.prev, p.isInst inst = true)
    (isNext : ∀ inst ∈ l.next, p.isInst inst = true) : (unlink i).Succeeds p := by
  obtain ⟨d, hInst, rfl⟩ := map_eq_some_iff.mp h
  apply Succeeds.get_bind
  apply Succeeds.lift_bind (inst_eq_ok.mpr hInst)
  rw [show d.holder = _ from holder]
  refine .bind (modifyInst_succeeds _ ?_) fun _ first run1 => ?_
  · exact isInst_of_link? h
  obtain ⟨insts, blocks⟩ := modifyInst_sorts run1
  refine .bind (setForward_succeeds (by rwa [blocks]) (by rwa [insts])) fun _ second runSecond => ?_
  obtain ⟨instsSecond, blocksSecond⟩ := setForward_sorts runSecond
  refine .bind (setBackward_succeeds (by rwa [blocksSecond, blocks])
    (by rwa [instsSecond, insts])) fun _ r runThird => ?_
  obtain ⟨-, blocksThird⟩ := setBackward_sorts runThird
  exact modifyBlock_succeeds _ (by rwa [blocksThird, blocksSecond, blocks])

theorem modifyPairs_succeeds {targets : List BlockId} (first : BlockId → Block → Block)
    (second : Block → Block) (isSource : p.isBlock src = true)
    (areTargets : ∀ tgt ∈ targets, p.isBlock tgt = true) :
    (targets.forM fun tgt => do
      modifyBlock src (first tgt)
      modifyBlock tgt second : Step Unit).Succeeds p := by
  induction targets generalizing p with
  | nil => exact .pure ()
  | cons tgt rest ih =>
    refine .bind (modifyPair_succeeds _ _ isSource (areTargets tgt (by simp))) fun _ later run => ?_
    obtain ⟨_, m, runSource, runTarget⟩ := run_bind.mp run
    have blocks : later.isBlock = p.isBlock :=
      (modifyBlock_sorts runTarget).2.trans (modifyBlock_sorts runSource).2
    apply ih
    · rwa [blocks]
    · intro block mem
      rw [blocks]
      exact areTargets block (by simp [mem])

theorem detachFlow_succeeds (wired : p.Wired) (hi : p.isInst i = true) (hb : p.isBlock b = true) :
    (detachFlow b i).Succeeds p := by
  apply Succeeds.get_bind
  apply Succeeds.lift_bind (wired.targets_eq_ok hi)
  exact modifyPairs_succeeds _ _ hb fun tgt => isBlock_of_mem_targetsOf

theorem disconnect_succeeds (hs : p.Sound) (h : p.link? i = some l) (conn : l.status = .connected) :
    (disconnect i).Succeeds p := by
  obtain ⟨b, holder, mem⟩ := hs.chains.attached i l h conn
  have hi : p.isInst i = true := isInst_of_link? h
  have home : p.home? i = some b := by simp [home?, h, holder, Holder.home?]
  have hb := hs.isBlock_of_home? home
  apply Succeeds.get_bind
  apply Succeeds.lift_bind (parentBlock?_eq_ok.mpr ⟨hi, home⟩)
  refine .bind (detachFlow_succeeds hs.wired hi hb) fun _ m run => ?_
  have skeleton := (detachFlow_reflows b i run).rewires.skeleton
  obtain ⟨front, rest, split⟩ := append_of_mem mem
  have linked := hs.chains.linked b front i rest split
  obtain rfl := mem_unique h linked
  have neighbours : ∀ inst ∈ p.threads b, m.isInst inst = true := by
    intro inst inThread
    rw [skeleton.isInst]
    exact hs.isInst_of_mem_threads inThread
  refine unlink_succeeds (by rwa [skeleton.link?]) rfl (by rwa [skeleton.isBlock]) ?_ ?_
  · intro inst isPrev
    exact neighbours inst (by simp [split, mem_of_getLast? isPrev])
  · intro inst isNext
    exact neighbours inst (by simp [split, mem_of_head? isNext])

end Step

/-! ### Finalization -/

namespace Program

theorem Dropped.link?_of_ne (drop : p.Dropped q v) (ne : i ≠ v) : q.link? i = p.link? i := by
  simp only [link?, inst?, payload?, drop.node_of_ne ne]

/-- Constants are spared as much as before when an instruction is taken apart. -/
theorem Wrecks.spare_of_constant (wrecks : p.Wrecks q) (c : q.isConstant v = true) :
    p.isConstant v = true ∧ q.spare v = p.spare v := by
  have rearranged : ∀ {p q : Program}, p.Rearranges q → q.isConstant v = true →
        p.isConstant v = true ∧ q.spare v = p.spare v := by
    intro p q rea c
    exact ⟨by rwa [← rea.constants], by rw [rea.spare_eq]⟩
  cases wrecks with
  | detach i reth => exact rearranged reth.toRearranges c
  | strip i l h st rem kinds =>
    refine ⟨?_, by rw [rem.spare]⟩
    by_contra other
    rw [rem.rewires.isConstant_eq_false (Bool.eq_false_iff.mpr other)] at c
    simp at c
  | mark i l st stripped relink =>
    exact rearranged relink.restrings.rearranges c
  | drop i l h fin dropped =>
    have isConstant := (isConstant_iff.mp c).1
    obtain ⟨n, found⟩ := contains_iff_get?.mp isConstant
    have ne : v ≠ i := by
      rintro rfl
      obtain ⟨d, hInst, -⟩ := map_eq_some_iff.mp h
      rw [inst?_eq_some_iff, payload?, dropped.node_before found, map_some, some.injEq] at hInst
      simp [Program.isConstant, payload?, found, hInst, Payload.category] at c
    refine ⟨?_, by rw [dropped.spare, update_of_ne ne]⟩
    rwa [Program.isConstant, payload?, ← dropped.node_of_ne ne]

/-- An edge that is still there when instructions have been taken apart is still listed by
its user, which is not finalized. -/
theorem Wrecks.listed {u : InstId} (wrecks : p.Wrecks q) (ongoing : p.Ongoing u)
    (listed : e ∈ p.operandsOf u) (there : q.wire? e = some d) :
    q.Ongoing u ∧ e ∈ q.operandsOf u := by
  obtain ⟨l, h, st⟩ := ongoing
  cases wrecks with
  | detach i reth =>
    refine ⟨?_, by rwa [reth.operands]⟩
    rcases reth.refloats u with eq | ⟨old, new, -, hNew, -, floats⟩
    · exact ⟨l, eq.trans h, st⟩
    · exact ⟨new, hNew, by rcases floats with isNew | isNew <;> simp [isNew]⟩
  | strip i stripLink hStrip statusStrip rem kinds =>
    have ne : u ≠ i := by
      rintro rfl
      rw [rem.wires, if_pos listed] at there
      simp at there
    refine ⟨⟨l, by rwa [rem.rewires.skeleton.link?], st⟩, ?_⟩
    rwa [rem.operands, update_of_ne ne]
  | mark i markLink statusMark stripped relink =>
    have ne : u ≠ i := by
      rintro rfl
      simp [stripped] at listed
    refine ⟨⟨l, by rwa [relink.links, update_of_ne ne], st⟩, ?_⟩
    rwa [relink.restrings.operands]
  | drop i dropLink hDrop fin dropped =>
    have ne : u ≠ i := by
      rintro rfl
      obtain rfl := mem_unique h hDrop
      exact st fin
    refine ⟨⟨l, by rwa [dropped.link?_of_ne ne], st⟩, ?_⟩
    rwa [operandsOf, dropped.node_of_ne ne]

theorem Wrecked.listed {u : InstId} (wrecked : Wrecked p q) (hs : p.Sound) (ongoing : p.Ongoing u)
    (listed : e ∈ p.operandsOf u) (there : q.wire? e = some d) :
    q.Ongoing u ∧ e ∈ q.operandsOf u := by
  induction wrecked with
  | refl => exact ⟨ongoing, listed⟩
  | tail earlier last ih =>
    have hsm := Wrecked.sound earlier hs
    obtain ⟨ongoingMiddle, listedMiddle⟩ := ih ((last.dwindles hsm).wires e d there)
    exact last.listed ongoingMiddle listedMiddle there

/-- An instruction is one of some instructions or is nested under one of them. -/
def Within (program : Program) (insts : List InstId) (inst : InstId) : Prop :=
  ∃ root ∈ insts, Relation.ReflTransGen program.Holds root inst

theorem Within.tail {outer inner : InstId} (within : p.Within insts outer)
    (holds : p.Holds outer inner) : p.Within insts inner := by
  obtain ⟨root, mem, path⟩ := within
  exact ⟨root, mem, path.tail holds⟩

theorem Within.mono {more : List InstId} (within : p.Within insts i) (all : insts ⊆ more) :
    p.Within more i := by
  obtain ⟨root, mem, path⟩ := within
  exact ⟨root, all mem, path⟩

/-- The instructions of a region can be taken apart: constants are covered, what is carried by
the region is in it as well, and nothing but its holder reads it. -/
structure Clearable (program : Program) (region : InstId → Prop) : Prop where
  sound : program.Sound
  covered : program.Covered
  rooted : program.Rooted
  closed : program.Closed region
  once : ∀ outer inner, program.Holds outer inner → region outer →
    (program.usesOf inner).length ≤ 1
  lone : ∀ outer inner, program.Holds outer inner → region outer →
    ∀ edge ∈ program.usesOf inner, program.Ongoing outer ∧ edge ∈ program.operandsOf outer

theorem Dwindles.isInst_before (dw : p.Dwindles q) (hi : q.isInst i = true) :
    p.isInst i = true := by
  obtain ⟨d, h⟩ := exists_inst?_of_isInst hi
  have hKind := dw.kinds i d.kind (by rw [kind?, h, map_some])
  obtain ⟨old, hOld, -⟩ := map_eq_some_iff.mp hKind
  exact isInst_of_inst? hOld

/-- What is left of the uses of a node were uses of it. -/
theorem Dwindles.mem_usesOf_before (dw : p.Dwindles q) (hsb : p.Sound) (hsq : q.Sound)
    (mem : e ∈ q.usesOf v) : e ∈ p.usesOf v := by
  obtain ⟨d, h, reads⟩ := (hsq.wired.uses.mem_iff v e).mp mem
  exact (hsb.wired.uses.mem_iff v e).mpr ⟨d, dw.wires e d h, reads⟩

theorem Wrecked.spare_of_constant (wrecked : Wrecked p q) (c : q.isConstant v = true) :
    p.isConstant v = true ∧ q.spare v = p.spare v := by
  induction wrecked with
  | refl => exact ⟨c, rfl⟩
  | tail _ last ih =>
    obtain ⟨constm, spare⟩ := last.spare_of_constant c
    obtain ⟨constantBefore, spareMiddle⟩ := ih constm
    exact ⟨constantBefore, spare.trans spareMiddle⟩

theorem Clearable.of_wrecked (clear : p.Clearable region) (wrecked : Wrecked p q) :
    q.Clearable region := by
  have dw := Wrecked.dwindles wrecked clear.sound
  have hsq := Wrecked.sound wrecked clear.sound
  refine
    { sound := hsq
      covered := clear.covered.mono fun _ => Wrecked.spare_of_constant wrecked
      rooted := clear.rooted.mono fun _ _ => dw.holds_before
      closed := clear.closed.of_dwindles dw
      once := fun outer inner holds inside => ?_
      lone := fun outer inner holds inside e mem => ?_ }
  · have fewer := ((hsq.wired.uses.nodup inner).subperm fun e =>
      dw.mem_usesOf_before clear.sound hsq).length_le
    exact fewer.trans (clear.once outer inner (dw.holds_before holds) inside)
  · obtain ⟨ongoing, listed⟩ := clear.lone outer inner (dw.holds_before holds) inside
      e (dw.mem_usesOf_before clear.sound hsq mem)
    obtain ⟨d, h, -⟩ := (hsq.wired.uses.mem_iff inner e).mp mem
    exact Wrecked.listed wrecked clear.sound ongoing listed h

/-- An instruction that is not nested is there when another has been finalized. -/
theorem Finalized.isInst {inst : InstId} (fin : p.Finalized q i) (shield : p.Shielded inst)
    (hi : p.isInst inst = true) : q.isInst inst = true := by
  by_cases eq : inst = i
  · obtain ⟨l, h, -⟩ := fin.finalized
    simp [eq, isInst_eq, h]
  · have st := fin.others inst eq shield
    have fromStatus : ∀ s : Program, s.isInst inst = (s.status? inst).isSome := by
      intro s
      simp [isInst_eq, status?]
    rwa [fromStatus, st, ← fromStatus]

theorem Sound.nodup_nestedUnder (hs : p.Sound) (read : p.nestedUnder i = .ok nested)
    (once : ∀ inner, p.Holds i inner → (p.usesOf inner).length ≤ 1) : nested.Nodup := by
  obtain ⟨-, members, -⟩ := nestedUnder_spec hs read
  simp only [nestedUnder, bind_eq_ok] at read
  obtain ⟨values, readValues, filtered⟩ := read
  obtain ⟨-, rfl⟩ := filterM_eq_ok.mp filtered
  simp only [operandValues, bind_eq_ok, operands_eq_ok, mapM_eq_ok] at readValues
  obtain ⟨_, ⟨n, found, rfl⟩, each⟩ := readValues
  rw [← operandsOf_eq found] at each
  rw [nodup_iff_count_le_one]
  intro inner
  by_cases mem : inner ∈ (values.filter p.isInst).filter fun inner => Except.accepts do
      return (← p.inst inner).holder == some (.inst i)
  · obtain ⟨-, l, h, -, holder⟩ := members inner mem
    -- each time that the instruction is told there is another edge that reads it
    have told : values.count inner = ((p.operandsOf i).filter (· ∈ p.usesOf inner)).length := by
      clear found filtered members mem
      generalize p.operandsOf i = edges at each ⊢
      induction each with
      | nil => rfl
      | @cons e _ _ _ first _ ih =>
        simp only [edgeValue, bind_eq_ok, pure_eq_ok, edge_eq_ok] at first
        obtain ⟨d, hEdge, rfl⟩ := first
        rw [count_cons, filter_cons, ih]
        have reads : e ∈ p.usesOf inner ↔ d.value = inner := by
          simp [hs.wired.uses.mem_iff, wire?, hEdge, Edge.outline]
        by_cases eq : d.value = inner <;> simp [reads, eq]
    calc _ ≤ values.count inner :=
          (filter_sublist.trans filter_sublist).count_le inner
      _ = _ := told
      _ ≤ (p.usesOf inner).length :=
          (((hs.wired.nodup i).filter _).subperm fun e => by simp).length_le
      _ ≤ 1 := once inner ⟨l, h, holder⟩
  · rw [count_eq_zero_of_not_mem mem]
    exact Nat.zero_le 1

end Program

namespace Step

/-- What is nested under an instruction without operands is finalized and given up, if each
part of it can be finalized. -/
theorem dropNested_succeeds
    (each : ∀ s, p.Dwindles s → s.Clearable region → ∀ inner ∈ nested,
      s.isInst inner = true → s.Removable inner → s.Shielded inner →
        (finalizeWithin fuel inner).Succeeds s) (clear : p.Clearable region) (nd : nested.Nodup)
    (hi : ∀ inner ∈ nested, p.isInst inner = true)
    (out : ∀ inner ∈ nested, ∀ b, inner ∉ p.threads b)
    (shield : ∀ inner ∈ nested, p.Shielded inner) (unread : ∀ inner ∈ nested, p.usesOf inner = []) :
    (nested.forM fun inner => do
      finalizeWithin fuel inner
      dropHandle inner).Succeeds p := by
  induction nested generalizing p with
  | nil => exact .pure ()
  | cons inner rest ih =>
    obtain ⟨away, nd'⟩ := nodup_cons.mp nd
    have hs := clear.sound
    have removable := removable_of_outside (out inner (by simp))
    have isShielded := shield inner (by simp)
    have still : ∀ s : Program, s.Sound → p.Dwindles s →
      ∀ inst ∈ inner :: rest, s.usesOf inst = [] := by
      intro s hsProgram dw inst mem
      rw [eq_nil_iff_forall_not_mem]
      intro e isUse
      have wasUse := dw.mem_usesOf_before hs hsProgram isUse
      simp [unread inst mem] at wasUse
    have first : (do finalizeWithin fuel inner; dropHandle inner : Step Unit).Succeeds p := by
      refine .bind (each p (.refl _) clear inner (by simp) (hi inner (by simp))
        removable isShielded) fun _ m run => ?_
      have fin := finalizeWithin_finalized hs removable isShielded run
      obtain ⟨l, h, -⟩ := fin.finalized
      exact dropHandle_succeeds (isLive_of_category (isInst_of_link? h))
        fun _ => still m (fin.razed.sound hs) (fin.razed.dwindles hs) inner (by simp)
    refine .bind first fun _ given run => ?_
    obtain ⟨_, m, runFin, runDrop⟩ := run_bind.mp run
    have fin := finalizeWithin_finalized hs removable isShielded runFin
    obtain ⟨l, h, st⟩ := fin.finalized
    have hsm := fin.razed.sound hs
    have drop := dropHandle_spec hsm.stored runDrop
    have razed := fin.razed.trans (drop.razed hsm h st) hs
    have dw := razed.dwindles hs
    apply ih
    · exact fun s further clearableProgram inst mem =>
        each s (dw.trans further) clearableProgram inst (by simp [mem])
    · exact clear.of_wrecked razed.wrecked
    · exact nd'
    · intro inst mem
      have ne : inst ≠ inner := fun eq => away (eq ▸ mem)
      have isOther := fin.isInst (shield inst (by simp [mem])) (hi inst (by simp [mem]))
      simp only [isInst_eq, drop.link?_of_ne ne] at isOther ⊢
      exact isOther
    · exact fun inst mem b inThread =>
        out inst (by simp [mem]) b ((dw.threads b).subset inThread)
    · exact fun inst mem => (shield inst (by simp [mem])).of_dwindles dw
    · exact fun inst mem => still given (razed.sound hs) dw inst (by simp [mem])

section

variable (clear : p.Clearable region) (inside : region i)
include clear inside

/-- Once an instruction is out of its block, it is stripped of its operands, what is nested
under it goes, and it is marked. -/
theorem stripNested_succeeds (h : p.link? i = some l) (apart : l.status ≠ .connected)
    (shield : p.Shielded i)
    (each : ∀ (s : Program) (inner : InstId), p.Dwindles s →
      s.Clearable region → region inner → p.Holds i inner →
        s.isInst inner = true → s.Removable inner → s.Shielded inner →
          (finalizeWithin fuel inner).Succeeds s) :
    (do
      let nested ← (← get).nestedUnder i
      clearOperands i
      nested.forM fun inner => do
        finalizeWithin fuel inner
        dropHandle inner
      markFinalized i : Step Unit).Succeeds p := by
  have hs := clear.sound
  have hi : p.isInst i = true := isInst_of_link? h
  obtain ⟨nested, readNested⟩ := hs.nestedUnder_answers hi
  obtain ⟨-, nestedMembers, -⟩ := nestedUnder_spec hs readNested
  apply Succeeds.get_bind
  apply Succeeds.lift_bind readNested
  refine .bind (clearOperands_succeeds hs.stored hs.wired.placid hs.wired.uses
    clear.covered (isLive_of_category hi)) fun _ stripped runStrip => ?_
  obtain ⟨rem, kinds⟩ := clearOperands_spec hs.stored hs.wired.placid hs.wired.uses runStrip
  have strip : p.Wrecks stripped := .strip i l h apart rem kinds
  have clearableStripped := clear.of_wrecked (.single strip)
  have hsStripped := clearableStripped.sound
  have dw := strip.dwindles hs
  have linksStripped := rem.rewires.skeleton.link?
  -- what is nested is held by the instruction and read by nothing else
  have carries : ∀ inner ∈ nested, p.Carries i inner := by
    intro inner mem
    obtain ⟨reads, innerLink, hInner, -, holder⟩ := nestedMembers inner mem
    exact ⟨⟨innerLink, hInner, holder⟩, reads⟩
  have holds := fun inner mem => (carries inner mem).holds
  have out : ∀ inner ∈ nested, ∀ b, inner ∉ stripped.threads b := by
    intro inner mem
    obtain ⟨-, innerLink, hInner, st, -⟩ := nestedMembers inner mem
    rw [← linksStripped] at hInner
    exact hsStripped.chains.not_mem_of_status hInner (by simp [st])
  have shieldedNested : ∀ inner ∈ nested, stripped.Shielded inner := by
    intro inner mem link outer again holderFound
    obtain ⟨innerLink, hInner, holder⟩ := holds inner mem
    rw [← linksStripped] at hInner
    obtain rfl := mem_unique hInner again
    rw [holder, some.injEq, Holder.inst.injEq] at holderFound
    rw [← holderFound, rem.operands, update_self]
  have unread : ∀ inner ∈ nested, stripped.usesOf inner = [] := by
    intro inner mem
    rw [eq_nil_iff_forall_not_mem]
    intro e isUse
    obtain ⟨-, listed⟩ := clear.lone i inner (holds inner mem) inside e
      (dw.mem_usesOf_before hs hsStripped isUse)
    obtain ⟨d, hEdge, -⟩ := (hsStripped.wired.uses.mem_iff inner e).mp isUse
    rw [rem.wires, if_pos listed] at hEdge
    simp at hEdge
  have isNested : ∀ inner ∈ nested, stripped.isInst inner = true := by
    intro inner mem
    obtain ⟨innerLink, hInner, -⟩ := holds inner mem
    simp [isInst_eq, linksStripped, hInner]
  refine .bind (dropNested_succeeds (fun s further clearableProgram inner mem isInner =>
    ?_) clearableStripped ?_ isNested out shieldedNested unread) fun _ emptied runNested => ?_
  · exact each s inner (dw.trans further) clearableProgram
      (clear.closed i inner (carries inner mem) inside) (holds inner mem) isInner
  · exact hs.nodup_nestedUnder readNested fun inner isHeld =>
      clear.once i inner isHeld inside
  · obtain ⟨-, -, -, others, -⟩ := dropNested_razed finalizeWithin_finalized hsStripped out
      shieldedNested runNested
    have away : i ∉ nested := fun mem => clear.rooted.acyclic (.single (holds i mem))
    have st := others i away (shield.of_dwindles dw)
    apply modifyInst_succeeds
    rw [status?, status?, linksStripped, h, map_some] at st
    obtain ⟨emptiedLink, hEmptied, -⟩ := map_eq_some_iff.mp st
    exact isInst_of_link? hEmptied

/-- Finalizing an instruction comes to its end within the bound, because nothing is nested
under itself. -/
theorem finalizeWithin_succeeds {start : Program} {passed : List InstId} (hi : p.isInst i = true)
    (removable : p.Removable i) (shield : p.Shielded i) (rooted : start.Rooted)
    (dw : start.Dwindles p) (trail : start.Trail start.Holds i passed)
    (enough : start.values.slots.size ≤ passed.length + fuel) :
    (finalizeWithin (fuel + 1) i).Succeeds p := by
  induction fuel generalizing p i passed with
  | zero =>
    have room := trail.length_lt rooted.acyclic (dw.isInst_before hi)
    omega
  | succ fuel ih =>
    have hs := clear.sound
    obtain ⟨d, hInst⟩ := exists_inst?_of_isInst hi
    have h : p.link? i = some d.link := by
      exact link?_of_inst? hInst
    have isInstStart := dw.isInst_before hi
    -- what is nested under the instruction has passed it
    have each : ∀ m : Program, p.Dwindles m → ∀ (s : Program) (inner : InstId), m.Dwindles s →
          s.Clearable region → region inner → m.Holds i inner →
            s.isInst inner = true → s.Removable inner → s.Shielded inner →
              (finalizeWithin (fuel + 1) inner).Succeeds s := by
      intro m dwindlesMiddle s inner dwindlesProgram clearableProgram insideInner holds
        isInner removableInner shieldedInner
      refine ih clearableProgram insideInner isInner removableInner shieldedInner
        ((dw.trans dwindlesMiddle).trans dwindlesProgram)
        (trail.cons rooted.acyclic isInstStart
          (dw.holds_before (dwindlesMiddle.holds_before holds))) ?_
      rw [length_cons]
      omega
    rw [finalizeWithin]
    apply Succeeds.get_bind
    apply Succeeds.lift_bind (status_eq_ok.mpr ⟨d, hInst, rfl⟩)
    split
    next => exact .pure ()
    next =>
      split
      next conn =>
        refine .bind (disconnect_succeeds hs h conn) fun _ det run => ?_
        obtain ⟨razed, threads, ⟨l, hDetached⟩, -, -⟩ := detach_spec hs removable h
          (Or.inl ⟨conn, run⟩)
        have dwindlesDetached := razed.dwindles hs
        have out : ∀ b, i ∉ det.threads b := by
          intro b
          rw [threads]
          exact (hs.chains.nodup b).not_mem_erase
        exact stripNested_succeeds (clear.of_wrecked razed.wrecked) inside hDetached
          ((razed.sound hs).status_of_outside out hDetached)
          (shield.of_dwindles dwindlesDetached) (each det dwindlesDetached)
      next apart =>
        exact stripNested_succeeds clear inside h apart shield (each p (.refl _))

theorem finalizeInst_succeeds (hi : p.isInst i = true) (removable : p.Removable i)
    (shield : p.Shielded i) : (finalizeInst i).Succeeds p := by
  apply Succeeds.get_bind
  exact finalizeWithin_succeeds clear inside hi removable shield clear.rooted (.refl _)
    (.nil _ _ _) (by simp)

end

/-! ### Groups of instructions -/

theorem finalizeAll_isInst (hs : p.Sound) (ord : p.Ordered insts)
    (isShielded : ∀ i ∈ insts, p.Shielded i) (shield : p.Shielded i) (hi : p.isInst i = true)
    (run : (insts.forM finalizeInst).run p = .ok (a, q)) : q.isInst i = true := by
  induction insts generalizing p with
  | nil =>
    obtain rfl := run_forM_nil.mp run
    exact hi
  | cons first rest ih =>
    obtain ⟨m, run1, run'⟩ := run_forM_cons.mp run
    have fin := finalizeInst_finalized hs ord.removable (isShielded first (by simp)) run1
    have dw := fin.razed.dwindles hs
    apply ih (fin.razed.sound hs) _ _ (shield.of_dwindles dw) (fin.isInst shield hi) run'
    · exact ord.tail hs.chains fun b => congrFun fin.threads b
    · exact fun inst mem => (isShielded inst (by simp [mem])).of_dwindles dw

theorem dropAll_succeeds {values : List ValueId} (stored : p.Stored) (nd : values.Nodup)
    (live : ∀ v ∈ values, p.isLive v = true) (unread : ∀ v ∈ values, p.usesOf v = []) :
    (values.forM dropHandle).Succeeds p := by
  induction values generalizing p with
  | nil => exact .pure ()
  | cons v rest ih =>
    obtain ⟨away, nd'⟩ := nodup_cons.mp nd
    refine .bind (dropHandle_succeeds (live v (by simp)) fun _ => unread v (by simp))
      fun _ m run => ?_
    have drop := dropHandle_spec stored run
    apply ih drop.stored nd'
    · intro value mem
      have ne : value ≠ v := fun eq => away (eq ▸ mem)
      have isLive := live value (by simp [mem])
      rw [Program.isLive, contains_iff_get?] at isLive ⊢
      rwa [drop.node_of_ne ne]
    · intro value mem
      rw [drop.usesOf]
      exact unread value (by simp [mem])

end Step

end ValueGraph
