import Mathlib
import ValueGraph.Operation
import ValueGraph.Proofs.Disposal

namespace ValueGraph

open Program

/-!
# Operations

What every operation leads to.  An operation that is carried out is a sequence of
moves and shifts balances by what it credits to the client; one that is refused
leaves the program as it was, except that a new block may stay behind.
-/

variable {f : FuncId} {b : BlockId} {cause : Refusal} {op : Operation} {reply : Reply}
  {p q s : Program}

/-! ### Refused edits -/

namespace Edit

variable {α β : Type}

/-- An edit that leaves the program as it was when it is refused. -/
def Reverts (edit : Edit α) : Prop :=
  ∀ program cause after, edit program = .refused cause after → after = program

theorem reverts_perform (step : Step α) : (perform step).Reverts :=
  fun _ _ _ refused => absurd refused (perform_ne_refused _ _ _ _)

theorem reverts_plan (look : Program → Except Halt (Step α)) : (plan look).Reverts :=
  fun _ _ _ => after_eq_of_plan_refused

theorem Reverts.map {edit : Edit α} (reverts : edit.Reverts) (change : α → β) :
    (edit.map change).Reverts :=
  fun s cause q refused => reverts s cause q (map_eq_refused.mp refused)

end Edit

/-- A block that stays behind: new, with one owner, empty and outside any function.
Nothing else in the program is different. -/
structure Program.LeavesBlock (before after : Program) (block : BlockId) : Prop where
  others : after = { before with values :=
    (before.values.insert (Node.fresh TypeId.label (.block Block.detached))).2 }
  added : before.Added after block TypeId.label (.block Block.detached)

/-- A block cannot be attached to a function that is not there; a new one can be
attached to any other. -/
theorem Program.LeavesBlock.appendBlock_refused_iff {m : Program} (leaves : p.LeavesBlock m b) :
    (∃ cause q, appendBlock f b m = .refused cause q) ↔ p.isFunction f = false := by
  have h : m.payload? b = some (.block Block.detached) := by
    rw [show m.payload? = _ from leaves.added.exchanged, Function.update_self]
  have hBlock : m.block b = .ok Block.detached := block_eq_ok.mpr (block?_eq_some_iff.mpr h)
  have sameFunction : m.isFunction f = p.isFunction f := by
    by_cases eq : f = b
    · subst eq
      simp [isFunction, h, leaves.added.payload?_eq_none, Payload.category]
    · simp only [isFunction, leaves.added.exchanged.category_of_ne eq]
  unfold appendBlock
  simp only [Edit.plan_eq_refused]
  cases isFn : p.isFunction f with
  | true =>
    have checked : m.checkAttachable f b = .ok () := by
      simp only [checkAttachable, requireBlock, bind_eq_ok, liftHalt_eq_ok, require_eq_ok]
      refine ⟨(), by rw [sameFunction, isFn], (), ?_, Block.detached, hBlock, (), rfl,
        none, ?_, rfl⟩
      · simp [isBlock, h, Payload.category]
      · rw [terminator?, hBlock]
        rfl
    simp [checked]
  | false =>
    have checked : m.checkAttachable f b = .error (.refused (.edit (.missing .function))) := by
      unfold checkAttachable require
      rw [sameFunction, isFn]
      rfl
    rw [checked]
    exact iff_of_true ⟨_, m, rfl, rfl⟩ rfl

section AddBlock

variable (hs : p.Sound)
include hs

theorem createBlock_leavesBlock (run : createBlock p = .done b q) : p.LeavesBlock q b := by
  have performed := Edit.perform_eq_done.mp run
  exact ⟨(Step.addNode_run.mp performed).2.symm, Step.addNode_spec hs.stored performed⟩

theorem addBlock_refused (run : addBlock f p = .refused cause q) :
    p.isFunction f = false ∧ ∃ b, p.LeavesBlock q b := by
  simp only [addBlock, Edit.andThen_eq_refused, Edit.map_eq_refused] at run
  rcases run with refused | ⟨b, m, runCreate, refused⟩
  · exact absurd refused (Edit.perform_ne_refused _ _ _ _)
  · have leaves := createBlock_leavesBlock hs runCreate
    obtain rfl := Edit.after_eq_of_plan_refused refused
    exact ⟨leaves.appendBlock_refused_iff.mp ⟨cause, q, refused⟩, b, leaves⟩

end AddBlock

namespace Operation

/-- An operation that is refused leaves the program as it was.  Most look before they act; those
that make several edits could be refused after the first of them, but in a sound program they are
not. -/
theorem reverts_run (hs : p.Sound) (other : ∀ f, op ≠ .addBlock f)
    (refused : op.run p = .refused cause q) : q = p := by
  cases op
  all_goals simp only [run] at refused
  case addBlock f => exact absurd rfl (other f)
  case replaceTarget => exact replaceTarget_reverts hs (Edit.map_eq_refused.mp refused)
  case replaceTargetOnce => exact replaceTargetOnce_reverts hs (Edit.map_eq_refused.mp refused)
  case splitBlock => exact splitBlock_reverts hs (Edit.map_eq_refused.mp refused)
  case requestType | constBool | setConstantGlobal | createBlock | buildUnreachable =>
    exact (Edit.reverts_perform _).map _ p cause q refused
  all_goals exact (Edit.reverts_plan _).map _ p cause q refused

end Operation

/-! ### What operations promise -/

namespace Operation

/-- Whether an operation makes an edge read another node. -/
def Rebinds (operation : Operation) (program : Program) (data : Edge) (new : ValueId) : Prop :=
  new ≠ data.value ∧
    match operation with
    | .setUse edge value => program.edges.get? edge = some data ∧ value = some new
    | .replaceOperands user pattern replacement =>
      (∃ edge ∈ program.operandsOf user, program.edges.get? edge = some data) ∧
        data.value = pattern ∧ new = replacement
    | .replaceUses value replacement =>
      (∃ edge, program.edges.get? edge = some data) ∧ data.value = value ∧ new = replacement
    | _ => False

/-- Nothing is added to the operands of a finalized instruction. -/
def SparesFinalized (operation : Operation) (program : Program) : Prop :=
  match operation with
  | .addIncoming inst _ _ | .addCase inst _ _ => program.status? inst ≠ some .finalized
  | _ => True

/-- No register write is made to read something else in the place of what is nested
under it. -/
def KeepsNested (operation : Operation) (program : Program) : Prop :=
  ∀ data new, operation.Rebinds program data new → program.shell? data.user = some .regWrite →
    data.slot = .fixed 1 → ∀ link, program.link? data.value = some link →
      link.holder ≠ some (.inst data.user)

/-- No edge that a rule is about is made to read anything but what the rule asks for. -/
def KeepsRule (operation : Operation) (program : Program) (rule : Rule) : Prop :=
  ∀ data new, operation.Rebinds program data new →
    program.rule? data.user data.slot = some rule → program.Meets new rule

/-- No register is given back but by the function that lists it. -/
def ReturnsOwned (operation : Operation) (program : Program) : Prop :=
  match operation with
  | .freeRegister register => program.isRegister register = true → program.isOwned register = true
  | _ => True

/-- No function or global is given another name but one that the program lists. -/
def RenamesListed (operation : Operation) (program : Program) : Prop :=
  match operation with
  | .rename symbol _ | .setName symbol _ =>
    program.isFunction symbol = true ∨ program.isGlobal symbol = true → program.Lists symbol
  | _ => True

/-- The functions that an operation tears down: those whose last handle it gives up. -/
def Razes (operation : Operation) (program : Program) (function : FuncId) : Prop :=
  program.isFunction function = true ∧ program.countOf function = 1 ∧
    match operation with
    | .eraseFunction value | .release value => function = value
    | _ => False

/-- What an operation promises beyond what it checks. -/
def promise (operation : Operation) (program : Program) : Promise where
  sparesFinalized := operation.SparesFinalized program
  keepsNested := operation.KeepsNested program
  keepsRule := operation.KeepsRule program
  returnsOwned := operation.ReturnsOwned program
  renamesListed := operation.RenamesListed program
  isNew := fun value => program.isLive value = false
  razes := operation.Razes program
  agrees := program.Lodged fun _ => False

theorem Rebinds.honours {d : Edge} {new : ValueId} (rebinds : op.Rebinds s d new) :
    s.Honours (op.promise s) d new where
  nested keeps := keeps d new rebinds
  rules _ keeps asks _ := keeps d new rebinds asks

/-! ### What operations credit -/

/-- The handle that the client loses on a node that is erased: none if a container
owned the node. -/
def erased (program : Program) (value : ValueId) : ValueId → Int :=
  if program.isOwned value then 0 else Pi.single value (-1)

/-- The handles that an operation gives to the client or takes from it. -/
def credit (operation : Operation) (before : Program) (reply : Reply) : ValueId → Int :=
  match operation, reply with
  -- new constants, instructions and blocks belong to the client
  | .constSigned .., .value new | .constUnsigned .., .value new | .constBool .., .value new
  | .constFloat .., .value new | .constZero .., .value new | .constNull .., .value new
  | .constUndefined .., .value new | .createBlock, .value new | .buildBinary .., .value new
  | .buildCompare .., .value new | .buildUnary .., .value new | .buildSelect .., .value new
  | .buildCast .., .value new | .buildAutomaticCast .., .value new | .buildAlloca .., .value new
  | .buildLoad .., .value new | .buildStore .., .value new | .buildElementPtr .., .value new
  | .buildPhi .., .value new | .buildCall .., .value new | .buildRet .., .value new
  | .buildBr .., .value new | .buildCondBr .., .value new | .buildSwitch .., .value new
  | .buildUnreachable, .value new => Pi.single new 1
  | .buildRegWrite _ value, .value new =>
    Pi.single new 1 +
      if before.status? value = some .disconnected then Pi.single value (-1) else 0
  | .splitBlock start, .value new =>
    if (before.home? start).bind before.seat? = some none then Pi.single new 1 else 0
  | .retain value, _ => Pi.single value 1
  | .release value, _ => Pi.single value (-1)
  -- what is inserted or attached belongs to its container
  | .pushBack _ inst, _ | .pushFront _ inst, _ | .insertBefore _ inst, _
  | .insertAfter _ inst, _ => Pi.single inst (-1)
  | .appendBlock _ block, _ | .insertBlockAfter _ block, _ => Pi.single block (-1)
  | .remove inst, _ => Pi.single inst 1
  | .setTerminator _ inst, .optional old =>
    Pi.single inst (-1) + old.elim 0 (Pi.single · 1)
  | .eraseFunction value, _ | .eraseGlobal value, _ | .eraseBlock value, _
  | .eraseInstruction value, _ | .freeRegister value, _ => erased before value
  | _, _ => 0

theorem erased_eq (s : Program) (v : ValueId) : erased s v = Pi.single v (s.owned v - 1) := by
  unfold erased owned
  split <;> simp

/-! ### What operations lead to -/

theorem status_of_spares {i : InstId} (spares : s.status? i ≠ some .finalized) (l : Link)
    (h : s.link? i = some l) : l.status ≠ .finalized :=
  fun fin => spares (by rw [status?, h, Option.map_some, fin])

/-- Every operation that is carried out is a sequence of moves that shifts balances by
what it credits. -/
theorem leads (hs : p.Sound) (run : op.run p = .done reply q) :
    p.Leads (op.promise p) q (op.credit p reply) := by
  cases op
  all_goals
    simp only [Operation.run, silent, Edit.map_eq_done] at run
    obtain ⟨a, run, rfl⟩ := run
  case requestType => exact requestType_leads hs run
  case constSigned => exact constUnsigned_leads hs run
  case constUnsigned => exact constUnsigned_leads hs run
  case constBool => exact constBool_leads hs run
  case constFloat => exact constFloat_leads hs run
  case constZero => exact constZero_leads hs run
  case constNull => exact constNull_leads hs run
  case constUndefined => exact constUndefined_leads hs run
  case addFunction => exact addFunction_leads hs (fun _ => id) run
  case addGlobal => exact addGlobal_leads hs (fun _ => id) run
  case rename => exact rename_leads hs id run
  case setName => exact setName_leads hs id run
  case setConstantGlobal => exact setConstantGlobal_leads hs run
  case setInitializer => exact setInitializer_leads hs run
  case eraseFunction f =>
    have razes : p.isFunction f = true → p.countOf f = 1 →
        ((Operation.eraseFunction f).promise p).razes f := (⟨·, ·, rfl⟩)
    exact (eraseFunction_leads hs razes run).of_eq (erased_eq _ _).symm
  case eraseGlobal => exact (eraseGlobal_leads hs run).of_eq (erased_eq _ _).symm
  case createBlock => exact createBlock_leads hs run
  case addBlock => exact addBlock_leads hs run
  case appendBlock => exact appendBlock_leads hs run
  case insertBlockAfter => exact insertBlockAfter_leads hs run
  case collectGarbage => exact collectGarbage_leads hs run
  case enableRegisters => exact enableRegisters_leads hs run
  case disableRegisters => exact disableRegisters_leads hs run
  case allocateRegister => exact allocateRegister_leads hs run
  case freeRegister => exact (freeRegister_leads hs id run).of_eq (erased_eq _ _).symm
  case pushBack => exact pushBack_leads hs run
  case pushFront => exact pushFront_leads hs run
  case insertBefore => exact insertBefore_leads hs run
  case insertAfter => exact insertAfter_leads hs run
  case remove => exact remove_leads hs run
  case setTerminator => exact setTerminator_leads hs run
  case splitBlock start =>
    obtain ⟨b, seat, isHome, seated, leads⟩ : ∃ _ _, _ ∧ _ ∧
        p.Leads ((Operation.splitBlock start).promise p) q _ :=
      splitBlock_leads hs id run
    refine leads.of_eq ?_
    simp [credit, isHome, seated]
  case eraseBlock => exact (eraseBlock_leads hs run).of_eq (erased_eq _ _).symm
  case buildBinary => exact buildBinary_leads hs run
  case buildCompare => exact buildCompare_leads hs run
  case buildUnary => exact buildUnary_leads hs run
  case buildSelect => exact buildSelect_leads hs run
  case buildCast => exact buildCast_leads hs run
  case buildAutomaticCast => exact buildAutomaticCast_leads hs run
  case buildAlloca => exact buildAlloca_leads hs run
  case buildLoad => exact buildLoad_leads hs run
  case buildStore => exact buildStore_leads hs run
  case buildElementPtr => exact buildElementPtr_leads hs run
  case buildPhi => exact buildPhi_leads hs run
  case buildCall => exact buildCall_leads hs run
  case buildRet => exact buildRet_leads hs run
  case buildBr => exact buildBr_leads hs run
  case buildCondBr => exact buildCondBr_leads hs run
  case buildSwitch => exact buildSwitch_leads hs run
  case buildUnreachable => exact buildUnreachable_leads hs run
  case buildRegWrite => exact buildRegWrite_leads hs run
  case addIncoming => exact addIncoming_leads hs status_of_spares run
  case removeIncoming => exact removeIncoming_leads hs run
  case removeTarget => exact removeTarget_leads hs run
  case replaceTarget => exact replaceTarget_leads hs run
  case replaceTargetOnce => exact replaceTargetOnce_leads hs run
  case clearTargets => exact clearTargets_leads hs run
  case addCase => exact addCase_leads hs status_of_spares run
  case setUse =>
    refine setUse_leads hs (fun d new h isNew ne => ?_) run
    exact Rebinds.honours ⟨ne, h, isNew⟩
  case replaceOperands =>
    refine replaceOperands_leads hs (fun e d mem h reads ne => ?_) run
    exact Rebinds.honours ⟨reads ▸ ne.symm, ⟨e, mem, h⟩, reads, rfl⟩
  case replaceUses =>
    refine replaceUses_leads hs (fun e d h reads ne => ?_) run
    exact Rebinds.honours ⟨reads ▸ ne.symm, ⟨e, h⟩, reads, rfl⟩
  case retain => exact retain_leads run
  case release => exact release_leads hs (⟨·, ·, rfl⟩) run
  case finalize => exact finalize_leads hs run
  case eraseInstruction => exact (eraseInstruction_leads hs run).of_eq (erased_eq _ _).symm

/-- An operation that tears down a function leaves none of its blocks in it. -/
theorem Razes.evicts (razes : op.Razes p f) (hs : p.Sound) (run : op.run p = .done reply q) :
    p.Evicts q f := by
  have torn : (op.promise p).razes f := razes
  obtain ⟨isFn, last, named⟩ := razes
  cases op
  case eraseFunction erased =>
    subst named
    obtain ⟨_, run, -⟩ := Edit.map_eq_done.mp run
    obtain ⟨-, lab, shapes, -, -, runRelease⟩ : _ ∧ _ ∧
        p.Shapes ((Operation.eraseFunction f).promise p) _ ∧ _ :=
      eraseFunction_struck hs run
    have evicts := Step.releaseNode_evicts (shapes.sound hs)
      (by rwa [lab.isFunction]) (by rwa [countOf, lab.counts]) torn runRelease
    simpa only [Evicts, lab.seat?, lab.functions] using evicts
  case release released =>
    subst named
    obtain ⟨_, run, -⟩ := Edit.map_eq_done.mp run
    obtain ⟨-, _, runRelease⟩ := release_run hs run
    exact Step.releaseNode_evicts hs isFn last torn runRelease
  all_goals exact named.elim

theorem leads_of_refused (hs : p.Sound) (run : op.run p = .refused cause q) :
    p.Leads (op.promise p) q fun v => if q.isLive v = true ∧ p.isLive v = false then 1 else 0 := by
  by_cases exception : ∃ f, op = .addBlock f
  · obtain ⟨f, rfl⟩ := exception
    obtain ⟨-, b, leaves⟩ := addBlock_refused hs (Edit.map_eq_refused.mp run)
    have added := leaves.added
    have raises : p.Raises ((Operation.addBlock f).promise p) q :=
      .grow b TypeId.label _ added rfl (by decide) (hs.registry.builtin (by decide))
        (by simp [Payload.category])
    refine .of_grown (.single raises) ((added.tally hs rfl).of_eq ?_)
    funext v
    simp only [isLive_iff, show q.payload? = _ from added.exchanged]
    by_cases eq : v = b
    · subst eq
      simp [added.payload?_eq_none]
    · cases h : p.payload? v <;> simp [eq, h]
  · obtain rfl := reverts_run hs (fun f isAdd => exception ⟨f, isAdd⟩) run
    refine (Leads.refl q).of_eq ?_
    funext v
    cases q.isLive v <;> simp

/-- The handles that the client gets or gives up when it asks for an operation. -/
def ledger (operation : Operation) (before : Program) : ValueId → Int :=
  match operation.run before with
  | .done reply _ => operation.credit before reply
  | .refused _ q => fun value =>
    if q.isLive value = true ∧ before.isLive value = false then 1 else 0
  | .faulted _ => 0

/-- Whether it is carried out or refused, an operation that meets no fault is a sequence
of moves that shifts balances as the ledger says. -/
theorem leads_of_run (hs : p.Sound) (run : (op.run p).after? = some q) :
    p.Leads (op.promise p) q (op.ledger p) := by
  unfold ledger
  cases outcome : op.run p with
  | done reply res =>
    rw [outcome] at run
    obtain rfl := Option.some.inj run
    exact leads hs outcome
  | refused cause res =>
    rw [outcome] at run
    obtain rfl := Option.some.inj run
    exact leads_of_refused hs outcome
  | faulted fault =>
    rw [outcome] at run
    cases run

end Operation

end ValueGraph
