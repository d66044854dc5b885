import Mathlib
import ValueGraph.Proofs.Auditing

namespace ValueGraph

open Program List Option Arena Or

/-!
# Stale handles

An operation looks at the handles it is given before it follows them.  A handle
whose node is gone is refused in every place that is looked at, whatever the other
handles are, and nothing changes.  The block behind which another is to be put is
followed without a look.
-/

variable {s : Program} {cond v pointer : ValueId} {cause : EditCause} {i anchor phi : InstId}
  {b src tgt : BlockId} {indices args handles : List ValueId} {role : Role} {align : Option UInt32}
  {f : FuncId} {pos : Position} {α β : Type} {look : Except Halt β} {a : α}

theorem Arena.lookup?_of_not_contains {space : Type} {arena : Arena space α} {hd : Handle space}
    (missing : arena.contains hd = false) : arena.lookup? hd = none := by
  simpa [contains] using missing

/-- An edit is refused and leaves the program as it was. -/
def Edit.Refuses {α : Type} (edit : Edit α) (program : Program) : Prop :=
  ∃ cause, edit program = .refused (.edit cause) program

theorem Edit.Refuses.map {edit : Edit α} {change : α → β} (refuses : edit.Refuses s) :
    (edit.map change).Refuses s := by
  obtain ⟨cause, refused⟩ := refuses
  exact ⟨cause, Edit.map_eq_refused.mpr refused⟩

theorem Edit.Refuses.andThen {first : Edit α} {second : α → Edit β} (refuses : first.Refuses s) :
    (first.andThen second).Refuses s := by
  obtain ⟨cause, refused⟩ := refuses
  exact ⟨cause, Edit.andThen_eq_refused.mpr (inl refused)⟩

/-! ### Looking without a fault -/

/-- Looking meets no fault: it refuses the edit, or it answers and the answer has a
property. -/
def Careful {α : Type} (look : Except Halt α) (answers : α → Prop) : Prop :=
  (∃ cause, look = .error (.refused (.edit cause))) ∨ ∃ answer, look = .ok answer ∧ answers answer

namespace Careful

variable {look : Except Halt α} {next : α → Except Halt β} {answers : α → Prop} {finds : β → Prop}

theorem refuse (cause : EditCause) : Careful (ValueGraph.refuse cause) answers :=
  inl ⟨cause, rfl⟩

theorem pure (holds : answers a) : Careful (Pure.pure a) answers :=
  inr ⟨a, rfl, holds⟩

theorem require {cond : Bool} {answers : Unit → Prop} (holds : cond = true → answers ()) :
    Careful (ValueGraph.require cond cause) answers := by
  cases cond with
  | true => exact inr ⟨(), rfl, holds rfl⟩
  | false => exact inl ⟨cause, rfl⟩

theorem mono {others : α → Prop} (careful : Careful look answers)
    (weaker : ∀ a, answers a → others a) : Careful look others := by
  rcases careful with refused | ⟨a, read, holds⟩
  · exact inl refused
  · exact inr ⟨a, read, weaker a holds⟩

theorem bind (first : Careful look answers) (rest : ∀ a, answers a → Careful (next a) finds) :
    Careful (look >>= next) finds := by
  rcases first with ⟨cause, rfl⟩ | ⟨a, rfl, holds⟩
  · exact inl ⟨cause, rfl⟩
  · exact rest a holds

/-- A reading that answers hands its answer on. -/
theorem bind_reading {reading : Except Fault α} (read : reading = .ok a)
    (rest : Careful (next a) finds) : Careful (liftM reading >>= next) finds := by
  rw [read]
  exact rest

/-- What is required holds of the rest. -/
theorem bind_require {cond : Bool} {next : Unit → Except Halt β}
    (rest : cond = true → Careful (next ()) finds) :
    Careful (ValueGraph.require cond cause >>= next) finds :=
  bind (require fun holds => holds) fun _ => rest

end Careful

/-! ### Looking at handles -/

namespace Program

/-- Some of the given handles names no node. -/
def Lacks (program : Program) (handles : List ValueId) : Prop :=
  ∃ handle ∈ handles, program.isLive handle = false

/-- A look is refused if one of some handles names nothing. -/
def Demands {α : Type} (program : Program) (handles : List ValueId) (look : Except Halt α) : Prop :=
  program.Lacks handles → ∃ cause, look = .error (.refused (.edit cause))

/-- An edit whose look is refused leaves the program as it was. -/
theorem Lacks.refuses {look : Program → Except Halt (Step α)} (lacks : s.Lacks handles)
    (demands : s.Demands handles (look s)) : (Edit.plan look).Refuses s := by
  obtain ⟨cause, refused⟩ := demands lacks
  exact ⟨cause, by rw [Edit.plan, refused]⟩

theorem Lacks.refuses_first {look : Program → Except Halt α} {second : α → Edit β}
    (lacks : s.Lacks handles) (demands : s.Demands handles (look s)) :
    ((Edit.look look).andThen second).Refuses s := by
  obtain ⟨cause, refused⟩ := demands lacks
  exact Edit.Refuses.andThen ⟨cause, by rw [Edit.look, refused]⟩

theorem demands_nil {look : Except Halt α} : s.Demands [] look := by
  rintro ⟨_, mem, -⟩
  cases mem

theorem requireBlock_careful : Careful (s.requireBlock v role) fun _ => s.isLive v = true :=
  Careful.require isLive_of_category

theorem requireInst_careful : Careful (s.requireInst v role) fun _ => ∃ d, s.inst? v = some d := by
  apply Careful.require
  exact exists_inst?_of_isInst

theorem requireStatus_careful {d : Inst} {expected : Status} (h : s.inst? i = some d) :
    Careful (s.requireStatus i expected) fun _ => True := by
  apply Careful.bind_reading (status_eq_ok.mpr ⟨d, h, rfl⟩)
  exact Careful.require fun _ => trivial

theorem resolve_careful : Careful (s.resolve v role) fun _ => s.isLive v = true := by
  unfold resolve
  split
  next => exact Careful.refuse _
  next i h => exact Careful.require fun _ => isLive_of_payload? h
  next noInst h => exact Careful.pure (isLive_of_payload? h)

theorem checkCandidate_careful :
    Careful (s.checkCandidate b i) fun _ => s.isLive b = true ∧ s.isLive i = true := by
  apply Careful.bind requireBlock_careful
  intro _ blockLive
  apply Careful.bind requireInst_careful
  rintro _ ⟨d, h⟩
  apply (requireStatus_careful h).mono
  exact fun _ _ => ⟨blockLive, isLive_of_inst? h⟩

theorem anchorBlock_careful : Careful (s.anchorBlock anchor) fun _ => s.isLive anchor = true := by
  apply Careful.bind requireInst_careful
  rintro _ ⟨d, h⟩
  apply Careful.bind (requireStatus_careful h)
  intro _ _
  have hi := isInst_of_inst? h
  apply Careful.bind_reading (parentBlock?_eq_ok.mpr ⟨hi, rfl⟩)
  split
  next => exact Careful.pure (isLive_of_inst? h)
  next => exact Careful.refuse _

theorem requireTerminator_careful : Careful (s.requireTerminator i) fun _ => s.isLive i = true := by
  apply Careful.bind requireInst_careful
  rintro _ ⟨d, h⟩
  apply Careful.bind_reading (kind_eq_ok.mpr ⟨d, h, rfl⟩)
  exact Careful.require fun _ => isLive_of_inst? h

theorem requirePhi_careful : Careful (s.requirePhi phi) fun _ => s.isLive phi = true := by
  apply Careful.bind requireInst_careful
  rintro _ ⟨d, h⟩
  apply Careful.bind_reading (kind_eq_ok.mpr ⟨d, h, rfl⟩)
  exact Careful.require fun _ => isLive_of_inst? h

namespace Sound

variable (hs : s.Sound)
include hs

theorem operandType_careful :
    Careful (s.operandType v role) fun ty => s.isLive v = true ∧ s.types.Registered ty := by
  apply Careful.bind resolve_careful
  intro _ live
  obtain ⟨n, found⟩ := contains_iff_get?.mp live
  have typed : s.type? v = some n.type := by rw [type?, found, map_some]
  rw [show s.typeOf v = .ok n.type from typeOf_eq_ok.mpr ⟨n, found, rfl⟩]
  exact Careful.pure ⟨live, hs.registry.nodes v n.type typed⟩

theorem requireStorable_careful {ty : TypeId} {rule : TypeRule} (reg : s.types.Registered ty) :
    Careful (s.requireStorable ty rule) fun _ => True := by
  apply Careful.bind_reading (@TypeTable.isStorable_eq .plain _ _ hs.registry.layered reg)
  exact Careful.require fun _ => trivial

theorem accessedType_careful : Careful (s.accessedType v) fun _ => s.isLive v = true := by
  apply Careful.bind hs.operandType_careful
  rintro pointer ⟨live, reg⟩
  obtain ⟨a, read, -, below⟩ := TypeTable.pointee?_eq hs.registry.layered reg .plain
  apply Careful.bind_reading read
  cases a with
  | none => exact Careful.refuse _
  | some pointee =>
    apply Careful.bind (hs.requireStorable_careful (below pointee rfl))
    exact fun _ _ => Careful.pure live

theorem elementLayer_careful {layer : TypeId} (reg : s.types.Registered layer) :
    Careful (s.elementLayer layer indices) fun _ => ∀ k ∈ indices, s.isLive k = true := by
  induction indices generalizing layer with
  | nil => exact Careful.pure (by simp)
  | cons k rest ih =>
    apply Careful.bind hs.operandType_careful
    rintro ty ⟨live, registeredType⟩
    apply Careful.bind_reading (@TypeTable.isInt_eq .plain _ _ hs.registry.layered registeredType)
    apply Careful.bind_require
    intro _
    obtain ⟨a, read, -, below⟩ := TypeTable.element?_eq hs.registry.layered reg .plain
    apply Careful.bind_reading read
    cases a with
    | none => exact Careful.refuse _
    | some element =>
      apply (ih (below element rfl)).mono
      exact fun _ restLive => forall_mem_cons.mpr ⟨live, restLive⟩

theorem calleeSignature_careful :
    Careful (s.calleeSignature v) fun type =>
      s.isLive v = true ∧ ∀ param ∈ type.2.params, s.types.Registered param := by
  apply Careful.bind hs.operandType_careful
  rintro ty ⟨live, reg⟩
  obtain ⟨a, read, -, below⟩ := TypeTable.pointee?_eq hs.registry.layered reg .plain
  apply Careful.bind_reading read
  cases a with
  | none => exact Careful.refuse _
  | some pointee =>
    obtain ⟨a, read, -, parts⟩ :=
      TypeTable.signature?_eq hs.registry.layered (below pointee rfl) .plain
    apply Careful.bind_reading read
    cases a with
    | none => exact Careful.refuse _
    | some sig => exact Careful.pure ⟨live, (parts sig rfl).2⟩

theorem checkArguments_careful {params : List TypeId}
    (reg : ∀ param ∈ params, s.types.Registered param) :
    Careful (s.checkArguments args params) fun _ => ∀ arg ∈ args, s.isLive arg = true := by
  induction args generalizing params with
  | nil => exact Careful.pure (by simp)
  | cons arg rest ih =>
    cases params with
    | nil =>
      apply Careful.bind hs.operandType_careful
      rintro ty ⟨live, registeredType⟩
      apply Careful.bind (hs.requireStorable_careful registeredType)
      intro _ _
      apply (ih reg).mono
      exact fun _ restLive => forall_mem_cons.mpr ⟨live, restLive⟩
    | cons param params =>
      obtain ⟨registeredParam, registeredRest⟩ := forall_mem_cons.mp reg
      apply Careful.bind hs.operandType_careful
      rintro ty ⟨live, registeredType⟩
      obtain ⟨equal, read⟩ := hs.registry.layered.equal_answers registeredType registeredParam
      apply Careful.bind_reading read
      apply Careful.bind_require
      intro _
      apply (ih registeredRest).mono
      exact fun _ restLive => forall_mem_cons.mpr ⟨live, restLive⟩

end Sound

end Program

/-! ### Handles that a look demands -/

namespace Program

variable {next : β → Except Halt α} {after : Unit → Except Halt α}

theorem demands_refuse : s.Demands handles (refuse cause : Except Halt α) :=
  fun _ => ⟨cause, rfl⟩

/-- A look demands the handles that a first part shows to name something, and those that the rest
demands. -/
theorem demands_append (early : List ValueId) {answers : β → Prop}
    (careful : Careful look answers) (live : ∀ a, answers a → ∀ hd ∈ early, s.isLive hd = true)
    (rest : ∀ a, answers a → s.Demands handles (next a)) :
    s.Demands (early ++ handles) (look >>= next) := by
  rintro ⟨hd, mem, missing⟩
  rcases careful with ⟨cause, rfl⟩ | ⟨a, rfl, holds⟩
  · exact ⟨cause, rfl⟩
  · refine rest a holds ⟨hd, (mem_append.mp mem).resolve_left fun inEarly => ?_, missing⟩
    simp [live a holds hd inEarly] at missing

theorem demands_reading {reading : Except Fault β} {a : β} (read : reading = .ok a)
    (rest : s.Demands handles (next a)) : s.Demands handles (liftM reading >>= next) := by
  rw [read]
  exact rest

theorem demands_require {cond : Bool} (rest : s.Demands handles (after ())) :
    s.Demands handles (require cond cause >>= after) := by
  cases cond with
  | false => exact demands_refuse
  | true => exact rest

theorem demands_cons (careful : Careful look fun _ => s.isLive v = true)
    (rest : ∀ a, s.Demands handles (next a)) : s.Demands (v :: handles) (look >>= next) :=
  demands_append [v] careful (by simp) fun a _ => rest a

theorem demands_category {category : Category} (rest : s.Demands handles (after ())) :
    s.Demands (v :: handles)
      (require ((s.payload? v).map (·.category) == some category) cause >>= after) :=
  demands_cons (Careful.require isLive_of_category) fun _ => rest

theorem Sound.demands_operand (hs : s.Sound) {next : TypeId → Except Halt α}
    (rest : ∀ ty, s.types.Registered ty → s.Demands handles (next ty)) :
    s.Demands (v :: handles) (s.operandType v role >>= next) :=
  demands_append [v] hs.operandType_careful (by simp_all) fun ty known => rest ty known.2

theorem demands_candidate : s.Demands [b, i] (s.checkCandidate b i >>= after) :=
  demands_append [b, i] checkCandidate_careful (by simp_all) fun _ _ => demands_nil

theorem demands_attachable : s.Demands [f, b] (s.checkAttachable f b) :=
  demands_category (demands_category demands_nil)

theorem Demands.bind (demands : s.Demands handles look) : s.Demands handles (look >>= next) := by
  intro lacks
  obtain ⟨cause, rfl⟩ := demands lacks
  exact ⟨cause, rfl⟩

theorem demands_replacement {old new : ValueId} :
    s.Demands [new] (s.checkReplacement old new >>= after) :=
  .bind (demands_cons resolve_careful fun _ => demands_nil)

theorem demands_next_to :
    s.Demands [anchor, i] (do s.planInsertion (← s.anchorBlock anchor) i pos) := by
  refine demands_cons anchorBlock_careful fun b => ?_
  exact demands_append [i] checkCandidate_careful (by simp_all) fun _ _ => demands_nil

/-- Two operands. -/
theorem Sound.demands_operands (hs : s.Sound) {left right : ValueId} {first second : Role}
    {rest : TypeId → TypeId → Except Halt α} :
    s.Demands [left, right] (do
      let leftType ← s.operandType left first
      let rightType ← s.operandType right second
      rest leftType rightType) :=
  hs.demands_operand fun _ _ => hs.demands_operand fun _ _ => demands_nil

theorem demands_target :
    s.Demands [i, tgt] (s.requireTerminator i >>= fun _ => s.requireBlock tgt role >>= after) :=
  demands_cons requireTerminator_careful fun _ => demands_category demands_nil

/-! ### Refused edits -/

section Factories

variable (hs : s.Sound)
include hs

theorem buildElementPtr_refuses {base : ValueId} (lacks : s.Lacks (base :: indices)) :
    (buildElementPtr base indices).Refuses s := by
  refine lacks.refuses (hs.demands_operand fun baseType reg => ?_)
  apply demands_reading (@TypeTable.isPointer_eq .plain _ _ hs.registry.layered reg)
  apply demands_require
  apply demands_require
  rw [← append_nil indices]
  exact demands_append indices (hs.elementLayer_careful reg) (by simp) fun _ _ => demands_nil

theorem buildCall_refuses {callee : ValueId} (lacks : s.Lacks (callee :: args)) :
    (buildCall callee args).Refuses s := by
  refine lacks.refuses ?_
  refine demands_append [callee] hs.calleeSignature_careful (by simp_all) fun sig known => ?_
  apply demands_require
  rw [← append_nil args]
  exact demands_append args (hs.checkArguments_careful known.2) (by simp) fun _ _ => demands_nil

theorem buildRet_refuses {v : Option ValueId} (lacks : s.Lacks v.toList) :
    (buildRet v).Refuses s := by
  cases v with
  | none => exact lacks.refuses demands_nil
  | some v => exact lacks.refuses (hs.demands_operand fun _ _ => demands_nil)

theorem buildCondBr_refuses {onTrue onFalse : BlockId} (lacks : s.Lacks [cond, onTrue, onFalse]) :
    (buildCondBr cond onTrue onFalse).Refuses s := by
  refine lacks.refuses (hs.demands_operand fun ty reg => ?_)
  have builtin : s.types.Registered .bool := hs.registry.builtin (by decide)
  obtain ⟨equal, read⟩ := hs.registry.layered.equal_answers reg builtin
  apply demands_reading read
  apply demands_require
  exact demands_category (demands_category demands_nil)

theorem buildSwitch_refuses {default : BlockId} (lacks : s.Lacks [cond, default]) :
    (buildSwitch cond default).Refuses s := by
  refine lacks.refuses (hs.demands_operand fun ty reg => ?_)
  apply demands_reading (@TypeTable.isInt_eq .plain _ _ hs.registry.layered reg)
  apply demands_require
  exact demands_category demands_nil

end Factories

theorem insertBlockAfter_refuses {anchor : BlockId} (anchored : s.isBlock anchor = true)
    (lacks : s.Lacks [b]) : (insertBlockAfter anchor b).Refuses s := by
  obtain ⟨d, h⟩ := isBlock_iff.mp anchored
  refine lacks.refuses (demands_reading (block_eq_ok.mpr h) ?_)
  cases parent : d.parent with
  | none => exact demands_refuse
  | some f =>
    obtain ⟨hd, mem, missing⟩ := lacks
    exact fun _ => demands_attachable.bind ⟨hd, by simp_all, missing⟩

theorem insertBlockAfter_faults {anchor : BlockId} (missing : s.isLive anchor = false) :
    insertBlockAfter anchor b s = .faulted (.ofHandle anchor) := by
  have unread : s.block anchor = .error (.ofHandle anchor) := by
    simp [Program.block, payload, node, get?, lookup?_of_not_contains missing, bind, Except.bind]
  simp [insertBlockAfter, Edit.plan, unread, bind, Except.bind, liftM, monadLift,
    MonadLift.monadLift]

theorem addCase_refuses {sw : InstId} {v : Int64} (lacks : s.Lacks [sw, tgt]) :
    (addCase sw v tgt).Refuses s := by
  refine lacks.refuses (demands_append [sw] requireInst_careful ?_ ?_)
  · rintro _ ⟨d, h⟩
    simp [isLive_of_inst? h]
  · rintro _ ⟨d, h⟩
    apply demands_reading (kind_eq_ok.mpr ⟨d, h, rfl⟩)
    split
    · exact demands_category demands_nil
    · exact demands_refuse

/-- An edge that is not there is refused, and so is a new value for one that is. -/
theorem setUse_refuses {e : EdgeId} {v : Option ValueId}
    (lacks : s.edges.contains e = false ∨ s.Lacks v.toList) : (setUse e v).Refuses s := by
  cases h : s.edges.get? e with
  | none => exact ⟨.missing .use, by simp [setUse, Edit.plan, h, refuse]⟩
  | some d =>
    rcases lacks with gone | lacks
    · simp [get?, lookup?_of_not_contains gone] at h
    · refine lacks.refuses ?_
      cases v with
      | none => exact demands_nil
      | some new =>
        simp only [h]
        exact demands_replacement

theorem replaceUses_refuses {repl : ValueId} (lacks : s.Lacks [v, repl]) :
    (replaceUses v repl).Refuses s := by
  refine lacks.refuses ?_
  by_cases eq : v = repl
  · rw [eq]
    exact demands_append [repl, repl] resolve_careful (by simp) fun _ _ => demands_nil
  · refine demands_cons resolve_careful fun _ => ?_
    rw [if_neg eq]
    exact demands_replacement

theorem retain_refuses (lacks : s.Lacks [v]) : (retain v).Refuses s := by
  refine lacks.refuses ?_
  rintro ⟨hd, mem, missing⟩
  obtain rfl := mem_singleton.mp mem
  simp only [retain?, lookup?_of_not_contains missing]
  exact ⟨_, rfl⟩

theorem release_refuses (lacks : s.Lacks [v]) : (release v).Refuses s := by
  refine lacks.refuses ?_
  rintro ⟨hd, mem, missing⟩
  obtain rfl := mem_singleton.mp mem
  simp only [count?, lookup?_of_not_contains missing, map_none]
  exact ⟨_, rfl⟩

end Program

/-! ### Operations -/

namespace Operation

/-- The handles of nodes that an operation looks at before it follows them. -/
def looksAt : Operation → List ValueId
  | .eraseFunction value | .eraseGlobal value | .eraseBlock value => [value]
  | .appendBlock function block => [function, block]
  | .insertBlockAfter _ block => [block]
  | .pushBack block inst | .pushFront block inst | .setTerminator block inst => [block, inst]
  | .insertBefore anchor inst | .insertAfter anchor inst => [anchor, inst]
  | .remove inst | .splitBlock inst | .finalize inst | .eraseInstruction inst => [inst]
  | .buildBinary _ left right | .buildCompare _ left right => [left, right]
  | .buildUnary _ value | .buildCast _ value _ | .buildAutomaticCast value _ => [value]
  | .buildSelect condition onTrue onFalse => [condition, onTrue, onFalse]
  | .buildLoad pointer _ => [pointer]
  | .buildStore value pointer _ => [value, pointer]
  | .buildElementPtr base indices => base :: indices
  | .buildCall callee arguments => callee :: arguments
  | .buildRet value => value.toList
  | .buildBr target => [target]
  | .buildCondBr condition onTrue onFalse => [condition, onTrue, onFalse]
  | .buildSwitch condition default => [condition, default]
  | .buildRegWrite register value => [register, value]
  | .addIncoming phi source value => [phi, source, value]
  | .removeIncoming phi _ => [phi]
  | .replaceTarget inst _ new | .replaceTargetOnce inst _ new => [inst, new]
  | .addCase switch _ target => [switch, target]
  | .setUse _ value => value.toList
  | .replaceUses value replacement => [value, replacement]
  | .retain value | .release value => [value]
  | _ => []

/-- The edge that an operation looks at before it follows it. -/
def looksAtEdge? : Operation → Option EdgeId
  | .setUse edge _ => some edge
  | _ => none

/-- Some handle that an operation looks at names nothing. -/
def MeetsStale (program : Program) (operation : Operation) : Prop :=
  program.Lacks operation.looksAt ∨
    ∃ edge ∈ operation.looksAtEdge?, program.edges.contains edge = false

/-- What an operation puts other blocks behind is a block. -/
def Anchored (program : Program) : Operation → Prop
  | .insertBlockAfter anchor _ => program.isBlock anchor = true
  | _ => True

variable {op : Operation}

theorem refuses_of_meetsStale (hs : s.Sound) (anchored : op.Anchored s) (stale : op.MeetsStale s) :
    op.run.Refuses s := by
  rcases stale with lacks | ⟨e, looked, gone⟩
  · cases op
    case eraseFunction | eraseGlobal | eraseBlock | remove | finalize | eraseInstruction |
      buildBr =>
      exact .map (lacks.refuses (demands_category demands_nil))
    case splitBlock => exact .map (lacks.refuses_first (demands_category demands_nil))
    case appendBlock => exact .map (lacks.refuses demands_attachable.bind)
    case insertBlockAfter => exact (insertBlockAfter_refuses anchored lacks).map
    case pushBack | pushFront | setTerminator => exact .map (lacks.refuses demands_candidate)
    case insertBefore | insertAfter => exact .map (lacks.refuses demands_next_to)
    case buildBinary | buildCompare => exact .map (lacks.refuses hs.demands_operands)
    case buildUnary | buildCast | buildAutomaticCast =>
      exact .map (lacks.refuses (hs.demands_operand fun _ _ => demands_nil))
    case buildSelect =>
      exact .map (lacks.refuses (hs.demands_operand fun _ _ => hs.demands_operands))
    case buildLoad =>
      exact .map (lacks.refuses (demands_cons hs.accessedType_careful fun _ => demands_nil))
    case buildStore =>
      refine .map (lacks.refuses (hs.demands_operand fun _ _ => ?_))
      exact demands_cons hs.accessedType_careful fun _ => demands_nil
    case buildElementPtr => exact (buildElementPtr_refuses hs lacks).map
    case buildCall => exact (buildCall_refuses hs lacks).map
    case buildRet => exact (buildRet_refuses hs lacks).map
    case buildCondBr => exact (buildCondBr_refuses hs lacks).map
    case buildSwitch => exact (buildSwitch_refuses hs lacks).map
    case buildRegWrite =>
      refine .map (lacks.refuses (demands_category ?_))
      exact hs.demands_operand fun _ _ => demands_nil
    case addIncoming =>
      refine .map (lacks.refuses (demands_cons requirePhi_careful fun _ => demands_category ?_))
      exact hs.demands_operand fun _ _ => demands_nil
    case removeIncoming =>
      exact .map (lacks.refuses (demands_cons requirePhi_careful fun _ => demands_nil))
    case replaceTarget | replaceTargetOnce => exact .map (lacks.refuses_first demands_target)
    case addCase => exact (addCase_refuses lacks).map
    case setUse => exact (setUse_refuses (inr lacks)).map
    case replaceUses => exact (replaceUses_refuses lacks).map
    case retain => exact (retain_refuses lacks).map
    case release => exact (release_refuses lacks).map
    -- the other operations look at no handle in this way
    all_goals exact absurd lacks (by simp [looksAt, Lacks])
  · cases op
    case setUse =>
      obtain rfl := some.inj looked
      exact (setUse_refuses (inl gone)).map
    all_goals exact absurd looked (by simp [looksAtEdge?])

end Operation

/-- A stale handle in a place that an operation looks at is refused, and the program stays
as it was; only the block behind which another is to be put is followed without a look. -/
theorem stale_handles_refused {name : String} {settings : Settings} {operations : List Operation}
    {program : Program} (run : (Program.initial name settings).runAll? operations = some program) :
    (∀ operation : Operation, operation.Anchored program → operation.MeetsStale program →
      ∃ cause, operation.run program = .refused (.edit cause) program) ∧
    ∀ anchor block, program.isLive anchor = false →
      (Operation.insertBlockAfter anchor block).run program = .faulted (.ofHandle anchor) := by
  have sound := sound_of_runAll? run
  constructor
  · intro operation anchored stale
    exact Operation.refuses_of_meetsStale sound anchored stale
  · intro anchor block missing
    simp only [Operation.run, Operation.silent, Edit.map, insertBlockAfter_faults missing]

/-- The handle of an erased block is refused as a key of a phi and as a block to place, also
when the slot of the block is taken again. -/
theorem erased_block_refused :
    ∃ program, (Program.initial "m" .standard).runAll?
        [.createBlock, .buildPhi ⟨5⟩, .constSigned ⟨5⟩ 1, .eraseBlock ⟨0, 0⟩, .createBlock] =
          some program ∧
      program.isLive ⟨0, 0⟩ = false ∧ program.isBlock ⟨0, 1⟩ = true ∧
      (∃ cause, (Operation.addIncoming ⟨1, 0⟩ ⟨0, 0⟩ ⟨2, 0⟩).run program =
        .refused (.edit cause) program) ∧
      ∃ cause, (Operation.insertBlockAfter ⟨0, 1⟩ ⟨0, 0⟩).run program =
        .refused (.edit cause) program := by
  refine exists_runAll? fun program run => ?_
  obtain ⟨gone, again⟩ : program.isLive ⟨0, 0⟩ = false ∧ program.isBlock ⟨0, 1⟩ = true := by
    apply holds_of_runAll? run
  refine ⟨gone, again, ?_, ?_⟩
  · apply (stale_handles_refused run).1 (.addIncoming ⟨1, 0⟩ ⟨0, 0⟩ ⟨2, 0⟩) trivial
    exact Or.inl ⟨⟨0, 0⟩, by simp [Operation.looksAt], gone⟩
  · apply (stale_handles_refused run).1 (.insertBlockAfter ⟨0, 1⟩ ⟨0, 0⟩) again
    exact Or.inl ⟨⟨0, 0⟩, by simp [Operation.looksAt], gone⟩

/-- Putting a block behind a block that was erased ends the run. -/
theorem insertion_after_erased_block_faults :
    ∃ program, (Program.initial "m" .standard).runAll?
        [.createBlock, .eraseBlock ⟨0, 0⟩, .createBlock] = some program ∧
      program.isLive ⟨0, 0⟩ = false ∧ program.isBlock ⟨0, 1⟩ = true ∧
      (Operation.insertBlockAfter ⟨0, 0⟩ ⟨0, 1⟩).run program = .faulted (.stale 0 0) := by
  refine exists_runAll? fun program run => ?_
  obtain ⟨gone, again⟩ : program.isLive ⟨0, 0⟩ = false ∧ program.isBlock ⟨0, 1⟩ = true := by
    apply holds_of_runAll? run
  refine ⟨gone, again, ?_⟩
  simp only [Operation.run, Operation.silent, Edit.map, insertBlockAfter_faults gone]
  rfl

end ValueGraph
