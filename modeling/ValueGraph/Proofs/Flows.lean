import Mathlib
import ValueGraph.Proofs.Wiring

open Function

namespace ValueGraph

open Program List Option Payload

/-!
# Edges of the flow graph

Recording or striking out an edge of the flow graph changes the counts of two
blocks in step and nothing else.  Both are seen through the number of times
that they mention a block.
-/

variable {src tgt b : BlockId} {e : EdgeId} {v new : ValueId} {slot : Slot} {values : List Int64}
  {p q s r : Program} {answer : Unit} {i sw : InstId} {targets : List BlockId} {pos : Nat}
  {next : Step Unit}

namespace Program

/-- Edges and the lists that mention them, owners, constants, arguments and registers are the
same. -/
structure SameWiring (before after : Program) : Prop where
  edges : after.edges = before.edges
  operands : after.operandsOf = before.operandsOf
  uses : after.usesOf = before.usesOf
  counts : after.values.count? = before.values.count?
  generations : after.values.generation? = before.values.generation?
  stored : before.Stored → after.Stored
  contents : after.constantOf? = before.constantOf?
  arguments : after.argument? = before.argument?
  registers : after.register? = before.register?

namespace SameWiring

theorem refl (s : Program) : s.SameWiring s :=
  ⟨rfl, rfl, rfl, rfl, rfl, id, rfl, rfl, rfl⟩

theorem trans (earlier : p.SameWiring q) (later : q.SameWiring r) : p.SameWiring r where
  edges := later.edges.trans earlier.edges
  operands := later.operands.trans earlier.operands
  uses := later.uses.trans earlier.uses
  counts := later.counts.trans earlier.counts
  generations := later.generations.trans earlier.generations
  stored := later.stored ∘ earlier.stored
  contents := later.contents.trans earlier.contents
  arguments := later.arguments.trans earlier.arguments
  registers := later.registers.trans earlier.registers

theorem ofPayload {old new : Payload} (h : p.payload? v = some old)
    (content : new.constant? = old.constant?) (arg : new.argument? = old.argument?)
    (reg : new.register? = old.register?) : p.SameWiring (p.withPayload v new) where
  edges := rfl
  operands := operandsOf_withPayload ..
  uses := usesOf_withPayload ..
  counts := funext fun _ => count?_withPayload ..
  generations := funext fun _ => Arena.generation?_modify ..
  stored kept :=
    { values := kept.values.modify v fun n => { n with payload := new }
      edges := kept.edges
      owned := fun value => by
        rw [count?_withPayload]
        exact kept.owned value }
  contents := constantOf?_withPayload h content
  arguments := argument?_withPayload h arg
  registers := register?_withPayload h reg

section

variable (same : p.SameWiring q)
include same

theorem wire? : q.wire? = p.wire? := by
  funext e
  simp only [Program.wire?, same.edges]

theorem constants : q.isConstant = p.isConstant := by
  rw [isConstant_eq_constantOf?, isConstant_eq_constantOf?, same.contents]

theorem spare_eq : q.spare = p.spare := by
  funext v
  simp only [Program.spare, countOf, same.counts, same.uses, same.constants]

theorem isLive (v : ValueId) : q.isLive v = p.isLive v := by
  have counts := congrFun same.counts v
  rw [Program.isLive, Program.isLive, Arena.contains, Arena.contains]
  simpa [Arena.count?] using congrArg isSome counts

theorem grows : p.values.Grows q.values :=
  .of_same same.isLive (congrFun same.generations)

end

end SameWiring

/-- The counts of the flow graph change and nothing else does. -/
structure Reflows (before after : Program) : Prop extends SameWiring before after where
  rewires : before.Rewires after
  insts : after.inst? = before.inst?
  labels : after.label? = before.label?

namespace Reflows

theorem refl (s : Program) : s.Reflows s :=
  ⟨.refl _, .refl _, rfl, rfl⟩

theorem trans (earlier : p.Reflows q) (later : q.Reflows r) : p.Reflows r where
  toSameWiring := earlier.toSameWiring.trans later.toSameWiring
  rewires := earlier.rewires.trans later.rewires
  insts := later.insts.trans earlier.insts
  labels := later.labels.trans earlier.labels

instance : IsPreorder Program Reflows where
  refl := refl
  trans _ _ _ := trans

end Reflows

end Program

/-! ### Steps -/

namespace Step

open Program (Reflows)

theorem modifyBlock_reflows {change : Block → Block} (b : BlockId)
    (kept : ∀ d, (block (change d)).skeleton? = (block d).skeleton?) :
    Moves Reflows (modifyBlock b change) := by
  intro p q answer run
  have rew := modifyBlock_rewires b kept run
  obtain ⟨d, h, rfl⟩ := modifyBlock_run.mp run
  exact
    { toSameWiring := .ofPayload (block?_eq_some_iff.mp h) rfl rfl rfl
      rewires := rew
      insts := inst?_withBlock h _
      labels := label?_withPayload .. }

theorem linkFlow_reflows (src tgt : BlockId) : Moves Reflows (linkFlow src tgt) :=
  .bind (modifyBlock_reflows src fun _ => rfl) fun _ =>
    modifyBlock_reflows tgt fun _ => rfl

theorem unlinkFlow_reflows (src tgt : BlockId) : Moves Reflows (unlinkFlow src tgt) :=
  .bind (modifyBlock_reflows src fun _ => rfl) fun _ =>
    modifyBlock_reflows tgt fun _ => rfl

theorem attachFlow_reflows (b : BlockId) (i : InstId) : Moves Reflows (attachFlow b i) :=
  .bind .get fun _ => .bind (.lift _) fun _ => .forM (linkFlow_reflows b)

theorem detachFlow_reflows (b : BlockId) (i : InstId) : Moves Reflows (detachFlow b i) :=
  .bind .get fun _ => .bind (.lift _) fun _ => .forM (unlinkFlow_reflows b)

theorem retarget_reflows (u : ValueId) (slot : Slot) (old new : ValueId) :
    Moves Reflows (retarget u slot old new) :=
  .retarget linkFlow_reflows unlinkFlow_reflows ..

end Step

/-! ### Counts -/

namespace Program

variable {old : Block}

section

variable (h : s.block? b = some old)
include h

theorem jumps_withBlock (new : Block) (src tgt : BlockId) :
    (s.withPayload b (.block new)).jumps src tgt =
      if src = b then new.jumpsTo.count tgt else s.jumps src tgt := by
  unfold jumps
  rw [block?_withBlock h, update_apply]
  split <;> rfl

theorem arrivals_withBlock (new : Block) (src tgt : BlockId) :
    (s.withPayload b (.block new)).arrivals src tgt =
      if tgt = b then new.comesFrom.count src else s.arrivals src tgt := by
  unfold arrivals
  rw [block?_withBlock h, update_apply]
  split <;> rfl

theorem jumps_eq (tgt : BlockId) : s.jumps b tgt = old.jumpsTo.count tgt := by
  simp [jumps, h]

theorem arrivals_eq (src : BlockId) : s.arrivals src b = old.comesFrom.count src := by
  simp [arrivals, h]

end

/-- Both counts of the flow graph change in the same way. -/
def Shifts
    (before after : Program)
    (shift : Nat → Nat → Nat)
    (count : BlockId → BlockId → Nat) : Prop :=
  ∀ source target,
    after.jumps source target = shift (before.jumps source target) (count source target) ∧
    after.arrivals source target = shift (before.arrivals source target) (count source target)

end Program

namespace Step

/-- Changing what a block counts of its targets leaves what blocks count of their sources. -/
theorem setJumps_counts (change : CountMap → CountMap)
    (run : (modifyBlock b fun d => { d with jumpsTo := change d.jumpsTo }).run
      p = .ok (answer, q)) :
    ∃ map, (∀ tgt, map.count tgt = p.jumps b tgt) ∧ (∀ src tgt, q.jumps src tgt =
        if src = b then (change map).count tgt else p.jumps src tgt) ∧
      q.arrivals = p.arrivals := by
  obtain ⟨d, h, rfl⟩ := modifyBlock_run.mp run
  refine ⟨d.jumpsTo, fun tgt => (jumps_eq h tgt).symm, jumps_withBlock h _, ?_⟩
  funext src tgt
  rw [arrivals_withBlock h]
  split
  next eq => rw [eq, arrivals_eq h]
  next => rfl

/-- Changing what a block counts of its sources leaves what blocks count of their targets. -/
theorem setArrivals_counts (change : CountMap → CountMap)
    (run : (modifyBlock b fun d => { d with comesFrom := change d.comesFrom }).run
      p = .ok (answer, q)) :
    ∃ map, (∀ src, map.count src = p.arrivals src b) ∧ (∀ src tgt, q.arrivals src tgt =
        if tgt = b then (change map).count src else p.arrivals src tgt) ∧
      q.jumps = p.jumps := by
  obtain ⟨d, h, rfl⟩ := modifyBlock_run.mp run
  refine ⟨d.comesFrom, fun src => (arrivals_eq h src).symm, arrivals_withBlock h _, ?_⟩
  funext src tgt
  rw [jumps_withBlock h]
  split
  next eq => rw [eq, jumps_eq h]
  next => rfl

/-- Recording an edge adds one to each of two counts. -/
theorem linkFlow_counts (run : (linkFlow src tgt).run p = .ok (answer, q)) :
    p.Shifts q (· + ·) fun a b => if a = src ∧ b = tgt then 1 else 0 := by
  intro first second
  unfold linkFlow at run
  obtain ⟨_, m, runSource, runTarget⟩ := run_bind.mp run
  obtain ⟨_, counted, jumps, sameArrivals⟩ := setJumps_counts (·.increment tgt) runSource
  obtain ⟨_, countedBack, arrivals, sameJumps⟩ := setArrivals_counts (·.increment src) runTarget
  rw [sameJumps, arrivals, jumps]
  simp only [CountMap.count_increment, counted, countedBack, sameArrivals]
  constructor
  · grind
  · grind

/-- Striking out an edge takes one from each of two counts. -/
theorem unlinkFlow_counts (run : (unlinkFlow src tgt).run p = .ok (answer, q)) :
    p.Shifts q (· - ·) fun a b => if a = src ∧ b = tgt then 1 else 0 := by
  intro first second
  unfold unlinkFlow at run
  obtain ⟨_, m, runSource, runTarget⟩ := run_bind.mp run
  obtain ⟨_, counted, jumps, sameArrivals⟩ := setJumps_counts (·.decrement tgt) runSource
  obtain ⟨_, countedBack, arrivals, sameJumps⟩ := setArrivals_counts (·.decrement src) runTarget
  rw [sameJumps, arrivals, jumps]
  simp only [CountMap.count_decrement, counted, countedBack, sameArrivals]
  constructor
  · grind
  · grind

end Step

/-! ### Targets -/

namespace Program

/-- The block that an edge of an instruction of some kind leads to. -/
def leadsTo? (program : Program) (kind : InstKind) (edge : EdgeId) : Option BlockId :=
  (program.wire? edge).bind fun data =>
    if kind.isTargetSlot data.slot = true ∧ program.isBlock data.value = true then
      some data.value
    else
      none

/-- The blocks that the instruction behind a handle leads to, with repeats. -/
def targetsOf (program : Program) (inst : InstId) : List BlockId :=
  (program.shell? inst).elim [] fun kind =>
    (program.operandsOf inst).filterMap (program.leadsTo? kind)

theorem edgeValue_eq_ok : s.edgeValue e = .ok v ↔ ∃ d, s.edges.get? e = some d ∧ d.value = v := by
  unfold edgeValue
  simp only [bind_eq_ok, pure_eq_ok, edge_eq_ok]

theorem edgeSlot_eq_ok :
    s.edgeSlot e = .ok slot ↔ ∃ d, s.edges.get? e = some d ∧ d.slot = slot := by
  unfold edgeSlot
  simp only [bind_eq_ok, pure_eq_ok, edge_eq_ok]

theorem filterMap_of_forall₂_edgeValue {edges : List EdgeId} {values : List ValueId}
    (read : Forall₂ (fun e v => s.edgeValue e = .ok v) edges values) :
    values = edges.filterMap fun e => (s.wire? e).map (·.value) := by
  induction read with
  | nil => rfl
  | @cons e _ _ _ first _ ih =>
    obtain ⟨d, found, rfl⟩ := edgeValue_eq_ok.mp first
    have seen : (s.wire? e).map (·.value) = some d.value := by
      rw [wire?, found]
      rfl
    rw [filterMap_cons, seen, ← ih]

theorem eq_targetsOf_of_targets (read : s.targets i = .ok targets) : targets = s.targetsOf i := by
  unfold Program.targets targetEdges at read
  simp only [bind_eq_ok, pure_eq_ok, kind_eq_ok, operands_eq_ok, filterM_eq_ok, mapM_eq_ok] at read
  obtain ⟨edges, ⟨kind, ⟨d, h, rfl⟩, ops, ⟨n, found, rfl⟩, readSlots, rfl⟩,
    values, readValues, rfl⟩ := read
  rw [filterMap_of_forall₂_edgeValue readValues]
  simp only [targetsOf, shell?, h, map_some, elim_some, operandsOf_eq found,
    filterMap_filter, filter_filterMap]
  refine filterMap_congr fun e mem => ?_
  obtain ⟨_, slot, readSlot, -⟩ := readSlots e mem
  obtain ⟨wire, foundWire, rfl⟩ := edgeSlot_eq_ok.mp readSlot
  have seen : s.wire? e = some wire.outline := by
    exact wire?_of_get? foundWire
  have accepted : Except.accepts (do
      let slot ← s.edgeSlot e
      pure (d.kind.isTargetSlot slot)) = d.kind.isTargetSlot wire.slot := by
    rw [readSlot]
    rfl
  simp only [leadsTo?, seen, accepted, bind_some, map_some, Edge.outline,
    InstKind.isTargetSlot_shell, InstKind.isTargetSlot_outline]
  by_cases tgt : d.kind.isTargetSlot wire.slot = true <;>
    by_cases b : s.isBlock wire.value = true <;> simp [tgt, b]

end Program

namespace Step

/-- Edges to some targets come or go one by one. -/
theorem flows_counts {shift : Nat → Nat → Nat} {edit : BlockId → Step Unit}
    (zero : ∀ n, shift n 0 = n) (add : ∀ n k l, shift (shift n k) l = shift n (k + l))
    (each : ∀ {p q : Program} {tgt : BlockId}, (edit tgt).run p = .ok ((), q) →
      p.Shifts q shift fun a b => if a = src ∧ b = tgt then 1 else 0)
    (run : (targets.forM edit).run p = .ok (answer, q)) :
    p.Shifts q shift fun a b => if a = src then targets.count b else 0 := by
  intro first second
  induction targets generalizing p with
  | nil =>
    obtain rfl := run_forM_nil.mp run
    simp [zero]
  | cons tgt rest ih =>
    obtain ⟨m, run1, run'⟩ := run_forM_cons.mp run
    obtain ⟨jumps, arrivals⟩ := each run1 first second
    obtain ⟨jumpsRest, arrivalsRest⟩ := ih run'
    rw [jumpsRest, arrivalsRest, jumps, arrivals]
    simp only [add, count_cons, beq_iff_eq]
    grind

/-- An instruction that comes to stand in a block adds its targets to the counts. -/
theorem attachFlow_counts (run : (attachFlow b i).run p = .ok (answer, q)) :
    p.Shifts q (· + ·) fun src tgt => if src = b then (p.targetsOf i).count tgt else 0 := by
  obtain ⟨targets, read, run⟩ := run_look.mp run
  rw [← eq_targetsOf_of_targets read]
  exact flows_counts add_zero add_assoc linkFlow_counts run

theorem detachFlow_counts (run : (detachFlow b i).run p = .ok (answer, q)) :
    p.Shifts q (· - ·) fun src tgt => if src = b then (p.targetsOf i).count tgt else 0 := by
  obtain ⟨targets, read, run⟩ := run_look.mp run
  rw [← eq_targetsOf_of_targets read]
  exact flows_counts Nat.sub_zero Nat.sub_sub unlinkFlow_counts run

end Step

/-! ### Moving an edge -/

/-- The block among the holders of instructions. -/
def Holder.home? : Option Holder → Option BlockId
  | some (.block home) => some home
  | _ => none

namespace Program

/-- The block that the instruction behind a handle stands in. -/
def home? (program : Program) (inst : InstId) : Option BlockId :=
  (program.link? inst).bind fun link => Holder.home? link.holder

/-- The block that an edge of a placed terminator leads away from. -/
def flowSource? (program : Program) (user : ValueId) (slot : Slot) : Option BlockId :=
  (program.shell? user).bind fun kind =>
    if kind.isTargetSlot slot then program.home? user else none

theorem SameSkeleton.home? (eq : p.SameSkeleton q) : q.home? = p.home? := by
  funext i
  simp only [Program.home?, eq.link?]

theorem SameSkeleton.flowSource? (eq : p.SameSkeleton q) : q.flowSource? = p.flowSource? := by
  funext user slot
  simp only [Program.flowSource?, eq.shell?, eq.home?]

/-- An edge reads another value. -/
structure EdgeMoved (before after : Program) (edge : EdgeId) (data : Edge) (new : ValueId) :
    Prop where
  rewires : before.Rewires after
  held : before.edges.get? edge = some data
  live : before.isLive new = true
  edges : after.edges.get? = update before.edges.get? edge (some { data with value := new })
  kinds : after.kind? = before.kind?
  operands : after.operandsOf = before.operandsOf
  uses : ∀ value, (after.usesOf value).Perm
    ((before.usesOf value).filter (· ≠ edge) ++ if value = new then [edge] else [])
  spare : after.spare = before.spare
  jumps : ∀ source target, after.jumps source target =
    before.jumps source target -
      (if before.flowSource? data.user data.slot = some source ∧ before.isBlock new = true ∧
        before.isBlock data.value = true ∧ target = data.value then 1 else 0) +
      (if before.flowSource? data.user data.slot = some source ∧ before.isBlock new = true ∧
        target = new then 1 else 0)
  mirrored : before.FlowMirrored → after.FlowMirrored

theorem EdgeMoved.wires {d : Edge} (moved : p.EdgeMoved q e d new) :
    q.wire? = update p.wire? e (some { d with value := new }.outline) := by
  funext other
  simp only [wire?, moved.edges, update_apply]
  split <;> rfl

theorem parentBlock?_eq_ok {b : Option BlockId} :
    s.parentBlock? i = .ok b ↔ s.isInst i = true ∧ s.home? i = b := by
  unfold parentBlock? home?
  rw [isInst_eq]
  simp only [bind_eq_ok, inst_eq_ok, link?]
  cases s.inst? i with
  | none => simp
  | some d =>
    rcases shape : d.holder with _ | _ | _ <;>
      simp [Holder.home?, Inst.link, shape, pure_eq_ok]

end Program

namespace Step

theorem retarget_counts {u old : ValueId} (run : (retarget u slot old new).run p = .ok (answer, q))
    (src tgt : BlockId) :
    q.jumps src tgt = p.jumps src tgt - (if p.flowSource? u slot = some src ∧ p.isBlock new = true ∧
            p.isBlock old = true ∧ tgt = old then 1 else 0) +
          (if p.flowSource? u slot = some src ∧ p.isBlock new = true ∧ tgt = new then 1 else 0) ∧
      q.arrivals src tgt = p.arrivals src tgt -
          (if p.flowSource? u slot = some src ∧ p.isBlock new = true ∧
            p.isBlock old = true ∧ tgt = old then 1 else 0) +
          (if p.flowSource? u slot = some src ∧ p.isBlock new = true ∧
            tgt = new then 1 else 0) := by
  replace run := run_get_bind.mp run
  split at run
  next hi =>
    simp only [run_bind, run_lift, kind_eq_ok] at run
    obtain ⟨kind, _, ⟨⟨d, h, rfl⟩, rfl⟩, run⟩ := run
    split at run
    next ht =>
      simp only [run_bind, run_lift, parentBlock?_eq_ok] at run
      obtain ⟨_, _, ⟨⟨-, rfl⟩, rfl⟩, run⟩ := run
      have place : p.flowSource? u slot = p.home? u := by
        simp [flowSource?, shell?, h, ht]
      rw [place]
      split at run
      next home atHome =>
        rw [atHome]
        split at run
        next newBlock =>
          split at run
          next oldBlock =>
            obtain ⟨_, m, runOld, runNew⟩ := run_bind.mp run
            obtain ⟨jumps, arrivals⟩ := unlinkFlow_counts runOld src tgt
            obtain ⟨jumpsNew, arrivalsNew⟩ := linkFlow_counts runNew src tgt
            rw [jumpsNew, arrivalsNew, jumps, arrivals]
            simp [newBlock, oldBlock, eq_comm]
          next oldOther =>
            obtain ⟨jumpsNew, arrivalsNew⟩ := linkFlow_counts run src tgt
            rw [jumpsNew, arrivalsNew]
            simp [newBlock, oldOther, eq_comm]
        next newOther =>
          obtain ⟨-, rfl⟩ := run_pure.mp run
          simp [newOther]
      next out =>
        obtain ⟨-, rfl⟩ := run_pure.mp run
        simp [out]
    next noTarget =>
      obtain ⟨-, rfl⟩ := run_pure.mp run
      have none : p.flowSource? u slot = none := by
        simp [flowSource?, shell?, h, noTarget]
      simp [none]
  next isOther =>
    obtain ⟨-, rfl⟩ := run_pure.mp run
    have none : p.flowSource? u slot = none := by
      rw [isInst_eq] at isOther
      have missing : p.inst? u = none := by simpa [link?] using isOther
      simp [flowSource?, shell?, missing]
    simp [none]

theorem rebind_spec (stored : p.Stored) (placid : p.Placid) (agree : p.UsesAgree)
    (run : (rebind e new).run p = .ok (answer, q)) : ∃ d, p.EdgeMoved q e d new := by
  have rew := rebind_rewires e new run
  obtain ⟨d, read, run⟩ := run_look.mp run
  have h := Program.edge_eq_ok.mp read
  simp only [run_bind] at run
  obtain ⟨_, unused, runOld, _, used, runNew, _, moved, runEdge, _, owned, runRetain, _, reflowed,
    runFlow, runDrop⟩ := run
  have wired : p.wire? e = some d.outline := by
    exact wire?_of_get? h
  have rewiresOwned : p.Rewires owned :=
    ((((modifyNode_rewires _) runOld).trans
      ((modifyNode_rewires _) runNew)).trans
      (modifyEdge_rewires e _ runEdge)).trans
      (retainConstant_rewires new runRetain)
  have rewiresBetween : p.Rewires reflowed := rewiresOwned.trans (retarget_rewires _ _ _ _ runFlow)
  have atOld := setUses_spec (swapRemove · e) runOld
  have atNew := setUses_spec (· ++ [e]) runNew
  obtain ⟨-, rfl⟩ := modifyEdge_run.mp runEdge
  obtain ⟨payloadsOwned, edgesOwned, operandsOwned, usesOwned, spareOwned⟩ :=
    retainConstant_spec runRetain
  have flow := retarget_reflows _ _ _ _ runFlow
  have operandsBetween : reflowed.operandsOf = p.operandsOf :=
    flow.operands.trans (operandsOwned.trans (atNew.operands.trans atOld.operands))
  obtain ⟨payloadsDrop, edgesDrop, operandsDrop, usesDrop, spareDrop⟩ :=
    dropConstant_spec (rewiresBetween.stored stored)
      (placid.of_rewires rewiresBetween fun v reads =>
        Or.inl (by rwa [operandsBetween] at reads)) runDrop
  have pls : owned.payload? = p.payload? :=
    payloadsOwned.trans (atNew.payloads.trans atOld.payloads)
  have sameBlocks := (Program.KeepsPayloads.of_eq pls).block?
  have counts := retarget_counts runFlow
  simp only [rewiresOwned.skeleton.flowSource?, rewiresOwned.skeleton.isBlock,
    Program.jumps_eq_of_block? sameBlocks, Program.arrivals_eq_of_block? sameBlocks] at counts
  refine ⟨d,
    { rewires := rew
      held := h
      live := ?_
      edges := ?_
      kinds := ?_
      operands := operandsDrop.trans operandsBetween
      uses := fun v => ?_
      spare := ?_
      jumps := fun src tgt => ?_
      mirrored := fun mirrored src tgt => ?_ }⟩
  · rw [Program.isLive_iff, ← atOld.payloads, ← Program.isLive_iff]
    exact atNew.live
  · funext other
    simp only [edgesDrop, flow.edges, edgesOwned, Arena.get?_modify, atNew.edges,
      atOld.edges, update_apply]
    split
    next eq => rw [eq, h, map_some]
    next => rfl
  · funext other
    simp only [Program.kind?, payloadsDrop.inst?, flow.insts,
      (Program.KeepsPayloads.of_eq pls).inst?]
  · have usesBetween : owned.usesOf = used.usesOf := usesOwned
    rw [usesDrop, flow.uses, usesBetween, atNew.uses, atOld.uses]
    have rem := agree.removed_perm wired v
    by_cases eq : v = new
    · subst eq
      rw [update_self, if_pos rfl]
      exact rem.append_right [e]
    · rw [update_of_ne eq, if_neg eq, append_nil]
      exact rem
  · have spareBetween : owned.spare = update used.spare new
        (used.spare new + if used.isConstant new then 1 else 0) := spareOwned
    have constants : reflowed.isConstant = p.isConstant :=
      flow.constants.trans (isConstant_eq_of_payload? pls)
    have shorter := agree.removed_length wired
    have v : d.outline.value = d.value := rfl
    funext other
    simp only [spareDrop, flow.spare_eq, spareBetween, atNew.spare, atOld.spare, constants,
      isConstant_eq_of_payload? (atNew.payloads.trans atOld.payloads),
      Program.isConstant_eq_of_payload? atOld.payloads, update_apply, atOld.uses,
      length_append, length_singleton]
    grind
  · rw [jumps_eq_of_block? payloadsDrop.block?]
    exact (counts src tgt).1
  · rw [jumps_eq_of_block? payloadsDrop.block?,
      arrivals_eq_of_block? payloadsDrop.block?, (counts src tgt).1,
      (counts src tgt).2, mirrored src tgt]

end Step

/-! ### Cases of a switch -/

namespace Program

/-- The case values of a switch change and nothing else does. -/
structure Recased (before after : Program) (switch : InstId) : Prop
    extends SameWiring before after where
  rewires : before.Rewires after
  kinds : ∀ other, other ≠ switch → after.kind? other = before.kind? other
  blocks : after.block? = before.block?

end Program

namespace Step

theorem setCases_recased (hsw : p.shell? sw = some (.switch []))
    (run : (modifyInst sw fun d => { d with kind := .switch values }).run p = .ok (answer, q)) :
    p.Recased q sw ∧ q.kind? sw = some (.switch values) := by
  have rew : p.Rewires q := by
    refine modifyInst_rewires sw (fun d h => ?_) run
    have shape : d.kind.shell = .switch [] := by
      simpa [shell?, h] using hsw
    cases kind : d.kind <;> simp_all [InstKind.shell, skeleton?]
  obtain ⟨d, h, rfl⟩ := modifyInst_run.mp run
  refine ⟨
    { toSameWiring := .ofPayload (inst?_eq_some_iff.mp h) rfl rfl rfl
      rewires := rew
      kinds := fun inst ne => ?_
      blocks := block?_withInst h _ }, ?_⟩
  · rw [kind?, inst?_withInst h, update_of_ne ne, kind?]
  · rw [kind?, inst?_withInst h, update_self, map_some]

theorem addCaseTo_spec {v : Int64} (stored : p.Stored) (hsw : p.shell? sw = some (.switch []))
    (run : (addCaseTo sw values v tgt).run p = .ok (answer, q)) :
    ∃ e, p.EdgeAdded q e
      { user := sw, value := tgt, slot := .indexed values.length }
      (p.home? sw) ∧ q.kind? sw = some (.switch (values ++ [v])) := by
  unfold addCaseTo at run
  simp only [run_bind, run_get, run_lift, parentBlock?_eq_ok] at run
  obtain ⟨_, recased, runKind, _, grown, runEdge, _, _, ⟨rfl, rfl⟩, _, _, ⟨⟨-, rfl⟩, rfl⟩, run⟩ :=
    run
  obtain ⟨kept, recasedKind⟩ := setCases_recased hsw runKind
  obtain ⟨e, added, addedKinds⟩ := addOperand_spec (kept.rewires.stored stored) runEdge
  have home : grown.home? sw = p.home? sw := by
    rw [added.rewires.skeleton.home?, kept.rewires.skeleton.home?]
  have flow : grown.Reflows q ∧ grown.Shifts q (· + ·) fun src second =>
      if p.home? sw = some src ∧ second = tgt then 1 else 0 := by
    rw [home] at run
    split at run
    next b atHome =>
      refine ⟨linkFlow_reflows _ _ run, fun src second => ?_⟩
      simpa only [atHome, some.injEq, eq_comm (a := b)] using linkFlow_counts run src second
    next out =>
      obtain ⟨-, rfl⟩ := run_pure.mp run
      exact ⟨.refl _, fun src second => by simp [out]⟩
  obtain ⟨reflows, counts⟩ := flow
  have live : ∀ v, recased.isLive v = true → p.isLive v = true := kept.rewires.shrinks.contains
  have kinds : q.kind? = recased.kind? := by
    rw [← addedKinds]
    funext inst
    simp only [kind?, reflows.insts]
  refine ⟨e,
    { rewires := kept.rewires.trans (added.rewires.trans reflows.rewires)
      fresh := kept.wire? ▸ added.fresh
      user := live _ added.user
      value := live _ added.value
      edges := by rw [reflows.edges, added.edges, kept.edges]
      kinds := fun other ne => by rw [kinds, kept.kinds other ne]
      operands := reflows.operands.trans (added.operands.trans (by rw [kept.operands]))
      uses := reflows.uses.trans (added.uses.trans (by rw [kept.uses]))
      spare := reflows.spare_eq.trans (added.spare.trans kept.spare_eq)
      jumps := fun src second => ?_
      mirrored := fun mirrored src second => ?_ }, by rw [kinds, recasedKind]⟩
  · rw [(counts src second).1, added.jumps, jumps_eq_of_block? kept.blocks]
    simp
  · rw [(counts src second).1, (counts src second).2,
      added.mirrored (.of_block? kept.blocks mirrored) src second]

end Step

namespace Program

theorem Recased.refl (s : Program) : s.Recased s sw :=
  ⟨.refl _, .refl _, fun _ _ => rfl, rfl⟩

theorem switchValues?_eq_ok {values : Option (List Int64)} :
    s.switchValues? sw = .ok values ↔ ∃ d, s.inst? sw = some d ∧
        (match d.kind with | .switch cases => some cases | _ => none) = values := by
  unfold switchValues?
  simp only [bind_eq_ok, kind_eq_ok]
  constructor
  · rintro ⟨_, ⟨d, h, rfl⟩, read⟩
    refine ⟨d, h, ?_⟩
    cases kind : d.kind <;> simp_all [pure_eq_ok]
  · rintro ⟨d, h, read⟩
    refine ⟨_, ⟨d, h, rfl⟩, ?_⟩
    cases kind : d.kind <;> simp_all [pure_eq_ok]

theorem caseTarget?_eq {tgt : Option BlockId} (mem : (s.operandsOf sw)[firstCase + pos]? = some e)
    (read : s.caseTarget? sw pos = .ok tgt) :
    ∃ d, s.wire? e = some d ∧ tgt = if s.isBlock d.value = true then some d.value else none := by
  unfold caseTarget? blockOperand? operand? at read
  simp only [bind_eq_ok, operands_eq_ok] at read
  obtain ⟨v, ⟨ops, ⟨n, found, rfl⟩, readValue⟩, readBlock⟩ := read
  rw [← operandsOf_eq found, mem] at readValue
  simp only [bind_eq_ok, pure_eq_ok, edgeValue_eq_ok] at readValue
  obtain ⟨_, ⟨d, h, rfl⟩, rfl⟩ := readValue
  refine ⟨d.outline, wire?_of_get? h, ?_⟩
  exact (pure_eq_ok.mp readBlock).symm

end Program

namespace Step

theorem dropCaseValue_run (sameInsts : p.inst? = s.inst?)
    (run : (do
      match ← s.switchValues? sw with
      | some values =>
        if pos < values.length then
          modifyInst sw fun d => { d with kind := .switch (values.eraseIdx pos) }
        else
          throw (.removalPastEnd pos values.length)
      | none => pure ()
      next : Step Unit).run p = .ok (answer, q)) :
    ∃ recased, p.Recased recased sw ∧ next.run recased = .ok (answer, q) ∧
      ∀ cases, p.kind? sw = some (.switch cases) → pos < cases.length ∧
        recased.kind? sw = some (.switch (cases.eraseIdx pos)) := by
  simp only [run_bind, run_lift, switchValues?_eq_ok] at run
  obtain ⟨_, _, ⟨⟨d, h, rfl⟩, rfl⟩, run⟩ := run
  split at run
  next values shape =>
    have kind : d.kind = .switch values := by
      cases kind : d.kind <;> simp_all
    split at run
    next lt =>
      obtain ⟨_, recased, runKind, runNext⟩ := run_bind.mp run
      have hsw : p.shell? sw = some (.switch []) := by
        rw [shell?, sameInsts, h, map_some, kind]
        rfl
      obtain ⟨kept, recasedKind⟩ := setCases_recased hsw runKind
      refine ⟨recased, kept, runNext, fun cases isSwitch => ?_⟩
      rw [kind?, sameInsts, h, map_some, kind] at isSwitch
      cases isSwitch
      exact ⟨lt, recasedKind⟩
    next =>
      obtain ⟨_, _, runThrow, -⟩ := run_bind.mp run
      exact absurd runThrow (run_throw_ne_ok _ _ _)
  next noSwitch =>
    refine ⟨p, .refl _, run, fun cases isSwitch => ?_⟩
    rw [kind?, sameInsts, h, map_some, some.injEq] at isSwitch
    simp [isSwitch] at noSwitch

theorem removeCaseAt_spec (stored : p.Stored) (placid : p.Placid) (agree : p.UsesAgree)
    (nd : (p.operandsOf sw).Nodup) (run : (removeCaseAt sw pos).run p = .ok (answer, q)) :
    ∃ e d, (p.operandsOf sw)[firstCase + pos]? = some e ∧ p.edges.get? e = some d ∧
      p.OperandsRemoved q sw ((p.operandsOf sw).eraseIdx (firstCase + pos)) [e]
        (if p.isBlock d.value = true then
          (p.home? sw).map (·, d.value) else none) ∧
      (∀ edge ∈ (p.operandsOf sw).eraseIdx (firstCase + pos), q.edges.get? edge =
          if edge ∈ ((p.operandsOf sw).eraseIdx (firstCase + pos)).drop (firstCase + pos) then
            (p.edges.get? edge).map (Edge.closing d.slot)
          else p.edges.get? edge) ∧
      ∀ cases, p.kind? sw = some (.switch cases) → pos < cases.length ∧
        q.kind? sw = some (.switch (cases.eraseIdx pos)) := by
  obtain ⟨_, readHome, run⟩ := run_look.mp run
  obtain ⟨-, rfl⟩ := parentBlock?_eq_ok.mp readHome
  simp only [run_bind, run_lift] at run
  obtain ⟨tgt, _, ⟨readTarget, rfl⟩, run⟩ := run
  have flow : ∃ reflowed recased, p.Reflows reflowed ∧ reflowed.Recased recased sw ∧
      (removeOperandAt sw (firstCase + pos)).run recased = .ok (answer, q) ∧
      (∀ cases, reflowed.kind? sw = some (.switch cases) → pos < cases.length ∧
        recased.kind? sw = some (.switch (cases.eraseIdx pos))) ∧
      p.Shifts reflowed (· - ·) fun src second =>
        if tgt.bind (fun tgt => (p.home? sw).map (·, tgt)) = some (src, second) then 1 else 0 := by
    cases atHome : p.home? sw with
    | none =>
      rw [atHome] at run
      obtain ⟨recased, kept, runEdge, values⟩ := dropCaseValue_run rfl run
      exact ⟨p, recased, .refl _, kept, runEdge, values, by simp [Shifts]⟩
    | some b =>
      cases tgt with
      | none =>
        rw [atHome] at run
        obtain ⟨recased, kept, runEdge, values⟩ := dropCaseValue_run rfl run
        exact ⟨p, recased, .refl _, kept, runEdge, values, by simp [Shifts]⟩
      | some block =>
        rw [atHome] at run
        obtain ⟨_, reflowed, runFlow, run'⟩ := run_bind.mp run
        have reflows := unlinkFlow_reflows _ _ runFlow
        obtain ⟨recased, kept, runEdge, values⟩ := dropCaseValue_run reflows.insts run'
        refine ⟨reflowed, recased, reflows, kept, runEdge, values, fun src second => ?_⟩
        simpa only [bind_some, map_some, some.injEq, Prod.mk.injEq,
          eq_comm (a := b), eq_comm (a := block)] using unlinkFlow_counts runFlow src second
  obtain ⟨reflowed, recased, reflows, kept, runEdge, values, counts⟩ := flow
  have rew := reflows.rewires.trans kept.rewires
  have same := reflows.toSameWiring.trans kept.toSameWiring
  have ops := same.operands
  obtain ⟨e, d, mem, h, rem, places, pls⟩ :=
    removeOperandAt_spec (rew.stored stored)
      (placid.of_rewires rew fun v reads => Or.inl (by rwa [ops] at reads))
      (agree.of_same same.uses same.wire?) (by rwa [ops]) runEdge
  rw [ops] at mem rem
  rw [same.edges] at h
  obtain ⟨outline, wired, rfl⟩ := caseTarget?_eq mem readTarget
  rw [wire?, h, map_some, some.injEq] at wired
  subst wired
  have cut : (if p.isBlock d.outline.value = true then some d.outline.value
        else none).bind
      (fun tgt => (p.home? sw).map (·, tgt)) =
        if p.isBlock d.value = true then (p.home? sw).map (·, d.value)
        else none := by
    change (if p.isBlock d.value = true then some d.value else none).bind _ = _
    split <;> rfl
  simp only [cut] at counts
  refine ⟨e, d, mem, h,
    { rewires := rew.trans rem.rewires
      live := rew.shrinks.contains _ rem.live
      wires := fun edge => by rw [rem.wires, same.wire?]
      edges := fun edge out => by rw [rem.edges edge out, same.edges]
      kinds := fun value ne => by
        rw [pls.kind?, kept.kinds value ne]
        simp only [kind?, reflows.insts]
      operands := rem.operands.trans (by rw [ops])
      uses := fun v => by
        have kept := rem.uses v
        rwa [same.uses] at kept
      spare := rem.spare.trans same.spare_eq
      jumps := fun src second => ?_
      mirrored := fun mirrored => rem.mirrored (.of_block? kept.blocks ?_) },
    fun edge mem => by rw [places edge (by rwa [ops]), ops, same.edges],
    fun cases isSwitch => ?_⟩
  · rw [rem.jumps, jumps_eq_of_block? kept.blocks, (counts src second).1]
    simp
  · intro src second
    rw [(counts src second).1, (counts src second).2, mirrored src second]
  · rw [pls.kind?]
    exact values cases (by simpa only [kind?, reflows.insts] using isSwitch)

end Step

end ValueGraph
