import Mathlib
import ValueGraph.Proofs.Tearing

open Function

namespace ValueGraph

open Program List Option

/-!
# Nodes that are given up

When the instructions of some blocks are gone, blocks, registers, arguments and functions
are struck from their lists and given up.  This touches nothing but the nodes
themselves: all other nodes and all edges are the same.
-/

variable {ends : Ends} {more touched given : List ValueId} {p q : Program} {v : ValueId}
  {b : BlockId} {blocks : List BlockId}

namespace Program

variable {s : Program}

/-! ### Owners -/

/-- One owner gives up a node, which goes with its last owner. -/
def GivesUp (before after : Program) (value : ValueId) : Prop :=
  ∃ rest, before.values.count? value = some (rest + 1) ∧
    if rest = 0 then after.isLive value = false else after.values.count? value = some rest

/-- Nodes have no owners exactly if they are not there. -/
theorem Stored.count?_eq (stored : s.Stored) :
    s.values.count? v = if s.countOf v = 0 then none else some (s.countOf v) := by
  have owned := stored.owned v
  rw [countOf]
  cases h : s.values.count? v with
  | none => simp
  | some count =>
    rw [h] at owned
    have some : count ≠ 0 := fun none => owned (by rw [none])
    simp [some]

theorem givesUp_of_countOf (stored : p.Stored) (storedAfter : q.Stored)
    (less : q.countOf v + 1 = p.countOf v) : p.GivesUp q v := by
  refine ⟨q.countOf v, ?_, ?_⟩
  · rw [stored.count?_eq, ← less, if_neg (Nat.succ_ne_zero _)]
  · split
    next none =>
      rw [Bool.eq_false_iff]
      exact fun live => storedAfter.isLive_iff.mp live none
    next some => rw [storedAfter.count?_eq, if_neg some]

theorem count?_eq_of_countOf (stored : p.Stored) (storedAfter : q.Stored)
    (eq : q.countOf v = p.countOf v) : q.values.count? v = p.values.count? v := by
  rw [stored.count?_eq, storedAfter.count?_eq, eq]

theorem isLive_eq_of_countOf (stored : p.Stored) (storedAfter : q.Stored)
    (eq : q.countOf v = p.countOf v) : q.isLive v = p.isLive v := by
  rw [Bool.eq_iff_iff, stored.isLive_iff, storedAfter.isLive_iff, eq]

theorem usedBy_perm {uses : List EdgeId} (wired : p.Wired) (wiredAfter : q.Wired)
    (edges : ∀ e d, q.edges.get? e = some d → p.edges.get? e = some d) (live : q.isLive v = true)
    (read : p.usedBy v = .ok uses) :
    ∃ left, q.usedBy v = .ok left ∧ left.Perm (uses.filter q.edges.contains) := by
  obtain ⟨-, rfl⟩ := usedBy_eq_ok_iff_of_live.mp read
  refine ⟨_, usedBy_eq_ok_iff_of_live.mpr ⟨live, rfl⟩, ?_⟩
  refine (perm_ext_iff_of_nodup (wiredAfter.uses.nodup v)
    ((wired.uses.nodup v).filter _)).mpr fun e => ?_
  rw [mem_filter, wiredAfter.uses.mem_iff, wired.uses.mem_iff, Arena.contains_iff_get?]
  constructor
  · rintro ⟨_, h, isValue⟩
    obtain ⟨d, hEdge, rfl⟩ := map_eq_some_iff.mp h
    exact ⟨⟨d.outline, by rw [wire?, edges e d hEdge, map_some], isValue⟩, d, hEdge⟩
  · rintro ⟨⟨_, h, isValue⟩, d, hAfter⟩
    rw [wire?, edges e d hAfter, map_some, some.injEq] at h
    exact ⟨_, by rw [wire?, hAfter, map_some, h], isValue⟩

/-! ### Nodes that are touched -/

/-- Some nodes are touched, and some are given up by an owner.  All other nodes, all edges and
everything around them are the same; no instruction is touched and no chain of a block. -/
structure Alters (before after : Program) (touched given : List ValueId) : Prop where
  nodes : ∀ value, value ∉ touched → after.values.get? value = before.values.get? value
  operands : ∀ value, after.isLive value = true → after.operandsOf value = before.operandsOf value
  counts : ∀ value, after.countOf value = before.countOf value - given.count value
  edges : after.edges = before.edges
  surroundings : after.surroundings = before.surroundings
  links : after.link? = before.link?
  ends : ∀ block ends, after.ends? block = some ends → before.ends? block = some ends
  stored : after.Stored

namespace Alters

theorem refl (stored : s.Stored) : s.Alters s [] [] where
  nodes _ _ := rfl
  operands _ _ := rfl
  counts _ := by simp
  edges := rfl
  surroundings := rfl
  links := rfl
  ends _ _ := id
  stored := stored

theorem trans {first second r : Program} {others : List ValueId}
    (earlier : first.Alters second touched given) (later : second.Alters r more others) :
    first.Alters r (touched ++ more) (given ++ others) where
  nodes v outside := by
    rw [mem_append, not_or] at outside
    rw [later.nodes v outside.2, earlier.nodes v outside.1]
  operands v live := by
    rw [later.operands v live]
    refine earlier.operands v (earlier.stored.isLive_iff.mpr fun none => ?_)
    exact later.stored.isLive_iff.mp live (by rw [later.counts, none, Nat.zero_sub])
  counts v := by rw [later.counts, earlier.counts, count_append, Nat.sub_sub]
  edges := later.edges.trans earlier.edges
  surroundings := later.surroundings.trans earlier.surroundings
  links := later.links.trans earlier.links
  ends b ends held := earlier.ends b ends (later.ends b ends held)
  stored := later.stored

theorem mono (alters : p.Alters q touched given) (subset : touched ⊆ more) :
    p.Alters q more given :=
  { alters with nodes := fun v out => alters.nodes v fun inside => out (subset inside) }

theorem isInst (alters : p.Alters q touched given) : q.isInst = p.isInst := by
  rw [isInst_eq, isInst_eq, alters.links]

/-- Seats and lists of one node change. -/
theorem of_resettles (settle : p.Resettles q) (stored : p.Stored)
    (nodes : ∀ value, value ≠ v → q.values.get? value = p.values.get? value) :
    p.Alters q [v] [] where
  nodes value outside := nodes value (by simpa using outside)
  operands value _ := by rw [settle.operands]
  counts value := by simp [countOf, settle.counts]
  edges := settle.edges
  surroundings := settle.surroundings
  links := settle.links
  ends block ends := by rw [settle.ends]; exact id
  stored := settle.stored stored

theorem of_dropped (drop : p.Dropped q v) (noInst : p.isInst v = false) : p.Alters q [v] [v] where
  nodes value outside := drop.node_of_ne (by simpa using outside)
  operands value live := by
    rcases drop.exchanged_or with ⟨-, -, ops⟩ | ⟨last, -, -, ops⟩
    · rw [ops]
    · rw [ops, update_of_ne]
      rintro rfl
      refine drop.stored.isLive_iff.mp live ?_
      rw [drop.counts, update_self, last]
  counts value := by
    rw [drop.counts, update_apply]
    split
    next eq => simp [eq]
    next ne => simp [Ne.symm ne]
  edges := by rw [drop.others]
  surroundings := by rw [drop.others]; rfl
  links := by
    have unlinked : p.link? v = none := by
      simpa [isInst_eq] using noInst
    funext i
    by_cases eq : i = v
    · subst eq
      cases h : q.link? i with
      | none => exact unlinked.symm
      | some l => rw [drop.link?_before h] at unlinked; cases unlinked
    · exact drop.link?_of_ne eq
  ends b ends h := by
    obtain ⟨d, hBlock, rfl⟩ := map_eq_some_iff.mp h
    obtain ⟨-, nodes⟩ | ⟨-, -, -, nodes⟩ := drop.outcome
    · rw [← h, ends?, ends?, block?, block?, payload?, payload?, nodes]
    · by_cases eq : b = v
      · subst eq
        simp [block?, payload?, nodes] at hBlock
      · rw [← h, ends?, ends?, block?, block?, payload?, payload?, nodes, update_of_ne eq]
  stored := drop.stored

/-! ### What is not touched -/

variable (alters : p.Alters q touched given)

include alters

theorem core?_eq (out : v ∉ touched) : q.core? v = p.core? v := by
  rw [core?, core?, alters.nodes v out]

theorem isLive_eq (out : v ∉ touched) : q.isLive v = p.isLive v := by
  rw [Bool.eq_iff_iff, isLive, isLive, Arena.contains_iff_get?, Arena.contains_iff_get?,
    alters.nodes v out]

theorem payload?_eq (out : v ∉ touched) : q.payload? v = p.payload? v := by
  rw [payload?, payload?, alters.nodes v out]

theorem countOf_eq (kept : v ∉ given) : q.countOf v = p.countOf v := by
  rw [alters.counts, count_eq_zero_of_not_mem kept, Nat.sub_zero]

/-- Threads stay if the blocks that are touched are empty. -/
theorem threads_eq (hs : p.Sound) (vacant : ∀ b ∈ touched, p.threads b = []) :
    q.threads = p.threads := by
  have chains : q.Chains p.threads none :=
    { ends := fun b ends h => hs.chains.ends b ends (alters.ends b ends h)
      outside := fun b absent => by
        by_cases inside : b ∈ touched
        · exact vacant b inside
        · refine hs.chains.outside b ?_
          rwa [ends?, block?, ← alters.payload?_eq inside]
      nodup := hs.chains.nodup
      linked := by simpa only [alters.links] using hs.chains.linked
      attached := by simpa only [alters.links] using hs.chains.attached
      unchained := by simpa only [alters.links] using hs.chains.unchained }
  exact chains.threads_eq

end Alters

theorem Sound.exists_ends_of_empty (hs : s.Sound) (hb : s.isBlock b = true)
    (empty : s.threads b = []) : ∃ ends, s.ends? b = some ends ∧ ends.first = none := by
  rw [isBlock_eq_ends?, isSome_iff_exists] at hb
  obtain ⟨ends, h⟩ := hb
  refine ⟨ends, h, ?_⟩
  rw [hs.chains.ends b ends h, empty]
  rfl

theorem instructions_of_ends (h : s.ends? b = some ends) (empty : ends.first = none) :
    s.instructions b = .ok [] := by
  obtain ⟨d, hBlock, rfl⟩ := map_eq_some_iff.mp h
  have first : d.first = none := empty
  rw [instructions, block_eq_ok.mpr hBlock]
  change s.chainFrom d.first = .ok []
  rw [first, chainFrom, chainWithin]
  rfl

end Program

namespace Step

variable {a : Unit} {f : FuncId} {values : List ValueId}

section

variable (stored : p.Stored)
include stored

theorem modifyFunction_alters {change : Function → Function}
    (run : (modifyFunction f change).run p = .ok (a, q)) : p.Alters q [f] [] := by
  obtain ⟨_, refit⟩ := modifyFunction_refitted run
  refine .of_resettles refit.toResettles stored fun value ne => ?_
  obtain ⟨_, -, rfl⟩ := modifyFunction_run.mp run
  rw [get?_withPayload, if_neg ne]

theorem setSeat_alters {seat : Option FuncId}
    (run : (modifyBlock b fun d => { d with parent := seat }).run p = .ok (a, q)) :
    p.Alters q [b] [] := by
  refine .of_resettles (setSeat_reseated run).toResettles stored fun value ne => ?_
  obtain ⟨_, -, rfl⟩ := modifyBlock_run.mp run
  rw [get?_withPayload, if_neg ne]

theorem dropHandle_alters (noInst : p.isInst v = false) (run : (dropHandle v).run p = .ok (a, q)) :
    p.Alters q [v] [v] :=
  .of_dropped (dropHandle_spec stored run) noInst

theorem dropAll_alters (others : ∀ v ∈ values, p.isInst v = false)
    (run : (values.forM dropHandle).run p = .ok (a, q)) : p.Alters q values values := by
  induction values generalizing p with
  | nil =>
    obtain rfl := run_forM_nil.mp run
    exact .refl stored
  | cons v rest ih =>
    obtain ⟨m, run1, run'⟩ := run_forM_cons.mp run
    have first := dropHandle_alters stored (others v (by simp)) run1
    refine first.trans (ih first.stored (fun value mem => ?_) run')
    rw [first.isInst]
    exact others value (by simp [mem])

theorem releaseBlock_alters (h : p.ends? b = some ends) (empty : ends.first = none)
    (run : (releaseBlock b).run p = .ok (a, q)) :
    p.Alters q [b] [b] ∧ ∀ seat, q.seat? b = some seat → p.seat? b = some seat := by
  rw [releaseBlock_run_iff_of_empty (instructions_of_ends h empty)] at run
  obtain ⟨d, hBlock, -⟩ := map_eq_some_iff.mp h
  refine ⟨dropHandle_alters stored ?_ run, fun seat => (dropHandle_spec stored run).seat?_before⟩
  rw [isInst, block?_eq_some_iff.mp hBlock]
  rfl

theorem dropBlocks_alters (nd : blocks.Nodup)
    (empty : ∀ b ∈ blocks, ∃ ends, p.ends? b = some ends ∧ ends.first = none)
    (run : (blocks.forM fun b => do
      modifyBlock b fun d => { d with parent := none }
      releaseBlock b).run p = .ok (a, q)) :
    p.Alters q blocks blocks ∧ ∀ b ∈ blocks, ∀ seat, q.seat? b = some seat → seat = none := by
  induction blocks generalizing p with
  | nil =>
    obtain rfl := run_forM_nil.mp run
    exact ⟨.refl stored, by simp⟩
  | cons b rest ih =>
    obtain ⟨released, run1, run'⟩ := run_forM_cons.mp run
    obtain ⟨_, unseated, runSeat, runRelease⟩ := run_bind.mp run1
    obtain ⟨away, nd'⟩ := nodup_cons.mp nd
    have unseat := setSeat_alters stored runSeat
    obtain ⟨ends, h, first⟩ := empty b (by simp)
    obtain ⟨release, seats⟩ := releaseBlock_alters unseat.stored
      (by rw [(setSeat_reseated runSeat).ends, h]) first runRelease
    have both : p.Alters released [b] [b] := (unseat.trans release).mono (by simp)
    obtain ⟨others, left⟩ := ih both.stored nd' (fun block mem => by
      have ne : block ∉ [b] := by
        rintro eq
        exact away (mem_singleton.mp eq ▸ mem)
      rw [ends?, block?, both.payload?_eq ne]
      exact empty block (by simp [mem])) run'
    refine ⟨both.trans others, fun block mem seat seated => ?_⟩
    rcases mem_cons.mp mem with rfl | inRest
    · rw [seat?, block?, others.payload?_eq away] at seated
      have last := seats seat seated
      rw [(setSeat_reseated runSeat).seats, update_self, some.injEq] at last
      exact last.symm
    · exact left block inRest seat seated

end

end Step

/-! ### Instructions first, then what held them -/

/-- A block stays where it is and keeps its instructions and the counts of its targets, and loses
other blocks from those that lead to it. -/
structure Block.Loses (old new : Block) (gone : List BlockId) : Prop where
  parent : new.parent = old.parent
  first : new.first = old.first
  last : new.last = old.last
  length : new.length = old.length
  jumpsTo : ∀ target, new.jumpsTo.count target = old.jumpsTo.count target
  comesFrom : ∀ source, new.comesFrom.count source =
    if source ∈ gone then 0 else old.comesFrom.count source

namespace Program

variable {emptied : Program} {i : InstId}

/-- The instructions of some blocks are taken apart.  Then some nodes are touched or given up,
the blocks among them, but neither instructions nor constants nor other blocks. -/
structure Demolished
    (before emptied after : Program)
    (blocks : List BlockId)
    (touched given : List ValueId) : Prop where
  tears : before.Tears emptied blocks
  alters : emptied.Alters after touched given
  shrunk : ∃ promise, Shrunk promise before after
  among : blocks ⊆ touched
  fewer : given ⊆ touched
  insts : ∀ value ∈ touched, before.isInst value = false
  constants : ∀ value ∈ touched, before.isConstant value = false
  others : ∀ value ∈ touched, before.isBlock value = true → value ∈ blocks

namespace Demolished

variable (dem : p.Demolished emptied q blocks touched given) (hs : p.Sound)

include dem

theorem wanes : p.Wanes q := by
  obtain ⟨pr, shrunk⟩ := dem.shrunk
  exact shrunk.wanes

theorem not_touched_of_torn (hs : p.Sound) (torn : p.Torn blocks i) : i ∉ touched := by
  intro inside
  have hi := (hs.ongoing_of_torn torn).isInst
  rw [dem.insts i inside] at hi
  cases hi

include hs

theorem soundAfter : q.Sound := by
  obtain ⟨pr, shrunk⟩ := dem.shrunk
  exact Shrunk.sound shrunk hs

theorem flowingAfter (flow : p.Flowing) : q.Flowing := by
  obtain ⟨pr, shrunk⟩ := dem.shrunk
  exact Shrunk.flowing shrunk hs flow

theorem soundEmptied : emptied.Sound :=
  dem.tears.soundAfter hs

/-! #### What goes -/

/-- An instruction that goes is left to its other owners, finalized and without operands. -/
theorem remains_of_torn (torn : p.Torn blocks i) (live : q.isLive i = true) :
    q.status i = .ok .finalized ∧ q.operands i = .ok [] := by
  have out := dem.not_touched_of_torn hs torn
  have ops := dem.alters.operands i live
  rw [dem.tears.operands_of_torn hs torn] at ops
  refine ⟨?_, operands_eq_ok_iff_of_live.mpr ⟨live, ops⟩⟩
  rw [dem.alters.isLive_eq out] at live
  obtain ⟨l, h, fin⟩ := status?_eq_some_iff.mp (dem.tears.status?_of_torn hs torn live)
  rw [← dem.alters.links] at h
  obtain ⟨d, hInst, rfl⟩ := map_eq_some_iff.mp h
  exact status_eq_ok.mpr ⟨d, hInst, fin⟩

theorem countOf_of_torn (neat : p.Neat) (torn : p.Torn blocks i) :
    q.countOf i + 1 = p.countOf i := by
  have out := dem.not_touched_of_torn hs torn
  rw [dem.alters.countOf_eq fun inside => out (dem.fewer inside)]
  exact dem.tears.countOf_of_torn hs neat torn

theorem constant_gone (neat : p.Neat) (flow : p.Flowing) (c : p.isConstant v = true)
    (gone : q.isLive v = false) :
    p.countOf v = (p.usesOf v).length ∧ ∀ e ∈ p.usesOf v, ∃ d, p.edges.get? e = some d ∧
        p.Torn blocks d.user := by
  have out : v ∉ touched := fun inside => by
    simp [dem.constants v inside] at c
  rw [dem.alters.isLive_eq out] at gone
  exact ⟨dem.tears.countOf_of_constant neat c gone,
    fun e isUse => dem.tears.torn_of_use hs flow gone isUse⟩

/-! #### What stays -/

theorem edge_iff {e : EdgeId} {d : Edge} (flow : p.Flowing) :
    q.edges.get? e = some d ↔ p.edges.get? e = some d ∧ ¬ p.Torn blocks d.user := by
  rw [dem.alters.edges]
  exact dem.tears.edge_iff hs flow

omit hs in
theorem operandsOf_eq (out : ¬ p.Torn blocks v) (live : q.isLive v = true) :
    q.operandsOf v = p.operandsOf v := by
  rw [dem.alters.operands v live, dem.tears.confined.operands v out]

theorem core?_eq (out : ¬ p.Torn blocks v) (untouched : v ∉ touched) (live : q.isLive v = true) :
    q.core? v = p.core? v := by
  rw [dem.alters.core?_eq untouched]
  rw [dem.alters.isLive_eq untouched] at live
  exact dem.tears.core?_eq hs out (fun goes => untouched (dem.among goes)) live

theorem countOf_eq (neat : p.Neat) (out : ¬ p.Torn blocks v) (kept : v ∉ given)
    (noConstant : p.isConstant v = false) : q.countOf v = p.countOf v := by
  rw [dem.alters.countOf_eq kept]
  exact dem.tears.countOf_eq hs neat out noConstant

theorem threads_eq : q.threads = fun b => if b ∈ blocks then [] else p.threads b := by
  rw [← dem.tears.threads]
  refine dem.alters.threads_eq (dem.soundEmptied hs) fun b inside => ?_
  by_cases goes : b ∈ blocks
  · rw [dem.tears.threads]
    exact if_pos goes
  · rw [dem.tears.threads_of_outside goes]
    refine hs.chains.outside b ?_
    have noBlock : p.isBlock b = false := by
      by_contra isBlock
      exact goes (dem.others b inside (by simpa using isBlock))
    simpa [isBlock_eq_ends?] using noBlock

theorem instructions_eq_nil (goes : b ∈ blocks) (hb : q.isBlock b = true) :
    q.instructions b = .ok [] := by
  rw [(dem.soundAfter hs).chains.instructions_eq_ok hb, dem.threads_eq hs]
  simp [goes]

/-! #### Flow -/

theorem targetsOf_eq (flow : p.Flowing) (out : ¬ p.Torn blocks i) (live : q.isLive i = true) :
    q.targetsOf i = p.targetsOf i := by
  have wanes := dem.wanes
  rw [targetsOf, targetsOf, (wanes.sorts i live).shells, dem.operandsOf_eq out live]
  cases p.shell? i with
  | none => rfl
  | some kind =>
    refine filterMap_congr fun e listed => ?_
    obtain ⟨d, h, rfl⟩ := hs.wired.edge_of_operand listed
    have hAfter := (dem.edge_iff hs flow).mpr ⟨h, out⟩
    have liveValue := (dem.soundAfter hs).wired.uses.isLive hAfter
    refine leadsTo?_congr (by rw [wire?, wire?, h, hAfter]) fun outline hOutline => ?_
    rw [wire?, h, map_some, some.injEq] at hOutline
    rw [← hOutline]
    exact (wanes.sorts d.value liveValue).blocks

/-- A block leads where it led as long as it keeps its instructions. -/
theorem outflow_eq (flow : p.Flowing) :
    q.outflow = fun b => if b ∈ blocks then [] else p.outflow b := by
  have threads := dem.threads_eq hs
  funext b
  split
  next goes => simp [outflow, threads, goes]
  next stays =>
    rw [outflow, outflow, threads]
    simp only [if_neg stays]
    cases last : (p.threads b).getLast? with
    | none => rfl
    | some i =>
      have inThread := mem_of_getLast? last
      have inThreadAfter : i ∈ q.threads b := by
        rw [threads]
        simpa only [if_neg stays] using inThread
      refine dem.targetsOf_eq hs flow (fun torn => hs.not_within stays inThread torn.within) ?_
      exact isLive_of_category ((dem.soundAfter hs).isInst_of_mem_threads inThreadAfter)

theorem block_loses {old : Block} (flow : p.Flowing) (stays : b ∉ blocks)
    (h : p.block? b = some old) : ∃ new, q.block? b = some new ∧ old.Loses new blocks := by
  have hb : p.isBlock b = true := isBlock_iff.mpr ⟨old, h⟩
  have untouched : b ∉ touched := fun inside => stays (dem.others b inside hb)
  have out : ¬ p.Torn blocks b := fun torn => by
    have hi := (hs.ongoing_of_torn torn).isInst
    simp [isBlock_eq_false_of_isInst hi] at hb
  have live : q.isLive b = true := by
    rw [dem.alters.isLive_eq untouched]
    have stillBlock : emptied.isBlock b = true := by
      rwa [isBlock_eq_seat?, (dem.tears.dwindles hs).seats, ← isBlock_eq_seat?]
    exact isLive_of_category stillBlock
  obtain ⟨new, hNew, parent, ends⟩ := block?_of_core? (dem.core?_eq hs out untouched live) h
  have flowingAfter := dem.flowingAfter hs flow
  have outflow := dem.outflow_eq hs flow
  rw [Block.ends, Block.ends, Ends.mk.injEq] at ends
  refine ⟨new, hNew, parent, ends.1, ends.2.1, ends.2.2, ?_, ?_⟩
  · intro tgt
    rw [flowingAfter.count_jumpsTo hNew, outflow, flow.count_jumpsTo h]
    simp only [if_neg stays]
  · intro src
    rw [flowingAfter.count_comesFrom hNew, outflow, flow.count_comesFrom h]
    by_cases goes : src ∈ blocks
    · simp only [if_pos goes, count_nil]
    · simp only [if_neg goes]

theorem instructions_eq {insts : List InstId} (flow : p.Flowing) (stays : b ∉ blocks)
    (read : p.instructions b = .ok insts) : q.instructions b = .ok insts := by
  have hb := isBlock_of_instructions read
  obtain ⟨old, h⟩ := isBlock_iff.mp hb
  obtain ⟨new, hNew, -⟩ := dem.block_loses hs flow stays h
  rw [(dem.soundAfter hs).chains.instructions_eq_ok (isBlock_iff.mpr ⟨new, hNew⟩),
    dem.threads_eq hs, ← read, hs.chains.instructions_eq_ok hb]
  simp [stays]

end Demolished

end Program

end ValueGraph
