import Mathlib
import ValueGraph.Proofs.FlowGraph
import ValueGraph.Proofs.Recycling

namespace ValueGraph

open Program List Option Or

/-!
# Successors and predecessors

In a sound program the terminator of a block and its targets can be read.  Where the
flow graph is exact, the counts of blocks give the same answers as the terminators.
-/

variable {d : Block} {α : Type} {i : InstId}

theorem exists_mapM_eq_ok {ε β : Type} {reading : α → Except ε β} {items : List α}
    (reads : ∀ item ∈ items, ∃ a, reading item = .ok a) :
    ∃ answers, items.mapM reading = .ok answers := by
  simp only [mapM_eq_ok]
  induction items with
  | nil => exact ⟨[], .nil⟩
  | cons item rest ih =>
    obtain ⟨a, read⟩ := reads item (by simp)
    obtain ⟨answers, readRest⟩ := ih fun other mem =>
      reads other (by simp [mem])
    exact ⟨a :: answers, .cons read readRest⟩

/-! ### Bags -/

theorem nodup_eraseDups [BEq α] [LawfulBEq α] (items : List α) : items.eraseDups.Nodup := by
  induction length : items.length using Nat.strong_induction_on generalizing items with
  | _ bound ih =>
    cases items with
    | nil => simp
    | cons item rest =>
      rw [eraseDups_cons, nodup_cons, mem_eraseDups]
      refine ⟨by simp, ih _ ?_ _ rfl⟩
      exact length ▸ Nat.lt_succ_of_le (length_filter_le _ rest)

namespace Handle

variable {space : Type} {first second r : Handle space}

theorem le_iff :
    first.le second = true ↔ first.index < second.index ∨
      (first.index = second.index ∧ first.generation ≤ second.generation) := by
  simp [le]

theorem le_trans (earlier : first.le second = true) (later : second.le r = true) :
    first.le r = true := by
  rw [le_iff] at earlier later ⊢
  rcases earlier with less | ⟨eq, atMost⟩
  · rcases later with lessLater | ⟨sameLater, -⟩
    · exact inl (less.trans lessLater)
    · exact inl (sameLater ▸ less)
  · rcases later with lessLater | ⟨sameLater, atMostLater⟩
    · exact inl (eq ▸ lessLater)
    · exact inr ⟨eq.trans sameLater, UInt32.le_trans atMost atMostLater⟩

theorem le_total (first second : Handle space) : (first.le second || second.le first) = true := by
  rw [Bool.or_eq_true, le_iff, le_iff]
  rcases Nat.lt_trichotomy first.index second.index with less | eq | more
  · exact inl (inl less)
  · rcases UInt32.le_total first.generation second.generation with atMost | atMost
    · exact inl (inr ⟨eq, atMost⟩)
    · exact inr (inr ⟨eq.symm, atMost⟩)
  · exact inr (inl more)

end Handle

namespace Program

variable {s : Program} {b src tgt : BlockId} {blocks : List BlockId}

@[simp]
theorem mem_distinct : b ∈ distinct blocks ↔ b ∈ blocks := by
  rw [distinct, mem_mergeSort, mem_eraseDups]

theorem nodup_distinct (blocks : List BlockId) : (distinct blocks).Nodup :=
  (mergeSort_perm _ _).nodup_iff.mpr (nodup_eraseDups blocks)

theorem pairwise_distinct (blocks : List BlockId) :
    (distinct blocks).Pairwise fun first second => first.le second = true := by
  unfold distinct
  refine pairwise_mergeSort ?_ Handle.le_total _
  exact fun _ _ _ => Handle.le_trans

/-! ### Readings -/

theorem isBlock_iff : s.isBlock b = true ↔ ∃ d, s.block? b = some d := by
  rw [isBlock_eq_ends?, isSome_iff_exists]
  simp [ends?]

/-- The terminator of a block that is not loose is its last instruction. -/
theorem Chains.terminator?_eq_ok {chain : BlockId → List InstId} {loose : Option BlockId}
    (chains : s.Chains chain loose) (tight : loose ≠ some b) (hb : s.isBlock b = true) :
    s.terminator? b = .ok (chain b).getLast? := by
  obtain ⟨d, h⟩ := isBlock_iff.mp hb
  obtain ⟨term, read⟩ : ∃ term, s.terminator? b = .ok term := by
    simp only [terminator?, bind_eq_ok, block_eq_ok]
    rw [exists_comm]
    refine ⟨d, ?_⟩
    simp only [h, true_and]
    rw [chains.last_eq h]
    cases last : (chain b).getLast? with
    | none => exact ⟨none, rfl⟩
    | some i =>
      obtain ⟨l, hLink, -⟩ := chains.link_of_mem (mem_of_getLast? last)
      obtain ⟨i, hInst, -⟩ := map_eq_some_iff.mp hLink
      simp only [bind_eq_ok, pure_eq_ok, isTerminator_eq_ok]
      exact ⟨_, _, ⟨i, hInst, rfl⟩, rfl⟩
  rw [read, chains.terminator?_eq tight read]

theorem Sound.terminator?_eq_ok (hs : s.Sound) (hb : s.isBlock b = true) :
    s.terminator? b = .ok (s.threads b).getLast? :=
  hs.chains.terminator?_eq_ok (by simp) hb

/-- The operands through which an instruction leads anywhere. -/
def targetEdgesOf (program : Program) (inst : InstId) : List EdgeId :=
  (program.shell? inst).elim [] fun kind =>
    (program.operandsOf inst).filter fun edge => (program.wire? edge).any (kind.isTargetSlot ·.slot)

theorem targetsOf_eq (s : Program) (i : InstId) :
    s.targetsOf i = ((s.targetEdgesOf i).filterMap s.readBy?).filter s.isBlock := by
  rw [targetsOf, targetEdgesOf]
  cases s.shell? i with
  | none => rfl
  | some kind =>
    rw [elim_some, elim_some, filterMap_filter, filter_filterMap]
    refine filterMap_congr fun e _ => ?_
    rw [leadsTo?, wire?, readBy?]
    cases s.edges.get? e with
    | none => simp
    | some d =>
      by_cases tgt : kind.isTargetSlot d.slot.outline = true <;>
        by_cases b : s.isBlock d.value = true <;>
          simp [Edge.outline, Option.filter, tgt, b]

theorem Wired.edge_of_target {e : EdgeId} (wired : s.Wired) (mem : e ∈ s.targetEdgesOf i) :
    ∃ d, s.edges.get? e = some d := by
  rw [targetEdgesOf] at mem
  cases hKind : s.shell? i with
  | none => simp [hKind] at mem
  | some kind =>
    rw [hKind, elim_some] at mem
    exact (wired.edge_of_operand (mem_of_mem_filter mem)).imp fun _ => And.left

section Wired

variable (wired : s.Wired) (hi : s.isInst i = true)
include wired hi

theorem Wired.targetEdges_eq_ok : s.targetEdges i = .ok (s.targetEdgesOf i) := by
  rw [isInst_eq, Option.isSome_iff_exists] at hi
  obtain ⟨l, hLink⟩ := hi
  obtain ⟨d, h, -⟩ := Option.map_eq_some_iff.mp hLink
  have readSlot : ∀ e ∈ s.operandsOf i, (do
      return d.kind.isTargetSlot (← s.edgeSlot e) : Except Fault Bool) =
        .ok ((s.wire? e).any (d.kind.shell.isTargetSlot ·.slot)) := by
    intro e mem
    obtain ⟨data, hEdge, -⟩ := wired.edge_of_operand mem
    rw [edgeSlot_eq_ok.mpr ⟨data, hEdge, rfl⟩, wire?, hEdge]
    simp [Edge.outline, InstKind.isTargetSlot_shell, InstKind.isTargetSlot_outline, pure,
      Except.pure, bind, Except.bind]
  obtain ⟨n, found⟩ := Arena.contains_iff_get?.mp (isLive_of_inst? h)
  refine bind_eq_ok.mpr ⟨_, kind_eq_ok.mpr ⟨d, h, rfl⟩, bind_eq_ok.mpr
    ⟨_, operands_eq_ok.mpr ⟨n, found, (operandsOf_eq found).symm⟩, filterM_eq_ok.mpr
      ⟨fun e mem => ⟨_, readSlot e mem⟩, ?_⟩⟩⟩
  rw [targetEdgesOf, shell?, h, Option.map_some, Option.elim_some]
  refine (List.filter_congr fun e mem => ?_).symm
  rw [readSlot e mem, Except.accepts]

/-- The targets of an instruction can be read, and they are those seen in the wiring. -/
theorem Wired.targets_eq_ok : s.targets i = .ok (s.targetsOf i) := by
  obtain ⟨values, read⟩ : ∃ values, (s.targetEdgesOf i).mapM s.edgeValue = .ok values := by
    refine exists_mapM_eq_ok fun e mem => ?_
    obtain ⟨d, h⟩ := wired.edge_of_target mem
    exact ⟨_, edgeValue_eq_ok.mpr ⟨d, h, rfl⟩⟩
  have readTargets : s.targets i = .ok (values.filter s.isBlock) := bind_eq_ok.mpr
    ⟨_, wired.targetEdges_eq_ok hi, bind_eq_ok.mpr ⟨values, read, rfl⟩⟩
  rw [readTargets, eq_targetsOf_of_targets readTargets]

end Wired

/-- The blocks that the last instruction of a block leads to, with repeats. -/
def outflow (program : Program) (block : BlockId) : List BlockId :=
  (program.threads block).getLast?.elim [] program.targetsOf

theorem Sound.isInst_of_mem_threads (hs : s.Sound) (mem : i ∈ s.threads b) : s.isInst i = true := by
  obtain ⟨l, h, -⟩ := hs.chains.link_of_mem mem
  exact isInst_of_link? h

theorem Sound.isBlock_of_mem_threads (hs : s.Sound) (mem : i ∈ s.threads b) :
    s.isBlock b = true := by
  obtain ⟨ends, h⟩ := hs.chains.isBlock_of_mem mem
  simp [isBlock_eq_ends?, h]

/-- A block has no terminator when it is empty; the targets of a terminator can be read. -/
theorem Sound.outflow_eq_ok (hs : s.Sound) (hb : s.isBlock b = true) :
    ∃ term, s.terminator? b = .ok term ∧ (term = none ↔ s.instructions b = .ok []) ∧
      term.elim (.ok []) s.targets = .ok (s.outflow b) := by
  refine ⟨_, hs.terminator?_eq_ok hb, ?_, ?_⟩
  · simp [hs.chains.instructions_eq_ok hb]
  · cases last : (s.threads b).getLast? with
    | none => simp [outflow, last]
    | some i => simp [outflow, last, hs.wired.targets_eq_ok
        (hs.isInst_of_mem_threads (mem_of_getLast? last))]

theorem Sound.successors_eq_ok (hs : s.Sound) (hb : s.isBlock b = true) :
    s.successors b = .ok (s.outflow b).eraseDups := by
  obtain ⟨term, read, -, readTargets⟩ := hs.outflow_eq_ok hb
  simp only [successors, bind_eq_ok]
  refine ⟨term, read, ?_⟩
  cases term with
  | none =>
    rw [← Except.ok.inj readTargets]
    rfl
  | some i =>
    simp only [bind_eq_ok, pure_eq_ok]
    exact ⟨_, readTargets, rfl⟩

/-- Only blocks lead anywhere, and only to blocks. -/
theorem Sound.isBlock_of_mem_outflow (hs : s.Sound) (mem : tgt ∈ s.outflow src) :
    s.isBlock src = true ∧ s.isBlock tgt = true := by
  rw [outflow] at mem
  cases last : (s.threads src).getLast? with
  | none => simp [last] at mem
  | some i =>
    obtain ⟨ends, hEnds⟩ := hs.chains.isBlock_of_mem (mem_of_getLast? last)
    obtain ⟨kind, hKind⟩ := hs.shell?_of_last last
    rw [last, elim_some, targetsOf, hKind, elim_some] at mem
    obtain ⟨e, -, leads⟩ := mem_filterMap.mp mem
    obtain ⟨d, hWire, -⟩ := bind_eq_some_iff.mp leads
    obtain ⟨-, hb, rfl⟩ := (leadsTo?_eq_some_iff hWire).mp leads
    exact ⟨by simp [isBlock_eq_ends?, hEnds], hb⟩

/-- Whether control goes on from a block to another. -/
def FlowsTo (program : Program) (source target : BlockId) : Prop :=
  ∃ successors, program.successors source = .ok successors ∧ target ∈ successors

theorem isBlock_of_successors {successors : List BlockId}
    (read : s.successors src = .ok successors) :
    s.isBlock src = true := by
  simp only [Program.successors, terminator?, bind_eq_ok, block_eq_ok] at read
  obtain ⟨_, ⟨d, h, -⟩, -⟩ := read
  exact isBlock_iff.mpr ⟨d, h⟩

theorem Sound.flowsTo_iff (hs : s.Sound) : s.FlowsTo src tgt ↔ tgt ∈ s.outflow src := by
  constructor
  · rintro ⟨successors, read, mem⟩
    rw [hs.successors_eq_ok (isBlock_of_successors read)] at read
    cases read
    simpa using mem
  · intro mem
    exact ⟨_, hs.successors_eq_ok (hs.isBlock_of_mem_outflow mem).1, by simpa using mem⟩

/-! ### Exact answers -/

namespace Flowing

section

variable (flow : s.Flowing)
include flow

theorem jumps_eq_count (src tgt : BlockId) : s.jumps src tgt = (s.outflow src).count tgt := by
  rw [flow.exact src tgt, outflow]
  cases (s.threads src).getLast? with
  | none => rfl
  | some i => rfl

/-- A block counts the edges that its terminator has. -/
theorem count_jumpsTo (h : s.block? src = some d) (tgt : BlockId) :
    d.jumpsTo.count tgt = (s.outflow src).count tgt := by
  rw [← jumps_eq h, flow.jumps_eq_count]

/-- A block counts the edges that the terminators of others have. -/
theorem count_comesFrom (h : s.block? tgt = some d) (src : BlockId) :
    d.comesFrom.count src = (s.outflow src).count tgt := by
  rw [← arrivals_eq h, flow.mirrored, flow.jumps_eq_count]

theorem mem_jumpsTo_iff (h : s.block? src = some d) :
    tgt ∈ d.jumpsTo.keys ↔ tgt ∈ s.outflow src := by
  rw [CountMap.mem_keys_iff, flow.count_jumpsTo h, count_pos_iff]

theorem mem_comesFrom_iff (h : s.block? tgt = some d) :
    src ∈ d.comesFrom.keys ↔ tgt ∈ s.outflow src := by
  rw [CountMap.mem_keys_iff, flow.count_comesFrom h, count_pos_iff]

end

end Flowing

end Program

/-- The counts of blocks say what the terminators do.  Between any two blocks, in a function
or not, both count as many edges as the terminator of the one has targets that are the
other; keys are blocks, and no count that is kept is zero.  So the successors of
a block are the keys of its counts, and its predecessors are the blocks that have it
for a successor, each once, in the order of their handles. -/
theorem flow_counts_match_terminators {name : String} {settings : Settings}
    {operations : List Operation} {program : Program}
    (run : (Program.initial name settings).runAll? operations = some program)
    (apart : operations.length < 2 ^ 32 ∨ (Program.initial name settings).Along
      (fun before operation _ => operation.SparesFinalized before) operations) :
    (∀ source target, program.isBlock source = true → program.isBlock target = true →
      ∃ terminator targets data, program.terminator? source = .ok terminator ∧
        (terminator = none ↔ program.instructions source = .ok []) ∧
        terminator.elim (.ok []) program.targets = .ok targets ∧
        program.edgeCount source target = .ok (targets.count target) ∧
        program.block target = .ok data ∧ data.comesFrom.count source = targets.count target) ∧
    (∀ block data, program.block block = .ok data →
      ∀ entry ∈ data.jumpsTo.entries ++ data.comesFrom.entries,
        program.isBlock entry.1 = true ∧ entry.2 ≠ 0) ∧
    (∀ block data, program.block block = .ok data →
      ∃ successors, program.successors block = .ok successors ∧
        ∀ target, target ∈ successors ↔ target ∈ data.jumpsTo.keys) ∧
    ∀ block, program.isBlock block = true →
      ∃ predecessors, program.predecessors block = .ok predecessors ∧ predecessors.Nodup ∧
        predecessors.Pairwise (fun first second => first.le second = true) ∧
        ∀ source, source ∈ predecessors ↔
          ∃ successors, program.successors source = .ok successors ∧ block ∈ successors := by
  have sound := sound_of_runAll? run
  have flowing := flowing_of_runAll? run apart
  refine ⟨fun source target isSource isTarget => ?_, fun block data read => ?_,
    fun block data read => ?_, fun block isBlock => ?_⟩
  · obtain ⟨terminator, readTerminator, empty, readTargets⟩ := sound.outflow_eq_ok isSource
    obtain ⟨sourceData, heldSource⟩ := isBlock_iff.mp isSource
    obtain ⟨data, held⟩ := isBlock_iff.mp isTarget
    refine ⟨terminator, _, data, readTerminator, empty, readTargets, ?_, block_eq_ok.mpr held, ?_⟩
    · simp only [edgeCount, bind_eq_ok, block_eq_ok, pure_eq_ok]
      exact ⟨sourceData, heldSource, flowing.count_jumpsTo heldSource target⟩
    · exact flowing.count_comesFrom held source
  · have held := block_eq_ok.mp read
    intro entry member
    rcases List.mem_append.mp member with jumps | arrives
    · have leads := (flowing.mem_jumpsTo_iff held).mp (List.mem_map_of_mem jumps)
      exact ⟨(sound.isBlock_of_mem_outflow leads).2, (data.jumpsTo.positive entry jumps).ne'⟩
    · have leads := (flowing.mem_comesFrom_iff held).mp (List.mem_map_of_mem arrives)
      exact ⟨(sound.isBlock_of_mem_outflow leads).1, (data.comesFrom.positive entry arrives).ne'⟩
  · have held := block_eq_ok.mp read
    refine ⟨_, sound.successors_eq_ok (isBlock_iff.mpr ⟨data, held⟩), fun target => ?_⟩
    rw [List.mem_eraseDups, flowing.mem_jumpsTo_iff held]
  · obtain ⟨data, held⟩ := isBlock_iff.mp isBlock
    refine ⟨distinct data.comesFrom.keys, ?_, nodup_distinct _, pairwise_distinct _,
      fun source => ?_⟩
    · simp only [predecessors, bind_eq_ok, block_eq_ok, pure_eq_ok]
      exact ⟨data, held, rfl⟩
    · rw [mem_distinct, flowing.mem_comesFrom_iff held]
      constructor
      · intro leads
        have isSource := (sound.isBlock_of_mem_outflow leads).1
        exact ⟨_, sound.successors_eq_ok isSource, List.mem_eraseDups.mpr leads⟩
      · rintro ⟨successors, read, member⟩
        have again := read
        simp only [Program.successors, Program.terminator?, bind_eq_ok, block_eq_ok] at again
        obtain ⟨_, ⟨sourceData, heldSource, -⟩, -⟩ := again
        rw [sound.successors_eq_ok (isBlock_iff.mpr ⟨sourceData, heldSource⟩)] at read
        obtain rfl := Except.ok.inj read
        exact List.mem_eraseDups.mp member

/-- A switch with two cases that lead where its default does: three edges between two blocks
outside all functions. -/
theorem switch_counts_match_terminator :
    ∃ program, (Program.initial "m" .standard).runAll?
        [.createBlock, .createBlock, .constSigned ⟨5⟩ 1, .buildSwitch ⟨2, 0⟩ ⟨1, 0⟩,
          .pushBack ⟨0, 0⟩ ⟨3, 0⟩, .addCase ⟨3, 0⟩ 7 ⟨1, 0⟩, .addCase ⟨3, 0⟩ 8 ⟨1, 0⟩] =
          some program ∧
      program.terminator? ⟨0, 0⟩ = .ok (some ⟨3, 0⟩) ∧
      program.edgeCount ⟨0, 0⟩ ⟨1, 0⟩ = .ok 3 ∧
      (∃ targets, program.targets ⟨3, 0⟩ = .ok targets ∧ targets.count ⟨1, 0⟩ = 3) ∧
      ∃ predecessors, program.predecessors ⟨1, 0⟩ = .ok predecessors ∧ predecessors.Nodup ∧
        ∀ source, source ∈ predecessors ↔
          ∃ successors, program.successors source = .ok successors ∧ ⟨1, 0⟩ ∈ successors := by
  refine exists_runAll? fun program run => ?_
  obtain ⟨isSource, isTarget, ending, counted⟩ : program.isBlock ⟨0, 0⟩ = true ∧
      program.isBlock ⟨1, 0⟩ = true ∧ program.terminator? ⟨0, 0⟩ = .ok (some ⟨3, 0⟩) ∧
      program.edgeCount ⟨0, 0⟩ ⟨1, 0⟩ = .ok 3 := by
    apply holds_of_runAll? run
  obtain ⟨between, -, -, before⟩ := flow_counts_match_terminators run (Or.inl (by decide))
  obtain ⟨terminator, targets, data, read, -, readTargets, edges, -⟩ :=
    between ⟨0, 0⟩ ⟨1, 0⟩ isSource isTarget
  obtain rfl := Except.ok.inj (ending.symm.trans read)
  obtain ⟨predecessors, readPredecessors, nodup, -, exactly⟩ := before ⟨1, 0⟩ isTarget
  exact ⟨ending, counted, ⟨targets, readTargets, Except.ok.inj (edges.symm.trans counted)⟩,
    predecessors, readPredecessors, nodup, exactly⟩

/-- Once the slot of a switch has come round, an edge that it left behind is counted for another
switch with its handle when the edge moves. -/
theorem stray_edge_is_counted :
    ∃ operations program, (Program.initial "m" .standard).runAll? operations = some program ∧
      program.isBlock ⟨1, 0⟩ = true ∧ program.terminator? ⟨2, 0⟩ = .ok (some ⟨6, 0⟩) ∧
      program.targets ⟨6, 0⟩ = .ok [⟨1, 0⟩] ∧ program.edgeCount ⟨2, 0⟩ ⟨1, 0⟩ = .ok 2 := by
  apply exists_runAll?_of_churn strayCase (namesake ++ [.replaceUses ⟨3, 0⟩ ⟨1, 0⟩]) 6

/-- A block is split whose switch has the handle of one that left an edge behind.  The edge is
still counted for the first part, which has only the new jump. -/
theorem stray_edge_stays_with_first_part :
    ∃ operations program tail after,
      (Program.initial "m" .standard).runAll? operations = some program ∧
      program.instructions ⟨2, 0⟩ = .ok [⟨6, 0⟩] ∧ splitBlock ⟨6, 0⟩ program = .done tail after ∧
      (after.edgeCount ⟨2, 0⟩ tail, after.edgeCount ⟨2, 0⟩ ⟨1, 0⟩) = (.ok 1, .ok 1) := by
  obtain ⟨operations, program, run, read, reads⟩ : ∃ operations program,
      (Program.initial "m" .standard).runAll? operations = some program ∧
      program.instructions ⟨2, 0⟩ = .ok [⟨6, 0⟩] ∧
      (splitBlock ⟨6, 0⟩ program).reading? (fun after =>
        (after.edgeCount ⟨2, 0⟩ ⟨7, 0⟩, after.edgeCount ⟨2, 0⟩ ⟨1, 0⟩)) =
        some (⟨7, 0⟩, (.ok 1, .ok 1)) := by
    apply exists_runAll?_of_churn strayCase (namesake ++ [.replaceUses ⟨3, 0⟩ ⟨1, 0⟩]) 6
  obtain ⟨after, done, counts⟩ := Outcome.exists_done _ reads
  exact ⟨operations, program, _, after, run, read, done, counts⟩

/-- An edge that is no operand of a switch moves, and is counted for the block of the switch, which
has the handle of one that left the edge behind. -/
theorem moved_edge_is_counted_for_another :
    ∃ operations program after,
      (Program.initial "m" .standard).runAll? operations = some program ∧
      program.usedBy ⟨3, 0⟩ = .ok [⟨1, 1⟩] ∧ program.terminator? ⟨2, 0⟩ = .ok (some ⟨6, 0⟩) ∧
      program.operands ⟨6, 0⟩ = .ok [⟨0, 1⟩, ⟨2, 0⟩] ∧ program.edgeCount ⟨2, 0⟩ ⟨1, 0⟩ = .ok 1 ∧
      replaceUses ⟨3, 0⟩ ⟨1, 0⟩ program = .done 1 after ∧
      after.edgeCount ⟨2, 0⟩ ⟨1, 0⟩ = .ok 2 := by
  obtain ⟨operations, program, run, uses, ends, operands, count, reads⟩ : ∃ operations program,
      (Program.initial "m" .standard).runAll? operations = some program ∧
      program.usedBy ⟨3, 0⟩ = .ok [⟨1, 1⟩] ∧ program.terminator? ⟨2, 0⟩ = .ok (some ⟨6, 0⟩) ∧
      program.operands ⟨6, 0⟩ = .ok [⟨0, 1⟩, ⟨2, 0⟩] ∧ program.edgeCount ⟨2, 0⟩ ⟨1, 0⟩ = .ok 1 ∧
      (replaceUses ⟨3, 0⟩ ⟨1, 0⟩ program).reading? (·.edgeCount ⟨2, 0⟩ ⟨1, 0⟩) =
        some (1, .ok 2) := by
    apply exists_runAll?_of_churn strayCase namesake 6
  obtain ⟨after, done, countAfter⟩ := Outcome.exists_done _ reads
  exact ⟨operations, program, after, run, uses, ends, operands, count, done, countAfter⟩

end ValueGraph
