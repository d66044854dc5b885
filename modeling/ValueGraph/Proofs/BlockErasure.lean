import Mathlib
import ValueGraph.Proofs.Entries

namespace ValueGraph

open Program List Option

/-!
# What goes with a block

A block is erased in three stages.  First the entries for it are dropped from the phis that
may have one; then its instructions are taken apart, with what they carry; at last it
leaves its function and is given up.  All else stays as it was.
-/

variable {holders : List BlockId} {p q s pruned emptied : Program} {b : BlockId} {i : InstId}
  {v : ValueId} {a : Unit} {seat : Option FuncId} {phis : List InstId}

namespace Program

/-- A block leads to another one or shares its function. -/
def Borders (program : Program) (block holder : BlockId) : Prop :=
  (∃ targets, program.successors block = .ok targets ∧ holder ∈ targets) ∨
    ∃ data function blocks, program.block block = .ok data ∧ data.parent = some function ∧
      program.blocks function = .ok blocks ∧ holder ∈ blocks

/-- A phi stands in a block that another one leads to or shares its function with. -/
def Receives (program : Program) (block : BlockId) (phi : InstId) : Prop :=
  ∃ holder phis, program.Borders block holder ∧ program.phis holder = .ok phis ∧ phi ∈ phis

/-- A block is gone with its instructions and with the entries for it; all else stays. -/
structure ErasesBlock
    (before after : Program)
    (block : BlockId)
    (insts : List InstId) : Prop where
  givesUp : before.GivesUp after block
  left : ∀ data, after.block block = .ok data →
    data.parent = none ∧ after.instructions block = .ok []
  layouts : ∀ function blocks, before.blocks function = .ok blocks →
    after.blocks function = .ok (blocks.filter (· != block))
  goes : ∀ inst, before.GoesWith insts inst → before.GivesUp after inst ∧
    (after.isLive inst = true → after.status inst = .ok .finalized ∧ after.operands inst = .ok [])
  entries : ∀ phi old, before.Receives block phi → ¬ before.GoesWith insts phi →
    before.incoming phi = .ok old → after.incoming phi = .ok (old.filter (·.1 != block))
  instructions : ∀ other found, other ≠ block → before.instructions other = .ok found →
    after.instructions other = .ok found
  flow : ∀ other old, other ≠ block → before.block other = .ok old →
    ∃ new, after.block other = .ok new ∧ old.Loses new [block]
  edges : ∀ edge data, after.edge edge = .ok data ↔
    before.edge edge = .ok data ∧ ¬ before.GoesWith insts data.user ∧
      ¬ (before.Receives block data.user ∧ data.slot = .keyed block)
  operands : ∀ user old, ¬ before.GoesWith insts user → after.isLive user = true →
    before.operands user = .ok old → after.operands user = .ok (old.filter after.edges.contains)
  uses : ∀ value old, after.isLive value = true → before.usedBy value = .ok old →
    ∃ left, after.usedBy value = .ok left ∧ left.Perm (old.filter after.edges.contains)
  counts : ∀ value, value ≠ block → ¬ before.GoesWith insts value →
    before.isConstant value = false → after.values.count? value = before.values.count? value

theorem mem_entryHolders_iff {holder : BlockId} (read : s.entryHolders b = .ok holders)
    (ne : holder ≠ b) : holder ∈ holders ↔ s.Borders b holder := by
  simp only [entryHolders, bind_eq_ok] at read
  obtain ⟨targets, readTargets, d, readBlock, read⟩ := read
  have leads : (∃ targets, s.successors b = .ok targets ∧ holder ∈ targets) ↔
      holder ∈ targets := by simp [readTargets]
  rw [Borders, leads]
  cases parent : d.parent with
  | none =>
    simp only [parent, pure_eq_ok] at read
    simp [← read, mem_distinct, readBlock, parent]
  | some f =>
    simp only [parent, bind_eq_ok, pure_eq_ok] at read
    obtain ⟨blocks, readBlocks, rfl⟩ := read
    simp [mem_distinct, readBlock, parent, readBlocks, ne]

theorem Sound.mem_phis_iff (hs : s.Sound) (read : s.entryHolders b = .ok holders)
    (out : i ∉ s.threads b) : i ∈ holders.flatMap s.phisOf ↔ s.Receives b i := by
  rw [mem_flatMap]
  constructor
  · rintro ⟨holder, mem, isPhi⟩
    have inThread := mem_of_mem_filter isPhi
    have ne : holder ≠ b := by
      rintro rfl
      exact out inThread
    exact ⟨holder, _, (mem_entryHolders_iff read ne).mp mem,
      hs.phis_eq_ok (hs.isBlock_of_mem_threads inThread), isPhi⟩
  · rintro ⟨holder, phis, borders, readPhis, isPhi⟩
    obtain rfl := hs.phis_eq readPhis
    refine ⟨holder, (mem_entryHolders_iff read ?_).mpr borders, isPhi⟩
    rintro rfl
    exact out (mem_of_mem_filter isPhi)

end Program

namespace Step

theorem releaseEmpty_alters (hs : p.Sound) (free : p.seat? b = some none)
    (empty : p.threads b = []) (run : (releaseBlock b).run p = .ok (a, q)) :
    p.Alters q [b] [b] ∧ (∀ left, q.seat? b = some left → left = none) ∧
      q.function? = p.function? := by
  obtain ⟨-, keeps, -⟩ : Shrunk default p q ∧ _ := releaseBlock_shrunk hs free run
  obtain ⟨ends, h, first⟩ := hs.exists_ends_of_empty (by simp [isBlock_eq_seat?, free]) empty
  obtain ⟨alters, seats⟩ := releaseBlock_alters hs.stored h first run
  refine ⟨alters, fun left seated => ?_, keeps.bodies⟩
  exact (some.inj (free.symm.trans (seats left seated))).symm

theorem giveUpBlock_alters (hs : p.Sound) (seated : p.seat? b = some seat)
    (empty : p.threads b = [])
    (run : (do
      seat.elim (pure ()) (detachBlock · b)
      releaseBlock b : Step Unit).run p = .ok (a, q)) :
    p.Alters q (seat.toList ++ [b]) [b] ∧ (∀ left, q.seat? b = some left → left = none) ∧
      (∀ f ∈ seat.toList, p.isFunction f = true) ∧
      ∀ f d, p.function? f = some d → ∃ new,
        q.function? f = some new ∧ new.blocks = d.blocks.filter (· != b) := by
  have elsewhere : ∀ f d, seat ≠ some f → p.function? f = some d →
      d.blocks = d.blocks.filter (· != b) := by
    intro f d apart h
    refine (filter_eq_self.mpr fun listed mem => ?_).symm
    have ne : listed ≠ b := by
      rintro rfl
      exact hs.not_mem_blocks seated apart h mem
    simpa using ne
  obtain ⟨_, det, runDet, runRelease⟩ := run_bind.mp run
  cases seat with
  | none =>
    obtain ⟨-, rfl⟩ := run_pure.mp runDet
    obtain ⟨alters, left, fns⟩ := releaseEmpty_alters hs seated empty runRelease
    refine ⟨alters, left, by simp, fun f d h => ⟨d, by rw [fns, h], ?_⟩⟩
    exact elsewhere f d (by simp) h
  | some home =>
    obtain ⟨shrunk, threads, seats, -⟩ : Shrunk default p det ∧ _ :=
      detachBlock_shrunk hs seated runDet
    obtain ⟨_, unlisted, runFn, runSeat⟩ := run_bind.mp runDet
    have listed := modifyFunction_alters hs.stored runFn
    have unseated := setSeat_alters listed.stored runSeat
    obtain ⟨alters, left, fns⟩ := releaseEmpty_alters (Shrunk.sound shrunk hs)
      (by rw [seats, Function.update_self]) (by rw [threads, empty]) runRelease
    obtain ⟨old, refit⟩ := modifyFunction_refitted runFn
    refine ⟨((listed.trans unseated).trans alters).mono (by simp), left, fun f mem => ?_,
      fun f d h => ?_⟩
    · obtain rfl : f = home := by simpa using mem
      simp [isFunction_eq, refit.held]
    rw [fns, (setSeat_reseated runSeat).bodies, refit.bodies, Function.update_apply]
    split
    next eq =>
      subst eq
      obtain rfl := mem_unique refit.held h
      exact ⟨_, rfl, blocks_without old b⟩
    next ne =>
      exact ⟨d, h, elsewhere f d (by simpa using Ne.symm ne) h⟩

end Step

namespace Program

/-- The stages in which a block goes. -/
structure BlockStages
    (before pruned emptied after : Program)
    (block : BlockId)
    (phis : List InstId)
    (seat : Option FuncId) : Prop where
  isPhi : ∀ phi ∈ phis, before.isPhi phi = true
  sweeps : before.Sweeps pruned block phis
  demolished : pruned.Demolished emptied after [block] (seat.toList ++ [block]) [block]
  vacant : ∀ left, after.seat? block = some left → left = none
  layouts : ∀ function data, before.function? function = some data → ∃ new,
    after.function? function = some new ∧ new.blocks = data.blocks.filter (· != block)

end Program

theorem Step.eraseBlockNode_stages (hs : p.Sound) (wellTyped : p.WellTyped)
    (run : (eraseBlockNode b).run p = .ok (a, q)) :
    ∃ holders pruned emptied seat, p.entryHolders b = .ok holders ∧ p.seat? b = some seat ∧
      p.BlockStages pruned emptied q b (holders.flatMap p.phisOf) seat := by
  obtain ⟨holders, pruned, insts, d, emptied, readHolders, runEntries, readInsts, hBlock,
    runInsts, runLast⟩ := eraseBlockNode_run run
  have sweeps : p.Sweeps pruned b (holders.flatMap p.phisOf) := by
    refine dropEntriesFrom_sweeps hs (fun phi mem => ?_) runEntries
    obtain ⟨holder, -, isPhi⟩ := mem_flatMap.mp mem
    obtain ⟨inThread, isPhi⟩ := mem_filter.mp isPhi
    exact (wellTyped _ (hs.ongoing_of_mem inThread)).entersOnce hs.wired isPhi
  have hsPruned := sweeps.prunes.sound hs
  have seatPruned : pruned.seat? b = some d.parent := by
    rw [Program.seat?, hBlock, map_some]
  rw [← Program.threads_eq readInsts, ← flatMap_singleton pruned.threads b] at runInsts
  have tears := dropInstructions_tears hsPruned (nodup_singleton b) runInsts
  have hsEmptied := tears.soundAfter hsPruned
  have dw := tears.dwindles hsPruned
  have seatEmptied : emptied.seat? b = some d.parent := by rw [dw.seats, seatPruned]
  obtain ⟨alters, vacant, fns, layouts⟩ := giveUpBlock_alters hsEmptied seatEmptied
    (by rw [tears.threads]; simp) runLast
  obtain ⟨shrunk, -⟩ : Program.Shrunk default emptied q ∧ _ :=
    giveUpBlock_shrunk hsEmptied seatEmptied runLast
  refine ⟨holders, pruned, emptied, d.parent, readHolders, ?_, fun phi mem => ?_, sweeps, ?_,
    vacant, ?_⟩
  · rw [← sweeps.prunes.rewires.skeleton.seat?, seatPruned]
  · obtain ⟨holder, -, isPhi⟩ := mem_flatMap.mp mem
    exact (mem_filter.mp isPhi).2
  · have touched : ∀ v ∈ d.parent.toList ++ [b], pruned.isFunction v = true ∨ v = b := by
      intro v mem
      refine (mem_append.mp mem).imp (fun isParent => ?_) mem_singleton.mp
      rw [Program.isFunction_eq, ← dw.bodies, ← Program.isFunction_eq]
      exact fns v isParent
    have hb : pruned.isBlock b = true := Program.isBlock_iff.mpr ⟨d, hBlock⟩
    simp only [Program.isFunction, Program.isBlock, beq_iff_eq] at touched hb
    exact
      { tears := tears
        alters := alters
        shrunk := ⟨default, tears.razed.shrunk.trans shrunk⟩
        among := by simp
        fewer := by simp
        insts := fun v mem => by
          obtain isFn | rfl := touched v mem
          · simp [Program.isInst, isFn]
          · simp [Program.isInst, hb]
        constants := fun v mem => by
          obtain isFn | rfl := touched v mem
          · simp [Program.isConstant, isFn]
          · simp [Program.isConstant, hb]
        others := fun v mem isBlockPruned => by
          obtain isFn | rfl := touched v mem
          · simp [Program.isBlock, isFn] at isBlockPruned
          · simp }
  · intro f data h
    refine layouts f data ?_
    rw [dw.bodies, sweeps.prunes.rewires.skeleton.function?, h]

namespace Program.BlockStages

variable {e : EdgeId} {d : Edge}

section

variable (stages : p.BlockStages pruned emptied q b phis seat) (hs : p.Sound)

include stages hs

theorem soundPruned : pruned.Sound :=
  stages.sweeps.prunes.sound hs

theorem soundAfter : q.Sound :=
  stages.demolished.soundAfter (stages.soundPruned hs)

theorem flowingPruned (flow : p.Flowing) : pruned.Flowing :=
  stages.sweeps.flowing hs flow

/-- What is taken apart is what stands in the block and what is nested under it. -/
theorem torn_iff (writes : p.Writes) (regs : p.WritesRegisters) :
    pruned.Torn [b] i ↔ p.GoesWith (p.threads b) i := by
  have carries : pruned.Carries = p.Carries := by
    funext outer inner
    exact propext (stages.sweeps.carries_iff hs writes stages.isPhi)
  have torn : pruned.Torn [b] i ↔ p.Torn [b] i := by
    rw [Torn, Torn, carries, stages.sweeps.prunes.rewires.threads_eq hs]
  rw [torn, Program.torn_iff hs writes regs, flatMap_singleton]

/-! ### Owners -/

theorem countOf_eq (neat : p.Neat) (out : ¬ pruned.Torn [b] v) (ne : v ≠ b)
    (noConstant : p.isConstant v = false) : q.countOf v = p.countOf v := by
  rw [stages.demolished.countOf_eq (stages.soundPruned hs) (stages.sweeps.prunes.settles.neat neat)
    out (by simpa using ne) (stages.sweeps.isConstant_eq_false noConstant),
    stages.sweeps.countOf_eq neat noConstant]

/-- An instruction that goes loses the owner that it had in its block or in its write. -/
theorem countOf_of_torn (neat : p.Neat) (torn : pruned.Torn [b] i) :
    q.countOf i + 1 = p.countOf i := by
  have hsPruned := stages.soundPruned hs
  rw [stages.demolished.countOf_of_torn hsPruned (stages.sweeps.prunes.settles.neat neat) torn]
  refine stages.sweeps.countOf_eq neat (isConstant_eq_false_of_isInst ?_)
  have hi := (hsPruned.ongoing_of_torn torn).isInst
  rwa [isInst_eq, ← stages.sweeps.prunes.rewires.skeleton.link?, ← isInst_eq]

theorem countOf_block (neat : p.Neat) (seated : p.seat? b = some seat) :
    q.countOf b + 1 = p.countOf b := by
  have hb : p.isBlock b = true := by simp [isBlock_eq_seat?, seated]
  have noConstant : p.isConstant b = false := by
    rw [Program.isBlock, beq_iff_eq] at hb
    simp [isConstant, hb]
  have out : ¬ pruned.Torn [b] b := fun torn => by
    have hi := ((stages.soundPruned hs).ongoing_of_torn torn).isInst
    rw [isInst_eq, stages.sweeps.prunes.rewires.skeleton.link?, ← isInst_eq] at hi
    simp [isBlock_eq_false_of_isInst hi] at hb
  have owned := hs.stored.isLive_iff.mp (isLive_of_category hb)
  rw [stages.demolished.alters.counts, stages.demolished.tears.countOf_eq (stages.soundPruned hs)
    (stages.sweeps.prunes.settles.neat neat) out (stages.sweeps.isConstant_eq_false noConstant),
    stages.sweeps.countOf_eq neat noConstant, count_singleton_self]
  omega

/-! ### Edges -/

theorem edge_iff (flow : p.Flowing) :
    q.edges.get? e = some d ↔ p.edges.get? e = some d ∧ ¬ pruned.Torn [b] d.user ∧
        ¬ (d.user ∈ phis ∧ d.slot = .keyed b) := by
  rw [stages.demolished.edge_iff (stages.soundPruned hs) (stages.flowingPruned hs flow),
    stages.sweeps.edges, and_assoc]
  refine and_congr_right fun h => ?_
  rw [and_comm]
  refine and_congr_right fun _ => not_congr ⟨fun ⟨_, goes⟩ => goes, fun goes => ⟨?_, goes⟩⟩
  obtain ⟨data, hUser, -⟩ := map_eq_some_iff.mp (beq_iff_eq.mp (stages.isPhi d.user goes.1))
  exact flow.listed e d.outline (wire?_of_get? h) (isLive_of_inst? hUser)

/-- A node that stays keeps the operands that do. -/
theorem operandsOf_eq (flow : p.Flowing) (out : ¬ pruned.Torn [b] v) (live : q.isLive v = true) :
    q.operandsOf v = (p.operandsOf v).filter q.edges.contains := by
  rw [stages.demolished.operandsOf_eq out live, stages.sweeps.operands]
  have stays : ∀ e ∈ p.operandsOf v, q.edges.contains e =
      !(decide (v ∈ phis) && p.isEntry b e) := by
    intro e listed
    obtain ⟨d, h, rfl⟩ := hs.wired.edge_of_operand listed
    rw [isEntry_of_edge h, Bool.eq_iff_iff, Arena.contains_iff_get?]
    simp [stages.edge_iff hs flow, h, out, imp_iff_not_or]
  split
  next inside => exact filter_congr fun e listed => by simp [stays e listed, inside]
  next apart =>
    exact (filter_eq_self.mpr fun e listed => by simp [stays e listed, apart]).symm

theorem entriesOf_eq (flow : p.Flowing) (out : ¬ pruned.Torn [b] i) (live : q.isLive i = true) :
    q.entriesOf i = if i ∈ phis then (p.entriesOf i).filter (·.1 != b) else p.entriesOf i := by
  rw [← stages.sweeps.entriesOf_eq hs, entriesOf, entriesOf,
    stages.demolished.operandsOf_eq out live]
  refine filterMap_congr fun e listed => ?_
  obtain ⟨d, h, rfl⟩ := (stages.soundPruned hs).wired.edge_of_operand listed
  rw [h, (stages.demolished.edge_iff (stages.soundPruned hs)
    (stages.flowingPruned hs flow)).mpr ⟨h, out⟩]

end

theorem erasesBlock (stages : p.BlockStages pruned emptied q b (holders.flatMap p.phisOf) seat)
    (hs : p.Sound) (readHolders : p.entryHolders b = .ok holders) (seated : p.seat? b = some seat)
    (neat : p.Neat) (flowing : p.Flowing) (writes : p.Writes) (regs : p.WritesRegisters) :
    p.ErasesBlock q b (p.threads b) := by
  have hsPruned := stages.soundPruned hs
  have flowingPruned := stages.flowingPruned hs flowing
  have hsq := stages.soundAfter hs
  have goesWith : ∀ v, pruned.Torn [b] v ↔ p.GoesWith (p.threads b) v :=
    fun v => stages.torn_iff hs writes regs
  have receives : ∀ phi, ¬ p.GoesWith (p.threads b) phi →
      (phi ∈ holders.flatMap p.phisOf ↔ p.Receives b phi) :=
    fun phi out => hs.mem_phis_iff readHolders fun inThread =>
      out ⟨phi, inThread, .refl⟩
  have blockOf : ∀ block old, block ≠ b → p.block block = .ok old →
      ∃ new, q.block? block = some new ∧ old.Loses new [b] := by
    intro block old ne h
    refine stages.demolished.block_loses hsPruned flowingPruned (by simpa using ne) ?_
    rw [stages.sweeps.payloads.block?, block_eq_ok.mp h]
  have edges : ∀ e d, q.edge e = .ok d ↔ p.edge e = .ok d ∧ ¬ p.GoesWith (p.threads b) d.user ∧
        ¬ (p.Receives b d.user ∧ d.slot = .keyed b) := by
    intro e d
    rw [edge_eq_ok, edge_eq_ok, stages.edge_iff hs flowing, goesWith]
    refine and_congr_right fun _ => and_congr_right fun out => ?_
    rw [receives d.user out]
  exact
    { givesUp := givesUp_of_countOf hs.stored hsq.stored
        (stages.countOf_block hs neat seated)
      left := by
        intro d h
        have hBlock := block_eq_ok.mp h
        refine ⟨stages.vacant d.parent (by rw [seat?, hBlock, map_some]), ?_⟩
        exact stages.demolished.instructions_eq_nil hsPruned (by simp)
          (isBlock_iff.mpr ⟨d, hBlock⟩)
      layouts := by
        intro f blocks read
        obtain ⟨d, h, rfl⟩ := blocks_eq_ok_iff.mp read
        obtain ⟨new, hNew, laid⟩ := stages.layouts f d h
        exact blocks_eq_ok_iff.mpr ⟨new, hNew, laid⟩
      goes := by
        intro i goes
        have torn := (goesWith i).mpr goes
        exact ⟨givesUp_of_countOf hs.stored hsq.stored
          (stages.countOf_of_torn hs neat torn),
          stages.demolished.remains_of_torn hsPruned torn⟩
      entries := by
        intro phi old isReceiver out read
        have isSwept := (receives phi out).mpr isReceiver
        obtain ⟨data, h, -⟩ :=
          map_eq_some_iff.mp (beq_iff_eq.mp (stages.isPhi phi isSwept))
        have hi := isInst_of_inst? h
        have apart : ¬ pruned.Torn [b] phi := mt (goesWith phi).mp out
        have live : q.isLive phi = true := by
          rw [isLive_eq_of_countOf hs.stored hsq.stored (stages.countOf_eq hs neat apart
            ?_ (isConstant_eq_false_of_isInst hi)), isLive_of_inst? h]
          rintro rfl
          have hb : p.isBlock phi = true := by simp [isBlock_eq_seat?, seated]
          simp [isBlock_eq_false_of_isInst hi] at hb
        rw [incoming_eq_ok hs.wired (isLive_of_inst? h)] at read
        cases read
        rw [incoming_eq_ok hsq.wired live, stages.entriesOf_eq hs flowing apart live,
          if_pos isSwept]
      instructions := by
        intro block members ne read
        refine stages.demolished.instructions_eq hsPruned flowingPruned (by simpa using ne) ?_
        have hb := isBlock_of_instructions read
        rw [← read, hs.chains.instructions_eq_ok hb, hsPruned.chains.instructions_eq_ok,
          stages.sweeps.prunes.rewires.threads_eq hs]
        rwa [isBlock_iff, stages.sweeps.payloads.block?, ← isBlock_iff]
      flow := by
        intro block old ne h
        obtain ⟨new, hNew, loses⟩ := blockOf block old ne h
        exact ⟨new, block_eq_ok.mpr hNew, loses⟩
      edges := edges
      operands := by
        intro u old out live read
        obtain ⟨-, rfl⟩ := operands_eq_ok_iff_of_live.mp read
        exact operands_eq_ok_iff_of_live.mpr
          ⟨live, stages.operandsOf_eq hs flowing (mt (goesWith u).mp out) live⟩
      uses := by
        intro v old live read
        exact usedBy_perm hs.wired hsq.wired
          (fun e d h => ((stages.edge_iff hs flowing).mp h).1) live read
      counts := by
        intro v ne out noConstant
        exact count?_eq_of_countOf hs.stored hsq.stored
          (stages.countOf_eq hs neat (mt (goesWith v).mp out) ne noConstant) }

end Program.BlockStages

/-- A block that is erased loses one owner and with the last one goes, as does everything that
stands in it or is nested there.  Its function lists the other blocks in their order, phis
keep their entries for other blocks, and all other blocks keep their instructions and the
control flow between them.  Every other use stays where it is. -/
theorem erased_block_goes_alone {name : String} {settings : Settings}
    {operations : List Operation} {program after : Program} {block : BlockId}
    (run : (Program.initial name settings).runAll? operations = some program)
    (short : operations.length < 2 ^ 32) (registers : program.WritesRegisters)
    (erased : eraseBlock block program = .done () after) :
    ∃ insts, program.instructions block = .ok insts ∧ program.ErasesBlock after block insts := by
  have sound := sound_of_runAll? run
  have writes := writes_of_runAll? run (.inl short)
  obtain ⟨isBlock, -, runErase⟩ := eraseBlock_eq_done.mp erased
  obtain ⟨holders, pruned, emptied, seat, readHolders, seated, stages⟩ :=
    Step.eraseBlockNode_stages sound (wellTyped_of_runAll? run) runErase
  refine ⟨_, sound.chains.instructions_eq_ok isBlock, stages.erasesBlock sound readHolders seated
    (writes.neat sound (registers.obeys sound)) (charted_of_runAll? run short).flowing
    writes registers⟩

/-! ### Runs that end in an erasure -/

theorem Program.writesRegisters_of_checkNodes
    (checked : s.checkNodes (fun s write =>
      s.kind? write != some .regWrite ||
        ((s.operand? write 0).toOption.getD none).all s.isRegister) = true) :
    s.WritesRegisters := by
  intro write tgt isWrite read
  obtain ⟨d, h, isKind⟩ := kind_eq_ok.mp isWrite
  have only := check_of_checkNodes checked (isLive_of_inst? h)
  simpa [kind?, h, isKind, read, Except.toOption] using only

/-- A block leads twice to another one, which has a phi with an entry for each of the two; a
sum that the client holds on to is nested under a write in the first block. -/
def switchWithWrite : List Operation :=
  [.requestType (.function ⟨.void, [], false⟩), .addFunction "f" ⟨13⟩, .enableRegisters ⟨0, 0⟩,
    .allocateRegister ⟨0, 0⟩ ⟨5⟩, .constSigned ⟨5⟩ 1, .buildBinary .add ⟨2, 0⟩ ⟨2, 0⟩,
    .retain ⟨3, 0⟩, .buildRegWrite ⟨1, 0⟩ ⟨3, 0⟩, .addBlock ⟨0, 0⟩, .addBlock ⟨0, 0⟩,
    .buildPhi ⟨5⟩, .addIncoming ⟨7, 0⟩ ⟨6, 0⟩ ⟨2, 0⟩, .addIncoming ⟨7, 0⟩ ⟨5, 0⟩ ⟨2, 0⟩,
    .buildRet none, .pushBack ⟨5, 0⟩ ⟨8, 0⟩, .pushFront ⟨5, 0⟩ ⟨7, 0⟩,
    .buildSwitch ⟨2, 0⟩ ⟨5, 0⟩, .pushBack ⟨6, 0⟩ ⟨9, 0⟩, .addCase ⟨9, 0⟩ 7 ⟨5, 0⟩,
    .pushFront ⟨6, 0⟩ ⟨4, 0⟩]

/-- The block of the switch is erased; the sum stays with the client, and the phi with its
other entry. -/
theorem erased_switch_goes_alone :
    ∃ program, (Program.initial "m" .standard).runAll? switchWithWrite = some program ∧
      program.WritesRegisters ∧
      ∃ after, eraseBlock ⟨6, 0⟩ program = .done () after ∧
        after.incoming ⟨7, 0⟩ = .ok [(⟨5, 0⟩, ⟨2, 0⟩)] ∧
        program.ErasesBlock after ⟨6, 0⟩ [⟨4, 0⟩, ⟨9, 0⟩] := by
  refine exists_runAll? fun program run => ?_
  have registers : program.WritesRegisters :=
    writesRegisters_of_checkNodes (read_of_runAll? (·.checkNodes _) run (by decide +kernel))
  obtain ⟨after, erased, reads⟩ := done_of_runAll? (eraseBlock ⟨6, 0⟩) () (·.incoming ⟨7, 0⟩)
    (.ok [(⟨5, 0⟩, ⟨2, 0⟩)]) run
  obtain ⟨insts, readInsts, erases⟩ := erased_block_goes_alone run (by decide) registers erased
  obtain rfl : [⟨4, 0⟩, ⟨9, 0⟩] = insts := Except.ok.inj
    ((read_of_runAll? (·.instructions ⟨6, 0⟩) run (by decide +kernel)).symm.trans readInsts)
  exact ⟨registers, after, erased, reads, erases⟩

/-- A sum was nested under a write in a block before the write got another value.  When the
block goes, the sum stays behind, although nobody else owns it. -/
theorem sum_left_behind_by_erased_block :
    ∃ program, (Program.initial "m" .standard).runAll?
        [.requestType (.function ⟨.void, [], false⟩), .addFunction "f" ⟨13⟩,
          .enableRegisters ⟨0, 0⟩, .allocateRegister ⟨0, 0⟩ ⟨5⟩, .constSigned ⟨5⟩ 1,
          .buildBinary .add ⟨2, 0⟩ ⟨2, 0⟩, .buildRegWrite ⟨1, 0⟩ ⟨3, 0⟩,
          .setUse ⟨3, 0⟩ (some ⟨2, 0⟩), .addBlock ⟨0, 0⟩, .buildRet none,
          .pushBack ⟨5, 0⟩ ⟨6, 0⟩, .pushFront ⟨5, 0⟩ ⟨4, 0⟩] = some program ∧
      program.WritesRegisters ∧
      program.instructions ⟨5, 0⟩ = .ok [⟨4, 0⟩, ⟨6, 0⟩] ∧
      program.nestingParent? ⟨3, 0⟩ = .ok (some ⟨4, 0⟩) ∧
      program.values.count? ⟨3, 0⟩ = some 1 ∧
      ∃ after, eraseBlock ⟨5, 0⟩ program = .done () after ∧
        (after.isLive ⟨3, 0⟩, after.status ⟨3, 0⟩) = (true, .ok .reparent) := by
  refine exists_runAll? fun program run => ⟨?_, ?_, ?_, ?_, ?_⟩
  · exact writesRegisters_of_checkNodes (read_of_runAll? (·.checkNodes _) run (by decide +kernel))
  · apply holds_of_runAll? run
  · apply holds_of_runAll? run
  · apply holds_of_runAll? run
  · exact done_of_runAll? (eraseBlock ⟨5, 0⟩) ()
      (fun after => (after.isLive ⟨3, 0⟩, after.status ⟨3, 0⟩)) (true, .ok .reparent) run

/-- A sum is nested under a write, and the next instruction of the block reads it as well.  Nothing
outside reads anything in there, but the sum goes with the write while it is read. -/
theorem erasure_faults_on_nested_sum :
    ∃ program, (Program.initial "m" .standard).runAll?
        [.requestType (.function ⟨.void, [], false⟩), .addFunction "f" ⟨13⟩,
          .enableRegisters ⟨0, 0⟩, .allocateRegister ⟨0, 0⟩ ⟨5⟩, .constSigned ⟨5⟩ 1,
          .buildBinary .add ⟨2, 0⟩ ⟨2, 0⟩, .buildRegWrite ⟨1, 0⟩ ⟨3, 0⟩,
          .buildBinary .add ⟨3, 0⟩ ⟨2, 0⟩, .addBlock ⟨0, 0⟩, .buildRet none,
          .pushBack ⟨6, 0⟩ ⟨7, 0⟩, .pushFront ⟨6, 0⟩ ⟨5, 0⟩, .pushFront ⟨6, 0⟩ ⟨4, 0⟩] =
          some program ∧
      (∀ constant edges, program.isConstant constant = true → program.usedBy constant = .ok edges →
        ∃ count, program.values.count? constant = some count ∧ edges.length ≤ count) ∧
      (∀ value users, program.isConstant value = false → program.users value = .ok users →
        ∀ user ∈ users, program.enclosingBlock? user = .ok (some ⟨6, 0⟩)) ∧
      program.blocks ⟨0, 0⟩ = .ok [⟨6, 0⟩] ∧
      eraseBlock ⟨6, 0⟩ program = .faulted (.corruption (.destroyed "add #3" ["add #5"])) ∧
      eraseFunction ⟨0, 0⟩ program = .faulted (.corruption (.destroyed "add #3" ["add #5"])) := by
  refine exists_runAll? fun program run => ⟨?_, ?_, ?_, ?_, ?_⟩
  · intro constant edges isConstant readUses
    have enough : program.checkNodes (fun program value => !program.isConstant value ||
        (program.values.count? value).any (((program.usedBy value).toOption.getD []).length ≤ ·)) =
        true := by
      apply holds_of_runAll? run
    have covers := check_of_checkNodes enough (isConstant_iff.mp isConstant).1
    simpa [isConstant, readUses, Except.toOption, Option.any_eq_true] using covers
  · intro value users varies readUsers user member
    have inside : program.checkNodes (fun program value => program.isConstant value ||
        ((program.users value).toOption.getD []).all
          (program.enclosingBlock? · = .ok (some ⟨6, 0⟩))) = true := by
      apply holds_of_runAll? run
    have live : program.isLive value = true := by
      simp only [Program.users, bind_eq_ok, usedBy_eq_ok] at readUsers
      obtain ⟨_, ⟨node, held, -⟩, -⟩ := readUsers
      exact Arena.contains_iff_get?.mpr ⟨node, held⟩
    have stands := check_of_checkNodes inside live
    simp only [varies, readUsers, Except.toOption, Option.getD_some, Bool.false_or,
      List.all_eq_true, decide_eq_true_eq] at stands
    exact stands user member
  · apply holds_of_runAll? run
  · refine of_decide_eq_true ?_
    apply holds_of_runAll? run
  · refine of_decide_eq_true ?_
    apply holds_of_runAll? run

end ValueGraph
