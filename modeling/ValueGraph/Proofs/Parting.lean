import Mathlib
import ValueGraph.Proofs.Placeholders
import ValueGraph.Proofs.Uprooting
import ValueGraph.Proofs.Vacating

namespace ValueGraph

open Program

/-!
# Blocks that go and blocks that stay

The reachable blocks of a function stay when the others go.  No block that stays leads
to one that goes, and none of its phis has an entry for one, so dropping such entries
changes nothing.
-/

variable {b : BlockId} {d : Function} {set dead live : List BlockId} {insts : List InstId}
  {inside : InstId → Prop} {p q s planted : Program} {f : FuncId}

namespace Program

/-- Some blocks of a function are to go and others to stay. -/
structure Parted
    (program : Program)
    (function : FuncId)
    (dead live : List BlockId) : Prop where
  nodup : dead.Nodup
  seated : ∀ block ∈ dead, program.seat? block = some (some function)
  blocks : ∀ block ∈ live, program.isBlock block = true
  apart : ∀ source ∈ live, ∀ target ∈ dead, ¬ program.Touches source target

theorem Parted.isBlock (parted : s.Parted f dead live) (mem : b ∈ dead) : s.isBlock b = true := by
  obtain ⟨d, h, -⟩ := Option.map_eq_some_iff.mp (parted.seated b mem)
  exact isBlock_iff.mpr ⟨d, h⟩

theorem parted_of_reachable (hs : s.Sound) (flow : s.Flowing) (keyed : s.Keyed)
    (h : s.function? f = some d) (read : s.reachableSet f = .ok set) :
    s.Parted f (d.blocks.filter (!set.contains ·)) (d.blocks.filter (set.contains ·)) := by
  obtain ⟨_, hr', mem_set⟩ := reachableSet_spec hs flow keyed h
  obtain rfl := Except.ok.inj (read.symm.trans hr')
  have fits := hs.staffed f d h
  constructor
  case nodup => exact fits.blocksNodup.filter _
  case seated => exact fun b mem => fits.blocks b (List.mem_of_mem_filter mem)
  case blocks => exact fun b mem =>
    hs.isBlock_of_mem_blocks h (List.mem_of_mem_filter mem)
  case apart =>
    intro src isLive tgt isDead touches
    obtain ⟨start, isStart, path⟩ := (mem_set src).mp
      (List.contains_iff_mem.mp (List.mem_filter.mp isLive).2)
    have reached := (mem_set tgt).mpr ⟨start, isStart, path.tail touches⟩
    simp [reached] at isDead

/-- A phi has entries for the same blocks when placeholders have come. -/
theorem Planted.keys_eq (planted : p.Planted q insts inside) (wired : p.Wired)
    (phi : InstId) : (q.entriesOf phi).map Prod.fst = (p.entriesOf phi).map Prod.fst := by
  refine Program.keys_eq (congrFun planted.operands phi) fun e mem => ?_
  obtain ⟨d, h, -⟩ := wired.edge_of_operand mem
  obtain ⟨now, hNow, -, slot⟩ := planted.placed e d h
  rw [h, hNow, Option.map_some, Option.map_some, slot]

theorem Sound.instructionsOf_eq_ok {blocks : List BlockId} (hs : s.Sound)
    (areBlocks : ∀ b ∈ blocks, s.isBlock b = true) :
    s.instructionsOf blocks = .ok (blocks.flatMap s.threads) := by
  simp only [instructionsOf, bind_eq_ok, pure_eq_ok, mapM_eq_ok]
  refine ⟨blocks.map s.threads, ?_, List.flatMap_def.symm⟩
  rw [List.forall₂_map_right_iff, List.forall₂_same]
  exact fun b mem => hs.chains.instructions_eq_ok (areBlocks b mem)

theorem filter_threads_eq_nil (goes : b ∈ dead) :
    (s.threads b).filter (· ∉ dead.flatMap s.threads) = [] := by
  rw [List.filter_eq_nil_iff]
  intro i inThread
  simpa using ⟨b, goes, inThread⟩

/-- When their instructions are gone, the blocks are in their places and empty. -/
theorem Parted.vacant {emptied : Program} (parted : p.Parted f dead live) (hs : p.Sound)
    (plants : p.Plants default planted) (razed : planted.Razed emptied)
    (threads : emptied.threads = fun b => (planted.threads b).filter (· ∉ dead.flatMap p.threads)) :
    ∀ b ∈ dead, emptied.seat? b = some (some f) ∧ emptied.threads b = [] := by
  intro b mem
  constructor
  · rw [(razed.dwindles (plants.sound hs)).seats, plants.skeleton.seat?]
    exact parted.seated b mem
  · rw [threads, plants.skeleton.threads_eq hs]
    exact filter_threads_eq_nil mem

end Program

namespace Step

theorem dropEntries_run (parted : p.Parted f dead live) (hs : p.Sound)
    (plants : p.Plants default planted) (isPlanted : p.Planted planted insts inside) :
    (live.forM fun b => dead.forM fun gone => dropEntriesFrom b gone).run planted =
      .ok ((), planted) := by
  refine forM_idle fun b isLive => forM_idle fun gone isDead => ?_
  have hb : planted.isBlock b = true := by
    rw [isBlock_eq_ends?, plants.skeleton.ends?, ← isBlock_eq_ends?]
    exact parted.blocks b isLive
  refine dropEntriesFrom_run (plants.sound hs) hb fun phi mem isPhi keyed => ?_
  rw [plants.skeleton.threads_eq hs] at mem
  rw [Program.isPhi, isPlanted.kinds, ← Program.isPhi] at isPhi
  rw [isPlanted.keys_eq hs.wired] at keyed
  exact parted.apart b isLive gone isDead (.inr ⟨parted.isBlock isDead, phi, mem, isPhi, keyed⟩)

end Step

/-- Collecting a function takes out what cannot be reached in it, if there is any. -/
theorem collectGarbage_eq_done {count : Nat} (h : s.function? f = some d)
    (read : s.reachableSet f = .ok set) :
    collectGarbage f s = .done count q ↔ (d.blocks.filter (!set.contains ·)).length = count ∧
        if d.blocks.filter (!set.contains ·) = [] then s = q
        else (Step.collectBlocks f (d.blocks.filter (!set.contains ·))
          (d.blocks.filter (set.contains ·))).run s = .ok ((), q) := by
  unfold collectGarbage
  rw [Edit.plan_eq_done]
  simp only [read, blocks_eq_ok h, bind_eq_ok, liftHalt_eq_ok]
  constructor
  · rintro ⟨step, ⟨_, hr', _, blocksAgain, plan⟩, run⟩
    obtain rfl := Except.ok.inj hr'
    obtain rfl := Except.ok.inj blocksAgain
    split at plan
    · next none =>
      obtain rfl := pure_eq_ok.mp plan
      obtain ⟨rfl, rfl⟩ := Step.run_pure.mp run
      rw [List.isEmpty_iff] at none
      exact ⟨by rw [none, List.length_nil], by rw [if_pos none]⟩
    · next some =>
      obtain rfl := pure_eq_ok.mp plan
      simp only [Step.run_bind, Step.run_pure] at run
      obtain ⟨_, _, run, rfl, rfl⟩ := run
      rw [List.isEmpty_iff] at some
      exact ⟨rfl, by rwa [if_neg some]⟩
  · rintro ⟨rfl, run⟩
    split at run
    · next none =>
      subst run
      refine ⟨pure 0, ⟨set, rfl, d.blocks, rfl, ?_⟩, ?_⟩
      · rw [if_pos (by rw [none]; rfl)]
        rfl
      · rw [none]
        exact Step.run_pure.mpr ⟨rfl, rfl⟩
    · next some =>
      refine ⟨do
        Step.collectBlocks f (d.blocks.filter (!set.contains ·)) (d.blocks.filter (set.contains ·))
        return (d.blocks.filter (!set.contains ·)).length, ⟨set, rfl, d.blocks, rfl, ?_⟩, ?_⟩
      · rw [if_neg (by rwa [List.isEmpty_iff])]
        rfl
      · exact Step.run_bind.mpr ⟨(), q, run, Step.run_pure.mpr ⟨rfl, rfl⟩⟩

end ValueGraph
