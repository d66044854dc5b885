import Mathlib
import ValueGraph.Proofs.Progress

namespace ValueGraph

open Program List Option

/-!
# Blocks that go

Phis that have no entry for a block are left alone when the entries for it are dropped.
Empty blocks leave the layout of their function and are given up, and nothing else
changes.
-/

variable {d : Function} {blocks : List BlockId} {p q : Program} {src b : BlockId} {f : FuncId}

/-! ### Entries -/

namespace Program

variable {s : Program} {phi : InstId}

/-- An instruction has entries for the same blocks if its operands stay in their places. -/
theorem keys_eq (ops : q.operandsOf phi = p.operandsOf phi)
    (slots : ∀ e ∈ p.operandsOf phi,
      (q.edges.get? e).map Edge.slot = (p.edges.get? e).map Edge.slot) :
    (q.entriesOf phi).map Prod.fst = (p.entriesOf phi).map Prod.fst := by
  have key_eq : ∀ old new : Edge, old.slot = new.slot →
      new.entryFor?.map Prod.fst = old.entryFor?.map Prod.fst := by
    intro old new eq
    unfold Edge.entryFor?
    rw [eq]
    cases new.slot <;> rfl
  rw [entriesOf, entriesOf, ops, map_filterMap, map_filterMap]
  refine filterMap_congr fun e mem => ?_
  have eq := slots e mem
  cases hAfter : q.edges.get? e with
  | none =>
    rw [hAfter, map_none, eq_comm, map_eq_none_iff] at eq
    rw [eq]
  | some d =>
    rw [hAfter, map_some, eq_comm, map_eq_some_iff] at eq
    obtain ⟨old, h, slot⟩ := eq
    rw [h, bind_some, bind_some, key_eq old d slot]

theorem entryFor?_eq_none (hs : s.Sound) (live : s.isLive phi = true)
    (absent : src ∉ (s.entriesOf phi).map Prod.fst) : s.entryFor? phi src = .ok none := by
  obtain ⟨n, found⟩ := Arena.contains_iff_get?.mp live
  obtain ⟨a, read⟩ : Answers (s.entryAmong? src (s.operandsOf phi)) :=
    hs.entryAmong?_answers fun _ mem => mem
  have none : a = none := by
    cases a with
    | none => rfl
    | some e =>
      obtain ⟨listed, d, h, keyed⟩ := entryAmong?_eq_some read
      exact absurd (mem_keys_iff.mpr ⟨e, listed, d, h, keyed⟩) absent
  rw [operandsOf_eq found, none] at read
  exact bind_eq_ok.mpr ⟨n.operands, operands_eq_ok.mpr ⟨n, found, rfl⟩, read⟩

end Program

namespace Step

theorem forM_idle {α : Type} {step : α → Step Unit} {items : List α}
    (idle : ∀ item ∈ items, (step item).run p = .ok ((), p)) :
    (items.forM step).run p = .ok ((), p) := by
  induction items with
  | nil => exact run_forM_nil.mpr rfl
  | cons item rest ih =>
    refine run_forM_cons.mpr ⟨p, idle item (by simp), ?_⟩
    exact ih fun other mem => idle other (by simp [mem])

theorem dropEntriesFrom_run (hs : p.Sound) (hb : p.isBlock b = true)
    (absent : ∀ phi ∈ p.threads b, p.isPhi phi = true → src ∉ (p.entriesOf phi).map Prod.fst) :
    (dropEntriesFrom b src).run p = .ok ((), p) := by
  unfold dropEntriesFrom
  simp only [run_bind, run_get, run_lift]
  refine ⟨_, _, ⟨rfl, rfl⟩, _, _, ⟨hs.phis_eq_ok hb, rfl⟩, forM_idle fun phi mem => ?_⟩
  obtain ⟨inThread, isPhi⟩ := mem_filter.mp mem
  have live := isLive_of_category (hs.isInst_of_mem_threads inThread)
  have none := entryFor?_eq_none hs live (absent phi inThread isPhi)
  unfold dropEntry
  simp only [run_bind, run_get, run_lift, run_pure]
  exact ⟨_, _, ⟨_, _, ⟨rfl, rfl⟩, _, _, ⟨none, rfl⟩, run_pure.mpr ⟨rfl, rfl⟩⟩, trivial, rfl⟩

end Step

/-! ### Empty blocks -/

namespace Program

/-- A block leaves the layout of a function and is given up; what stands elsewhere, the other
uses and the function stay. -/
structure Vacates (before after : Program) (function : FuncId) (block : BlockId) : Prop where
  threads : after.threads = before.threads
  uses : ∀ value, value ≠ block → after.usesOf value = before.usesOf value
  body : (before.function? function).isSome → (after.function? function).isSome

end Program

namespace Step

variable {a : Unit}

theorem releaseBlock_run_iff_of_empty (read : p.instructions b = .ok []) :
    (releaseBlock b).run p = .ok (a, q) ↔ (dropHandle b).run p = .ok (a, q) := by
  have nothing : (dropInstructions []).run p = .ok ((), p) :=
    run_bind.mpr ⟨(), p, run_forM_nil.mpr rfl, run_forM_nil.mpr rfl⟩
  unfold releaseBlock
  simp only [run_bind, run_get]
  constructor
  · rintro ⟨_, _, ⟨rfl, rfl⟩, run⟩
    split at run
    · simp only [run_bind, run_lift] at run
      obtain ⟨_, _, ⟨hr', rfl⟩, _, m, runDrop, run⟩ := run
      obtain rfl := Except.ok.inj (read.symm.trans hr')
      obtain rfl : p = m := by
        have eq := nothing.symm.trans runDrop
        simp only [Except.ok.injEq, Prod.mk.injEq] at eq
        exact eq.2
      exact run
    · exact run
  · intro run
    refine ⟨_, _, ⟨rfl, rfl⟩, ?_⟩
    split
    · simp only [run_bind, run_lift]
      exact ⟨_, _, ⟨read, rfl⟩, _, _, nothing, run⟩
    · exact run

/-- An empty block of a function is taken out of the layout and given up. -/
theorem vacateBlock_vacates (hs : p.Sound) (seated : p.seat? b = some (some f))
    (empty : p.threads b = [])
    (run : (do
      detachBlock f b
      releaseBlock b : Step Unit).run p = .ok (a, q)) : p.Vacates q f b := by
  obtain ⟨_, det, runDet, runRelease⟩ := run_bind.mp run
  obtain ⟨shrunk, threads, seats, -⟩ : Shrunk default p det ∧ _ :=
    detachBlock_shrunk hs seated runDet
  have hsDetached := Shrunk.sound shrunk hs
  obtain ⟨_, m, runFn, runBlock⟩ := run_bind.mp runDet
  obtain ⟨old, refit⟩ := modifyFunction_refitted runFn
  have reseat := setSeat_reseated runBlock
  have settle := refit.toResettles.trans reseat.toResettles
  have hb : det.isBlock b = true := by
    rw [reseat.blocks]
    exact reseat.isBlock
  have nothing : det.instructions b = .ok [] := by
    rw [hsDetached.chains.instructions_eq_ok hb, threads, empty]
  rw [releaseBlock_run_iff_of_empty nothing] at runRelease
  have drop := dropHandle_spec hsDetached.stored runRelease
  have free : det.seat? b = some none := by
    rw [seats, Function.update_self]
  obtain ⟨d, h, noParent⟩ := map_eq_some_iff.mp free
  have bare : det.countOf b = 1 → det.Bare b := by
    intro _ again hAgain
    rw [block?_eq_some_iff.mp h, some.injEq] at hAgain
    subst hAgain
    exact ⟨by rw [threads, empty], noParent⟩
  constructor
  case threads => rw [drop.threads_eq_of_bare hsDetached bare, threads]
  case uses =>
    intro v ne
    rw [usesOf, drop.node_of_ne ne, ← usesOf, settle.uses]
  case body =>
    intro _
    rw [(drop.views_of_block h).1.bodies, reseat.bodies, refit.bodies, Function.update_self]
    rfl

theorem vacateBlock_succeeds (hs : p.Sound) (h : p.function? f = some d)
    (seated : p.seat? b = some (some f)) (empty : p.threads b = []) (unread : p.usesOf b = []) :
    (do
      detachBlock f b
      releaseBlock b : Step Unit).Succeeds p := by
  have hb : p.isBlock b = true := by
    obtain ⟨data, hBlock, -⟩ := map_eq_some_iff.mp seated
    exact isBlock_iff.mpr ⟨data, hBlock⟩
  have detach : (detachBlock f b).Succeeds p := by
    refine .bind (modifyFunction_succeeds _ h) fun _ m run => ?_
    obtain ⟨_, refit⟩ := modifyFunction_refitted run
    exact modifyBlock_succeeds _ (by rw [refit.blocks, hb])
  refine .bind detach fun _ det runDet => ?_
  obtain ⟨shrunk, threads, seats, -⟩ : Shrunk default p det ∧ _ :=
    detachBlock_shrunk hs seated runDet
  obtain ⟨_, m, runFn, runBlock⟩ := run_bind.mp runDet
  obtain ⟨_, refit⟩ := modifyFunction_refitted runFn
  have reseat := setSeat_reseated runBlock
  have settle := refit.toResettles.trans reseat.toResettles
  have isBlockDetached : det.isBlock b = true := by rw [settle.blocks, hb]
  obtain ⟨a, q, run⟩ : (dropHandle b).Succeeds det :=
    dropHandle_succeeds (isLive_of_category isBlockDetached) fun _ => by rw [settle.uses, unread]
  have nothing : det.instructions b = .ok [] := by
    rw [(Shrunk.sound shrunk hs).chains.instructions_eq_ok isBlockDetached, threads, empty]
  exact ⟨a, q, (releaseBlock_run_iff_of_empty nothing).mpr run⟩

/-- Empty blocks of a function that nothing uses are taken out of the layout and given up. -/
theorem vacateBlocks_succeeds (hs : p.Sound) (nd : blocks.Nodup) (h : p.function? f = some d)
    (seated : ∀ b ∈ blocks, p.seat? b = some (some f)) (empty : ∀ b ∈ blocks, p.threads b = [])
    (unread : ∀ b ∈ blocks, p.usesOf b = []) :
    (blocks.forM fun b => do
      detachBlock f b
      releaseBlock b).Succeeds p := by
  induction blocks generalizing p d with
  | nil => exact .pure ()
  | cons b rest ih =>
    obtain ⟨away, nd'⟩ := nodup_cons.mp nd
    have isSeated := seated b (by simp)
    have isEmpty := empty b (by simp)
    refine .bind (vacateBlock_succeeds hs h isSeated isEmpty (unread b (by simp)))
      fun _ released run => ?_
    have vacates := vacateBlock_vacates hs isSeated isEmpty run
    obtain ⟨shrunk, -, seats⟩ : Shrunk default p released ∧ _ :=
      detachRelease_shrunk hs isSeated run
    obtain ⟨left, hLeft⟩ := isSome_iff_exists.mp (vacates.body (h ▸ rfl))
    have ne : ∀ block ∈ rest, block ≠ b := fun block mem eq =>
      away (eq ▸ mem)
    apply ih (Shrunk.sound shrunk hs) nd' hLeft
    · intro block mem
      rw [seats block (ne block mem)]
      exact seated block (by simp [mem])
    · intro block mem
      rw [vacates.threads]
      exact empty block (by simp [mem])
    · intro block mem
      rw [vacates.uses block (ne block mem)]
      exact unread block (by simp [mem])

end Step

end ValueGraph
