import Mathlib
import ValueGraph.Proofs.Reachability
import ValueGraph.Proofs.Recycling

namespace ValueGraph

open Program List

/-!
# Postorder

A depth-first visit finishes a block after what it leads to.  What it has seen and not
finished are the blocks on the way down, and each of them leads to the block that is
visited; so a block that is not finished when one that leads to it is leads back there.
-/

open Relation (ReflTransGen TransGen)

variable {s : Program} {visit answer : Visit} {b root : BlockId} {blocks : List BlockId}
  {fuel : Nat}

namespace Visit

/-- Finished blocks are seen, each once, and what they lead to is finished before them or
leads back to them. -/
structure Ordered (program : Program) (visit : Visit) : Prop where
  nodup : visit.order.Nodup
  seen : ∀ block ∈ visit.order, block ∈ visit.seen
  placed : ∀ block ∈ visit.order, ∀ next ∈ program.outflow block, next ∈ visit.seen ∧
    ([next, block].Sublist visit.order ∨ ReflTransGen program.FlowsTo next block)

/-- A visit goes on with blocks that it had not seen and finishes them, all of them behind a
block that it starts from. -/
structure Advances (program : Program) (root : BlockId) (visit answer : Visit) : Prop where
  seen : ∀ block, block ∈ answer.seen ↔ block ∈ visit.seen ∨ block ∈ answer.order
  order : visit.order <+: answer.order
  fresh : ∀ block ∈ answer.order, block ∈ visit.seen → block ∈ visit.order
  reached : ∀ block ∈ answer.order, block ∈ visit.order ∨ ReflTransGen program.FlowsTo root block

/-- What is seen and not finished leads to a block. -/
def Opens (program : Program) (visit : Visit) (root : BlockId) : Prop :=
  ∀ block ∈ visit.seen, block ∉ visit.order → ReflTransGen program.FlowsTo block root

theorem Advances.refl (ord : visit.Ordered s) : visit.Advances s root visit where
  seen b := ⟨.inl, fun seen => seen.elim id (ord.seen b)⟩
  order := prefix_rfl
  fresh _ member _ := member
  reached _ := .inl

theorem Advances.trans {m : Visit} (earlier : visit.Advances s root m)
    (later : m.Advances s root answer) : visit.Advances s root answer where
  seen b := by
    rw [later.seen, earlier.seen]
    have kept := later.order.subset (a := b)
    tauto
  order := earlier.order.trans later.order
  fresh b member seen :=
    earlier.fresh b (later.fresh b member ((earlier.seen b).mpr (.inl seen))) seen
  reached b member := (later.reached b member).elim (earlier.reached b) .inr

theorem Opens.of_advances (opens : visit.Opens s root) (advances : visit.Advances s b answer) :
    answer.Opens s root := by
  intro block seen unfinished
  have seenBefore := ((advances.seen block).mp seen).resolve_right unfinished
  exact opens block seenBefore fun finished => unfinished (advances.order.subset finished)

theorem Ordered.finish (ord : answer.Ordered s) (opens : visit.Opens s b)
    (advances : { visit with seen := b :: visit.seen }.Advances s b answer)
    (unseen : b ∉ answer.order) (led : ∀ next ∈ s.outflow b, next ∈ answer.seen) :
    { answer with order := answer.order ++ [b] }.Ordered s where
  nodup := nodup_append_comm.mp (nodup_cons.mpr ⟨unseen, ord.nodup⟩)
  seen other mem := by
    rcases mem_append.mp mem with old | new
    · exact ord.seen other old
    · exact (advances.seen other).mpr (.inl (by simp_all))
  placed other mem next leads := by
    rcases mem_append.mp mem with old | new
    · obtain ⟨seen, before | back⟩ := ord.placed other old next leads
      · exact ⟨seen, .inl (before.trans (sublist_append_left _ _))⟩
      · exact ⟨seen, .inr back⟩
    · obtain rfl := mem_singleton.mp new
      refine ⟨led next leads, ?_⟩
      by_cases finished : next ∈ answer.order
      · exact .inl ((singleton_sublist.mpr finished).append (List.Sublist.refl _))
      · -- what is not finished is on the way down to the block
        have seen := ((advances.seen next).mp (led next leads)).resolve_right finished
        rcases mem_cons.mp seen with rfl | seen
        · exact .inr .refl
        · exact .inr (opens next seen fun old => finished (advances.order.subset old))

theorem Advances.finish (advances : { visit with seen := b :: visit.seen }.Advances s b answer)
    (unseen : b ∉ visit.seen) :
    visit.Advances s b { answer with order := answer.order ++ [b] } where
  seen other := by
    simp only [advances.seen, mem_cons, mem_append]
    tauto
  order := advances.order.trans (prefix_append _ _)
  fresh other mem seen := by
    rcases mem_append.mp mem with old | new
    · exact advances.fresh other old (by simp [seen])
    · exact absurd (mem_singleton.mp new ▸ seen) unseen
  reached other mem := by
    rcases mem_append.mp mem with old | new
    · exact advances.reached other old
    · exact .inr (mem_singleton.mp new ▸ .refl)

end Visit

namespace Program

/-- Blocks that a block leads to are visited one after another, if each visit goes on from the
one before. -/
theorem foldlM_visit_advances {step : Visit → BlockId → Except Fault Visit}
    (each : ∀ b ∈ blocks, ∀ visit answer : Visit, visit.Ordered s → visit.Opens s b →
      step visit b = .ok answer → answer.Ordered s ∧ visit.Advances s b answer ∧ b ∈ answer.seen)
    (leads : ∀ b ∈ blocks, s.FlowsTo root b) (ord : visit.Ordered s) (opens : visit.Opens s root)
    (run : blocks.foldlM step visit = .ok answer) :
    answer.Ordered s ∧ visit.Advances s root answer ∧ ∀ b ∈ blocks, b ∈ answer.seen := by
  induction blocks generalizing visit with
  | nil =>
    obtain rfl := pure_eq_ok.mp run
    exact ⟨ord, .refl ord, by simp⟩
  | cons b rest ih =>
    rw [foldlM_cons] at run
    obtain ⟨m, run1, run'⟩ := bind_eq_ok.mp run
    have step := leads b (by simp)
    obtain ⟨orderedMiddle, first, seenBlock⟩ := each b (by simp) visit m ord
      (fun block seen unfinished => (opens block seen unfinished).tail step) run1
    have fromRoot : visit.Advances s root m :=
      { first with
        reached := fun block mem => (first.reached block mem).imp_right (.head step) }
    obtain ⟨orderedAnswer, later, seenRest⟩ := ih (fun block mem => each block (by simp [mem]))
      (fun block mem => leads block (by simp [mem])) orderedMiddle
      (opens.of_advances fromRoot) run'
    refine ⟨orderedAnswer, fromRoot.trans later, ?_⟩
    simpa [(later.seen b).mpr (.inl seenBlock)] using seenRest

theorem visitWithin_advances (hs : s.Sound) (ord : visit.Ordered s) (opens : visit.Opens s b)
    (run : s.visitWithin fuel visit b = .ok answer) :
    answer.Ordered s ∧ visit.Advances s b answer ∧ b ∈ answer.seen ∧
      (b ∉ visit.seen → answer.order.getLast? = some b) := by
  induction fuel generalizing visit b answer with
  | zero => simp [visitWithin, throw_ne_ok] at run
  | succ fuel ih =>
    simp only [visitWithin, contains_iff_mem] at run
    split at run
    next seen =>
      obtain rfl := pure_eq_ok.mp run
      exact ⟨ord, .refl ord, seen, fun unseen => absurd seen unseen⟩
    next unseen =>
      simp only [bind_eq_ok, pure_eq_ok] at run
      obtain ⟨successors, readSuccessors, below, runBelow, rfl⟩ := run
      have hb := isBlock_of_successors readSuccessors
      rw [hs.successors_eq_ok hb] at readSuccessors
      obtain rfl := Except.ok.inj readSuccessors
      have unfinished : b ∉ visit.order := fun mem => unseen (ord.seen b mem)
      have orderedHere : { visit with seen := b :: visit.seen }.Ordered s :=
        { nodup := ord.nodup
          seen := fun block mem => mem_cons_of_mem _ (ord.seen block mem)
          placed := fun block mem next leads =>
            (ord.placed block mem next leads).imp_left (mem_cons_of_mem _) }
      have opensHere : { visit with seen := b :: visit.seen }.Opens s b := by
        intro block seen notFinished
        rcases mem_cons.mp seen with rfl | seen
        · exact .refl
        · exact opens block seen notFinished
      obtain ⟨orderedBelow, advances, led⟩ := foldlM_visit_advances
        (fun next _ visit answer ord opens run => by
          obtain ⟨orderedNext, advancesNext, seenNext, -⟩ := ih ord opens run
          exact ⟨orderedNext, advancesNext, seenNext⟩)
        (fun next mem => hs.flowsTo_iff.mpr (mem_eraseDups.mp mem))
        orderedHere opensHere runBelow
      have notBelow : b ∉ below.order := fun mem =>
        unfinished (advances.fresh b mem (by simp))
      refine ⟨orderedBelow.finish opens advances notBelow fun next leads =>
        led next (mem_eraseDups.mpr leads), advances.finish unseen, ?_, by simp⟩
      exact (advances.seen b).mpr (.inl (by simp))

end Program

namespace Program

variable {f : FuncId} {entry : BlockId}

theorem exists_function_of_entry (start : s.entryBlock? f = .ok (some entry)) :
    ∃ d, s.function? f = some d ∧ d.blocks.head? = some entry := by
  simp only [entryBlock?, bind_eq_ok, blocks_eq_ok_iff, pure_eq_ok] at start
  obtain ⟨_, ⟨d, h, rfl⟩, isHead⟩ := start
  exact ⟨d, h, isHead⟩

/-- A visit from the entry finishes the blocks that control reaches, the entry last. -/
theorem Sound.postorder_spec (hs : s.Sound) (start : s.entryBlock? f = .ok (some entry)) :
    ∃ visit : Visit, s.postorder f = .ok visit.order ∧ visit.Ordered s ∧
      visit.order.getLast? = some entry ∧
      ∀ b, b ∈ visit.order ↔ ReflTransGen s.FlowsTo entry b := by
  obtain ⟨d, h, isEntry⟩ := exists_function_of_entry start
  obtain ⟨_, read, visits⟩ := hs.postorder_eq_ok h
  obtain ⟨visit, runVisit, rfl⟩ := visits entry isEntry
  obtain ⟨ord, advances, -, last⟩ := visitWithin_advances hs
    ⟨List.nodup_nil, by simp, by simp⟩ (fun _ seen => by simp at seen) runVisit
  have isLast := last (by simp)
  refine ⟨visit, read, ord, isLast, fun b => ⟨fun mem => ?_, fun path => ?_⟩⟩
  · exact (advances.reached b mem).resolve_left (by simp)
  · induction path with
    | refl => exact List.mem_of_getLast? isLast
    | tail _ flows ih =>
      have seen := (ord.placed _ ih _ (hs.flowsTo_iff.mp flows)).1
      exact ((advances.seen _).mp seen).resolve_left (by simp)

end Program

namespace Program

/-- A phi that stands in a block has an entry for another block that is there. -/
def HasEntryFor (program : Program) (block source : BlockId) : Prop :=
  ∃ phis phi entries, program.phis block = .ok phis ∧ phi ∈ phis ∧
    program.incoming phi = .ok entries ∧ source ∈ entries.map Prod.fst ∧
    program.isLive source = true

variable {src tgt : BlockId}

/-- A block touches those that its terminator leads to and those that its phis have entries
for. -/
theorem Sound.touches_iff (hs : s.Sound) (keyed : s.Keyed) (hb : s.isBlock src = true) :
    s.Touches src tgt ↔ s.FlowsTo src tgt ∨ s.HasEntryFor src tgt := by
  rw [Touches, hs.flowsTo_iff]
  refine or_congr_right ⟨?_, ?_⟩
  · rintro ⟨isTarget, phi, inThread, isPhi, hasKey⟩
    have live := isLive_of_category (hs.isInst_of_mem_threads inThread)
    exact ⟨_, phi, _, hs.phis_eq_ok hb, List.mem_filter.mpr ⟨inThread, isPhi⟩,
      incoming_eq_ok hs.wired live, hasKey, isLive_of_category isTarget⟩
  · rintro ⟨phis, phi, entries, readPhis, mem, readEntries, hasKey, live⟩
    rw [hs.phis_eq_ok hb] at readPhis
    obtain rfl := Except.ok.inj readPhis
    obtain ⟨inThread, isPhi⟩ := List.mem_filter.mp mem
    rw [incoming_eq_ok hs.wired (isLive_of_category (hs.isInst_of_mem_threads inThread))]
      at readEntries
    obtain rfl := Except.ok.inj readEntries
    exact ⟨keyed.isBlock_of_mem_keys hasKey live, phi, inThread, isPhi, hasKey⟩

/-- What is touched step by step is the least that holds a block and what its members lead to
or have entries for. -/
theorem Sound.isLeast_touched (hs : s.Sound) (keyed : s.Keyed) (hb : s.isBlock root = true) :
    IsLeast {region : Set BlockId | root ∈ region ∧ ∀ src ∈ region, ∀ tgt,
      s.FlowsTo src tgt ∨ s.HasEntryFor src tgt → tgt ∈ region}
      {b | ReflTransGen s.Touches root b} := by
  have blocks : ∀ b, ReflTransGen s.Touches root b → s.isBlock b = true := by
    intro b path
    cases path with
    | refl => exact hb
    | tail _ step => exact step.isBlock hs
  refine ⟨⟨.refl, fun src path tgt leads => ?_⟩, fun region ⟨holds, closed⟩ b path => ?_⟩
  · exact path.tail ((hs.touches_iff keyed (blocks src path)).mpr leads)
  · induction path with
    | refl => exact holds
    | tail path step ih =>
      exact closed _ ih _ ((hs.touches_iff keyed (blocks _ path)).mp step)

end Program

/-- The reachable blocks of a function are its blocks, in layout order, that lie in the least
set with its entry, what terminators of members lead to and what phis of members have entries
for.  It is found whatever order the blocks are taken up in.  All that the postorder lists is
in it, and nothing else if no phi there has an entry for another block. -/
theorem reachable_blocks_form_least_closed_set {name : String} {settings : Settings}
    {operations : List Operation} {program : Program} {function : FuncId} {entry : BlockId}
    (run : (Program.initial name settings).runAll? operations = some program)
    (short : operations.length < 2 ^ 32)
    (start : program.entryBlock? function = .ok (some entry)) :
    ∃ blocks set order, program.blocks function = .ok blocks ∧
      program.reachableSet function = .ok set ∧ program.postorder function = .ok order ∧
      program.reachableBlocks function = .ok (blocks.filter (set.contains ·)) ∧
      IsLeast {region : Set BlockId | entry ∈ region ∧ ∀ source ∈ region, ∀ target,
        program.FlowsTo source target ∨ program.HasEntryFor source target → target ∈ region}
        {block | block ∈ set} ∧
      (∀ arrange : List BlockId → List BlockId → List BlockId → List BlockId,
        (∀ work met next, (arrange work met next).Perm next) →
        ∃ found, program.reachInOrder arrange program.chainBound [entry] [entry] = .ok found ∧
          blocks.filter (found.contains ·) = blocks.filter (set.contains ·)) ∧
      (∀ block ∈ order, block ∈ set) ∧
      ((∀ block ∈ order, ∀ source, program.HasEntryFor block source → source ∈ order) →
        ∀ block ∈ set, block ∈ order) := by
  have sound := sound_of_runAll? run
  have charted := charted_of_runAll? run short
  obtain ⟨data, held, isHead⟩ := exists_function_of_entry start
  have isBlock := sound.isBlock_of_mem_blocks held (List.mem_of_head? isHead)
  obtain ⟨set, readSet, reached⟩ := reachableSet_spec sound charted.flowing charted.keyed held
  simp only [isHead, Option.mem_some_iff, exists_eq_left'] at reached
  obtain ⟨visit, readOrder, -, -, listed⟩ := sound.postorder_spec start
  have least := sound.isLeast_touched charted.keyed isBlock
  simp only [← reached] at least
  refine ⟨data.blocks, set, visit.order, blocks_eq_ok held, readSet, readOrder,
    reachableBlocks_eq_ok held readSet, least, ?_, fun block member => ?_, fun inside => ?_⟩
  · intro arrange same
    obtain ⟨found, readFound, alike⟩ :=
      reachInOrder_from sound charted.flowing charted.keyed same isBlock
    refine ⟨found, readFound, List.filter_congr fun block _ => ?_⟩
    simp [alike, reached]
  · refine (reached block).mpr (ReflTransGen.mono (fun source target flows => ?_) entry block
      ((listed block).mp member))
    exact .inl (sound.flowsTo_iff.mp flows)
  · -- what the postorder lists is closed, and the least such set is in it
    have closed : ∀ source ∈ visit.order, ∀ target,
        program.FlowsTo source target ∨ program.HasEntryFor source target →
          target ∈ visit.order := by
      rintro source member target (flows | entered)
      · exact (listed target).mpr (((listed source).mp member).tail flows)
      · exact inside source member target entered
    exact least.2 (show {block | block ∈ visit.order} ∈ _ from ⟨(listed entry).mpr .refl, closed⟩)

/-- A block that nothing leads to is kept by the entry that a phi has for it: the postorder
does not list it, and the reachable set does. -/
theorem block_of_entry_is_reachable :
    ∃ program, (Program.initial "m" .standard).runAll?
        [.requestType (.function ⟨.void, [], false⟩), .addFunction "f" ⟨13⟩, .addBlock ⟨0, 0⟩,
          .addBlock ⟨0, 0⟩, .addBlock ⟨0, 0⟩, .constSigned ⟨5⟩ 1, .buildPhi ⟨5⟩,
          .addIncoming ⟨5, 0⟩ ⟨2, 0⟩ ⟨4, 0⟩, .buildRet none, .pushBack ⟨1, 0⟩ ⟨6, 0⟩,
          .pushFront ⟨1, 0⟩ ⟨5, 0⟩] = some program ∧
      program.entryBlock? ⟨0, 0⟩ = .ok (some ⟨1, 0⟩) ∧
      program.postorder ⟨0, 0⟩ = .ok [⟨1, 0⟩] ∧
      program.reachableBlocks ⟨0, 0⟩ = .ok [⟨1, 0⟩, ⟨2, 0⟩] ∧
      ∃ source, program.HasEntryFor ⟨1, 0⟩ source ∧ source ≠ ⟨1, 0⟩ := by
  refine exists_runAll? fun program run => ?_
  obtain ⟨start, listed, kept⟩ : program.entryBlock? ⟨0, 0⟩ = .ok (some ⟨1, 0⟩) ∧
      program.postorder ⟨0, 0⟩ = .ok [⟨1, 0⟩] ∧
      program.reachableBlocks ⟨0, 0⟩ = .ok [⟨1, 0⟩, ⟨2, 0⟩] := by
    apply holds_of_runAll? run
  refine ⟨start, listed, kept, ?_⟩
  obtain ⟨blocks, set, order, -, -, readOrder, readBlocks, -, -, -, inside⟩ :=
    reachable_blocks_form_least_closed_set run (by decide) start
  obtain rfl := Except.ok.inj (readOrder.symm.trans listed)
  -- otherwise the second block would be listed
  by_contra none
  push Not at none
  have second : (⟨2, 0⟩ : BlockId) ∈ blocks.filter (set.contains ·) := by
    rw [Except.ok.inj (readBlocks.symm.trans kept)]
    simp
  have inOrder := inside (fun block member source entered => ?_) ⟨2, 0⟩
    (by simpa using (List.mem_filter.mp second).2)
  · simp at inOrder
  · obtain rfl := List.mem_singleton.mp member
    simpa using none source entered

/-- A phi has an entry for a block that is gone.  Once the slot of the block has come round, the
entry names a constant, and the search faults where it takes the constant for a block. -/
theorem entry_for_constant_faults :
    ∃ operations program, (Program.initial "m" .standard).runAll? operations = some program ∧
      program.entryBlock? ⟨0, 0⟩ = .ok (some ⟨1, 0⟩) ∧
      program.incoming ⟨3, 0⟩ = .ok [(⟨5, 0⟩, ⟨2, 0⟩)] ∧ program.isConstant ⟨5, 0⟩ = true ∧
      program.reachableBlocks ⟨0, 0⟩ = .error .wrongCategory := by
  apply exists_runAll?_of_churn
    [.requestType (.function ⟨.void, [], false⟩), .addFunction "f" ⟨13⟩, .addBlock ⟨0, 0⟩,
      .constSigned ⟨5⟩ 1, .buildPhi ⟨5⟩, .buildRet none, .pushBack ⟨1, 0⟩ ⟨4, 0⟩,
      .pushFront ⟨1, 0⟩ ⟨3, 0⟩, .createBlock, .addIncoming ⟨3, 0⟩ ⟨5, 0⟩ ⟨2, 0⟩, .release ⟨5, 0⟩]
    [.constBool true] 5

end ValueGraph
