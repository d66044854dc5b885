import Mathlib
import ValueGraph.Proofs.Unravelling

open Function

namespace ValueGraph

open Program Option

/-!
# Erasure

Blocks go after their instructions, functions after their blocks, arguments and
registers.  Giving up any node, erasing a block and collecting the unreachable
blocks of a function are sequences of moves.
-/

variable {b : BlockId} {seat : Option FuncId} {f : FuncId} {d details old : Function} {v : ValueId}
  {insts : List InstId} {blocks : List BlockId} {a : Unit} {p q : Program} {pr : Promise}

/-! ### Seats and bodies -/

namespace Step

theorem setSeat_reseated
    (run : (modifyBlock b fun d => { d with parent := seat }).run p = .ok (a, q)) :
    p.Reseated q b seat := by
  obtain ⟨d, h, rfl⟩ := modifyBlock_run.mp run
  have hPayload := block?_eq_some_iff.mp h
  exact
    { toReshapes := .ofBlock h rfl rfl
      isBlock := by
        rw [isBlock_eq_ends?]
        simp [ends?, h]
      links := by
        funext other
        simp only [link?, inst?_withBlock h]
      ends := by
        rw [ends?_withBlock h]
        refine update_eq_self_iff.mpr ?_
        simp [Program.ends?, h, Block.ends]
      seats := seat?_withBlock h _
      bodies := function?_withPayload hPayload rfl }

theorem modifyFunction_refitted {change : Function → Function}
    (run : (modifyFunction f change).run p = .ok (a, q)) :
    ∃ old, p.Refitted q f old (change old) := by
  obtain ⟨old, h, rfl⟩ := modifyFunction_run.mp run
  have hPayload := function?_eq_some_iff.mp h
  have sameBlocks : (p.withPayload f (.function (change old))).block? =
      p.block? := block?_withPayload hPayload rfl
  have sameInsts : (p.withPayload f (.function (change old))).inst? =
      p.inst? := inst?_withPayload hPayload rfl
  exact ⟨old,
    { toReshapes := .ofFunction h _
      held := h
      links := by
        funext other
        simp only [link?, sameInsts]
      ends := by
        funext other
        simp only [ends?, sameBlocks]
      seats := by
        funext other
        simp only [seat?, sameBlocks]
      bodies := function?_withFunction h _ }⟩

end Step

namespace Program

/-- A block that is seated in one function is listed by no other. -/
theorem Sound.not_mem_blocks (hs : p.Sound) (seated : p.seat? b = some seat)
    (elsewhere : seat ≠ some f) (h : p.function? f = some d) : b ∉ d.blocks := by
  intro mem
  have listed := (hs.staffed f d h).blocks b mem
  rw [seated, some.injEq] at listed
  exact elsewhere listed

theorem count?_eq_one_iff : p.values.count? v = some 1 ↔ p.countOf v = 1 := by
  cases absent : p.values.count? v <;> simp [countOf, absent]

/-- Functions, arguments, registers and symbols are what they were. -/
structure Keeps (before after : Program) : Prop where
  surroundings : after.surroundings = before.surroundings
  bodies : after.function? = before.function?
  arguments : after.argument? = before.argument?
  registers : after.register? = before.register?

theorem Keeps.trans {first second r : Program} (earlier : first.Keeps second)
    (later : second.Keeps r) :
    first.Keeps r where
  surroundings := later.surroundings.trans earlier.surroundings
  bodies := later.bodies.trans earlier.bodies
  arguments := later.arguments.trans earlier.arguments
  registers := later.registers.trans earlier.registers

theorem Dwindles.keeps (dw : p.Dwindles q) : p.Keeps q :=
  ⟨dw.surroundings, dw.bodies, dw.arguments, dw.registers⟩

theorem Reseated.keeps (reseat : p.Reseated q b seat) : p.Keeps q :=
  ⟨reseat.surroundings, reseat.bodies, reseat.arguments, reseat.registers⟩

/-- The seats of all blocks but one are what they were, and that one gets no other. -/
structure Frees (before after : Program) (block : BlockId) : Prop where
  others : ∀ other, other ≠ block → after.seat? other = before.seat? other
  itself : ∀ seat, after.seat? block = some seat → before.seat? block = some seat

/-- No block that a function listed is left in it. -/
def Evicts (before after : Program) (function : FuncId) : Prop :=
  ∀ block, after.seat? block = some (some function) → before.seat? block = some (some function) ∧
    ∀ data, before.function? function = some data → block ∉ data.blocks

theorem Dropped.views_of_block {d : Block} (drop : p.Dropped q b) (h : p.block? b = some d) :
    p.Keeps q ∧ p.Frees q b := by
  have kept : ∀ {β : Type} (reading : Payload → Option β), reading (.block d) = none →
      (fun value => (q.payload? value).bind reading) = fun value =>
        (p.payload? value).bind reading := by
    intro β reading unread
    refine drop.bind_eq reading fun payload hPayload => ?_
    rw [block?_eq_some_iff, hPayload, some.injEq] at h
    rw [h, unread]
  refine ⟨⟨drop.surroundings, kept _ rfl, ?_, ?_⟩, fun block ne => ?_, fun _ => drop.seat?_before⟩
  · simpa only [argument?_eq_bind] using kept _ rfl
  · simpa only [register?_eq_bind] using kept _ rfl
  · rcases drop.exchanged_or with ⟨-, pls, -⟩ | ⟨-, -, exch, -⟩
    · simp only [seat?_eq_bind, pls]
    · exact exch.seat?_of_ne ne

end Program

namespace Step

theorem blocks_without (old : Function) (b : BlockId) :
    ({ old with body := old.body.map (·.filter (· != b)) } : Function).blocks =
      old.blocks.filter (· != b) := by
  cases body : old.body <;> simp [Function.blocks, body]

/-- Taking a block out of the function that it is seated in. -/
theorem detachBlock_shrunk (hs : p.Sound) (seated : p.seat? b = some (some f))
    (run : (detachBlock f b).run p = .ok (a, q)) :
    Program.Shrunk pr p q ∧ q.threads = p.threads ∧ q.seat? = update p.seat? b (some none) ∧
      p.Settles q (Pi.single b 1) := by
  obtain ⟨_, m, runFn, runBlock⟩ := run_bind.mp run
  obtain ⟨old, refit⟩ := modifyFunction_refitted runFn
  have reseat := setSeat_reseated runBlock
  have fits := hs.staffed f old refit.held
  have fewer := blocks_without old b
  have fitsFewer : p.Fits f
      { old with body := old.body.map (·.filter (· != b)) } :=
    { params := fits.params
      granted := fits.granted
      blocks := fun block mem => by
        rw [fewer] at mem
        exact fits.blocks block (List.mem_of_mem_filter mem)
      paramsNodup := fits.paramsNodup
      grantedNodup := fits.grantedNodup
      blocksNodup := by
        rw [fewer]
        exact fits.blocksNodup.filter _ }
  have staffedMiddle := hs.staffed.of_refitted refit fitsFewer
  have hsm := hs.of_resettles refit.toResettles staffedMiddle
  have unlisted : ∀ value d, m.function? value = some d → b ∉ d.blocks := by
    intro value d h
    by_cases eq : value = f
    · subst eq
      rw [refit.bodies, update_self, some.injEq] at h
      subst h
      rw [fewer]
      simp
    · exact hsm.not_mem_blocks (by rw [refit.seats, seated]) (by simpa using Ne.symm eq) h
  have seats : q.seat? = update p.seat? b (some none) := by
    rw [reseat.seats, refit.seats]
  have lodges : p.Lodges pr q := by
    refine ⟨fun block home d _ isSeated h listed _ => ?_, fun block home was isSeated => ?_⟩
    · have ne : block ≠ b := by
        rintro rfl
        simp [seats] at isSeated
      rw [reseat.bodies, refit.bodies, update_apply]
      split
      next eq =>
        subst eq
        obtain rfl := mem_unique refit.held h
        exact ⟨_, rfl, rfl, by simp [fewer, listed, ne]⟩
      next => exact ⟨d, h, rfl, listed⟩
    · rw [seats, update_apply] at isSeated
      split at isSeated
      · cases isSeated
      · exact absurd isSeated was
  have shapes : p.Shapes pr q :=
    .resettle (refit.toResettles.trans reseat.toResettles)
      (staffedMiddle.of_reseated reseat unlisted)
      (fun _ allotted =>
        (allotted.of_refitted refit (·.of_registers_eq rfl)).of_reseated reseat)
      lodges
  refine ⟨.single shapes, ?_, seats, ?_⟩
  · rw [reseat.threads_eq hsm, refit.threads_eq hs]
  · have seatedMiddle : m.seat? b = some (some f) := by
      rw [refit.seats, seated]
    have sameLists : ({ old with body := old.body.map (·.filter (· != b)) } : Function).lists =
        old.lists := rfl
    refine ((refit.settles hs fitsFewer).trans (reseat.settles seatedMiddle)).of_eq ?_
    rw [sameLists, sub_self, zero_add]
    simp

theorem dropThread_razed (hs : p.Sound) (read : p.instructions b = .ok insts)
    (run : (dropInstructions insts).run p = .ok (a, q)) :
    p.Razed q ∧ q.threads b = [] ∧ p.Settles q 0 := by
  have isThread := threads_eq read
  have ord := ordered_flatMap hs.chains [b]
  simp only [List.flatMap_cons, List.flatMap_nil, List.append_nil, isThread] at ord
  obtain ⟨razed, threads, settles⟩ := dropInstructions_razed hs ord
    (fun i mem => hs.status?_of_mem (isThread ▸ mem)) run
  refine ⟨razed, ?_, settles (isThread ▸ hs.chains.nodup b)⟩
  simp only [threads, isThread]
  exact List.filter_eq_nil_iff.mpr (by simp)

/-- Giving up a block outside any function that is empty if this is its last owner. -/
theorem dropBlock_shapes (hs : p.Sound) (free : p.seat? b = some none)
    (empty : p.countOf b = 1 → p.threads b = []) (run : (dropHandle b).run p = .ok (a, q)) :
    p.Shapes pr q ∧ p.Keeps q ∧ p.Frees q b ∧ p.Settles q (Pi.single b (-1)) := by
  have drop := dropHandle_spec hs.stored run
  obtain ⟨d, h, noParent⟩ := map_eq_some_iff.mp free
  obtain ⟨keeps, frees⟩ := drop.views_of_block h
  have bare : p.countOf b = 1 → p.Bare b := by
    intro last payload hPayload
    rw [block?_eq_some_iff, hPayload, some.injEq] at h
    subst h
    exact ⟨empty last, noParent⟩
  exact ⟨.drop b drop bare, keeps, frees, drop.settles bare⟩

/-- Giving up a block outside any function; the last owner takes its thread along. -/
theorem releaseBlock_shrunk (hs : p.Sound) (free : p.seat? b = some none)
    (run : (releaseBlock b).run p = .ok (a, q)) :
    Shrunk pr p q ∧ p.Keeps q ∧ p.Frees q b ∧ p.Settles q (Pi.single b (-1)) := by
  replace run := run_get_bind.mp run
  split at run
  next =>
    simp only [run_bind, run_lift] at run
    obtain ⟨insts, _, ⟨read, rfl⟩, _, emptied, runDrop, runHandle⟩ := run
    obtain ⟨razed, empty, settlesThread⟩ := dropThread_razed hs read runDrop
    have dw := razed.dwindles hs
    obtain ⟨shapes, keeps, frees, settles⟩ :=
      dropBlock_shapes (razed.sound hs) (by rw [dw.seats, free]) (fun _ => empty) runHandle
    refine ⟨razed.shrunk.tail shapes, dw.keeps.trans keeps, ?_,
      (settlesThread.trans settles).of_eq (zero_add _)⟩
    exact ⟨dw.seats ▸ frees.others, dw.seats ▸ frees.itself⟩
  next others =>
    obtain ⟨shapes, keeps, frees, settles⟩ := dropBlock_shapes hs free
      (fun one => absurd (count?_eq_one_iff.mpr one) others) run
    exact ⟨.single shapes, keeps, frees, settles⟩

/-! ### Functions -/

end Step

namespace Program

/-- An argument or register that no function lists. -/
structure Stray (program : Program) (value : ValueId) : Prop where
  sort : ∀ payload, program.payload? value = some payload →
    payload.category = .argument ∨ payload.category = .register
  unlisted : ∀ function data, program.function? function = some data →
    value ∉ data.params ∧ value ∉ data.granted

theorem Stray.bare (stray : p.Stray v) : p.Bare v := by
  intro payload h
  have sort := stray.sort payload h
  cases payload with
  | argument d => exact fun f d h => (stray.unlisted f d h).1
  | register d => exact fun f d h => (stray.unlisted f d h).2
  | _ => simp [Payload.category] at sort

theorem Dropped.views_of_stray (drop : p.Dropped q v) (stray : p.Stray v) :
    q.function? = p.function? ∧ q.seat? = p.seat? ∧ ∀ value, p.Stray value → q.Stray value := by
  have bodies : q.function? = p.function? := by
    refine drop.bind_eq _ fun payload h => ?_
    have sort := stray.sort payload h
    cases payload <;> simp_all [Payload.category, Payload.function?]
  have seats : q.seat? = p.seat? := by
    simp only [seat?_eq_bind]
    refine drop.bind_eq _ fun payload h => ?_
    have sort := stray.sort payload h
    cases payload <;> simp_all [Payload.category, Payload.block?]
  refine ⟨bodies, seats, fun value strayOther => ⟨fun payload h => ?_, ?_⟩⟩
  · refine strayOther.sort payload ?_
    rcases drop.exchanged_or with ⟨-, pls, -⟩ | ⟨-, -, exch, -⟩
    · rwa [pls] at h
    · rw [show q.payload? = _ from exch, update_apply] at h
      split at h
      · simp at h
      · exact h
  · rw [bodies]
    exact strayOther.unlisted

end Program

namespace Step

theorem dropStrays_shrunk {values : List ValueId} (hs : p.Sound)
    (strays : ∀ v ∈ values, p.Stray v) (run : (values.forM dropHandle).run p = .ok (a, q)) :
    Shrunk pr p q ∧ q.function? = p.function? ∧
      q.seat? = p.seat? ∧ q.surroundings = p.surroundings ∧
      (∀ value, p.Stray value → q.Stray value) ∧
      p.Settles q fun v => -values.count v := by
  induction values generalizing p with
  | nil =>
    obtain rfl := run_forM_nil.mp run
    exact ⟨.refl, rfl, rfl, rfl, fun _ => id, (Settles.refl _).of_eq (by rfl)⟩
  | cons v rest ih =>
    obtain ⟨m, run1, run'⟩ := run_forM_cons.mp run
    have drop := dropHandle_spec hs.stored run1
    have stray := strays v (by simp)
    have shapes : p.Shapes pr m := .drop v drop fun _ => stray.bare
    obtain ⟨bodies, seats, others⟩ := drop.views_of_stray stray
    obtain ⟨shrunk, bodiesRest, seatsRest, surroundingsRest, othersRest, settlesRest⟩ :=
      ih (shapes.sound hs) (fun value mem => others value (strays value (by simp [mem]))) run'
    refine ⟨.head shapes shrunk, bodiesRest.trans bodies, seatsRest.trans seats,
      surroundingsRest.trans drop.surroundings,
      fun value strayOther => othersRest value (others value strayOther),
      ((drop.settles fun _ => stray.bare).trans settlesRest).of_eq ?_⟩
    funext value
    rw [Pi.add_apply, List.count_cons]
    by_cases eq : value = v
    · subst eq
      simp
    · simp [Ne.symm eq]

end Step

namespace Program

theorem flatMap_threads_eq (read : p.instructionsOf blocks = .ok insts) :
    blocks.flatMap p.threads = insts := by
  simp only [instructionsOf, bind_eq_ok, pure_eq_ok, mapM_eq_ok] at read
  obtain ⟨lists, each, rfl⟩ := read
  rw [List.flatMap_def]
  congr 1
  induction each with
  | nil => rfl
  | cons first _ ih =>
    rw [List.map_cons, threads_eq first, ih]

/-- Members of a function that it no longer lists are on no list. -/
theorem Sound.strays {new : Function} (hs : p.Sound) (refit : p.Refitted q f old new)
    (params : new.params = []) (granted : new.granted = [])
    (mem : v ∈ old.params ∨ v ∈ old.granted) : q.Stray v := by
  have fits := hs.staffed f old refit.held
  have parent : ∀ value d, p.function? value = some d → v ∈ d.params ∨ v ∈ d.granted →
    value = f := by
    intro value d h inOther
    have fitsOther := hs.staffed value d h
    rcases mem with isParam | isGranted
    · obtain ⟨arg, hArg, isParent⟩ := fits.params v isParam
      rcases inOther with otherParam | otherGranted
      · obtain ⟨_, h', otherParent⟩ := fitsOther.params v otherParam
        obtain rfl := mem_unique hArg h'
        exact otherParent.symm.trans isParent
      · obtain ⟨r, hReg, -⟩ := fitsOther.granted v otherGranted
        rw [register?_eq_some_iff] at hReg
        rw [argument?_eq_some_iff, hReg] at hArg
        simp at hArg
    · obtain ⟨r, hReg, isParent⟩ := fits.granted v isGranted
      rcases inOther with otherParam | otherGranted
      · obtain ⟨arg, hArg, -⟩ := fitsOther.params v otherParam
        rw [register?_eq_some_iff] at hReg
        rw [argument?_eq_some_iff, hReg] at hArg
        simp at hArg
      · obtain ⟨_, h', otherParent⟩ := fitsOther.granted v otherGranted
        obtain rfl := mem_unique hReg h'
        exact otherParent.symm.trans isParent
  refine ⟨fun payload h => ?_, fun value d h => ?_⟩
  · rcases mem with isParam | isGranted
    · obtain ⟨arg, hArg, -⟩ := fits.params v isParam
      rw [← refit.arguments, argument?_eq_some_iff, h, some.injEq] at hArg
      simp [hArg, Payload.category]
    · obtain ⟨r, hReg, -⟩ := fits.granted v isGranted
      rw [← refit.registers, register?_eq_some_iff, h, some.injEq] at hReg
      simp [hReg, Payload.category]
  · rw [refit.bodies, update_apply] at h
    split at h
    next =>
      obtain rfl := some.inj h
      simp [params, granted]
    next ne =>
      rw [← not_or]
      exact fun inOther => ne (parent value d h inOther)

end Program

namespace Step

/-- Blocks of a function that it no longer lists are given up one after another. -/
theorem dropBlocks_shrunk (hs : p.Sound) (h : p.function? f = some d) (unlisted : d.blocks = [])
    (nd : blocks.Nodup) (seated : ∀ b ∈ blocks, p.seat? b = some (some f))
    (run : (blocks.forM fun b => do
      modifyBlock b fun d => { d with parent := none }
      releaseBlock b).run p = .ok (a, q)) :
    Shrunk pr p q ∧ p.Keeps q ∧ (∀ b, q.seat? b = some (some f) →
        p.seat? b = some (some f) ∧ b ∉ blocks) ∧
      p.Settles q 0 := by
  induction blocks generalizing p with
  | nil =>
    obtain rfl := run_forM_nil.mp run
    exact ⟨.refl, ⟨rfl, rfl, rfl, rfl⟩, fun _ seated => ⟨seated, by simp⟩, .refl _⟩
  | cons b rest ih =>
    obtain ⟨released, run1, run'⟩ := run_forM_cons.mp run
    obtain ⟨_, unseated, runSeat, runRelease⟩ := run_bind.mp run1
    obtain ⟨away, nd'⟩ := List.nodup_cons.mp nd
    have reseated := setSeat_reseated runSeat
    have reseat : p.Shapes pr unseated := by
      refine .of_unseated reseated hs fun value otherData hOther => ?_
      by_cases eq : value = f
      · subst eq
        obtain rfl := mem_unique h hOther
        simp [unlisted]
      · exact hs.not_mem_blocks (seated b (by simp)) (by simpa using Ne.symm eq) hOther
    have hsUnseated := reseat.sound hs
    obtain ⟨shrunk, keeps, frees, settles⟩ : Shrunk pr unseated released ∧ _ :=
      releaseBlock_shrunk hsUnseated (by rw [reseated.seats, update_self]) runRelease
    have keepsFirst := reseated.keeps.trans keeps
    have seatsOthers : ∀ block, block ≠ b → released.seat? block = p.seat? block := by
      intro block ne
      rw [frees.others block ne, reseated.seats, update_of_ne ne]
    obtain ⟨shrunkRest, keepsRest, evicts, settlesRest⟩ := ih
      (Shrunk.sound shrunk hsUnseated) (by rw [keepsFirst.bodies, h]) nd'
      (fun block mem => by
        rw [seatsOthers block fun eq => away (eq ▸ mem)]
        exact seated block (by simp [mem])) run'
    refine ⟨(Relation.ReflTransGen.head reseat shrunk).trans shrunkRest,
      keepsFirst.trans keepsRest, fun block isSeated => ?_, ?_⟩
    · obtain ⟨seatedReleased, out⟩ := evicts block isSeated
      have ne : block ≠ b := by
        rintro rfl
        have seatedUnseated := frees.itself _ seatedReleased
        simp [reseated.seats] at seatedUnseated
      exact ⟨seatsOthers block ne ▸ seatedReleased, by simp [ne, out]⟩
    have unseat := reseated.settles (seated b (by simp))
    refine ((unseat.trans settles).trans settlesRest).of_eq ?_
    rw [add_zero, ← Pi.single_add]
    simp

end Step

/-- The stages in which a function is torn down: its blocks are struck from its list, their
instructions go, then they, at last its registers and arguments. -/
structure Program.DropsBody
    (before unlisted emptied vacated bare unregistered after : Program)
    (function : FuncId)
    (old data : Function) : Prop where
  held : before.function? function = some old
  unlist : (Step.modifyFunction function fun data => { data with body := none }).run before =
    .ok ((), unlisted)
  insts : (Step.dropInstructions (old.blocks.flatMap unlisted.threads)).run unlisted =
    .ok ((), emptied)
  blocks : (old.blocks.forM fun block => do
    Step.modifyBlock block fun data => { data with parent := none }
    Step.releaseBlock block).run emptied = .ok ((), vacated)
  heldData : vacated.function? function = some data
  strip : (Step.modifyFunction function fun data =>
    { data with params := [], registers := none }).run vacated = .ok ((), bare)
  registers : (data.granted.forM Step.dropHandle).run bare = .ok ((), unregistered)
  params : (data.params.forM Step.dropHandle).run unregistered = .ok ((), after)

theorem Step.dropBody_run (run : (dropBody f).run p = .ok (a, q)) :
    ∃ unlisted emptied vacated bare unreg old d,
      p.DropsBody unlisted emptied vacated bare unreg q f old d := by
  unfold dropBody at run
  simp only [run_bind, run_get, run_lift, function_eq_ok] at run
  obtain ⟨_, _, ⟨rfl, rfl⟩, old, _, ⟨h, rfl⟩, _, unlisted, runUnlist, _, _, ⟨rfl, rfl⟩, insts,
    _, ⟨readInsts, rfl⟩, _, emptied, runInsts, _, vacated, runBlocks, _, _, ⟨rfl, rfl⟩, d, _,
    ⟨hData, rfl⟩, _, bare, runBare, _, unreg, runRegisters, runParams⟩ := run
  rw [← flatMap_threads_eq readInsts] at runInsts
  exact ⟨unlisted, emptied, vacated, bare, unreg, old, d, h, runUnlist, runInsts,
    runBlocks, hData, runBare, runRegisters, runParams⟩

namespace Program.DropsBody

variable {unlisted emptied vacated bare unreg : Program}
  (drops : p.DropsBody unlisted emptied vacated bare unreg q f old d) (hs : p.Sound)

include drops

theorem refitted : p.Refitted unlisted f old { old with body := none } := by
  obtain ⟨_, refit⟩ := Step.modifyFunction_refitted drops.unlist
  obtain rfl := mem_unique drops.held refit.held
  exact refit

include hs

theorem fits : p.Fits f old :=
  hs.staffed f old drops.held

theorem fitsUnlisted : p.Fits f { old with body := none } where
  params := (drops.fits hs).params
  granted := (drops.fits hs).granted
  blocks := by simp [Function.blocks]
  paramsNodup := (drops.fits hs).paramsNodup
  grantedNodup := (drops.fits hs).grantedNodup
  blocksNodup := by simp [Function.blocks]

theorem shapes (razes : pr.razes f) : p.Shapes pr unlisted :=
  .of_refitted drops.refitted hs (drops.fitsUnlisted hs) rfl (absurd razes) fun _ allots =>
    allots.of_registers_eq rfl

theorem soundUnlisted : unlisted.Sound :=
  hs.of_resettles drops.refitted.toResettles
    (hs.staffed.of_refitted drops.refitted (drops.fitsUnlisted hs))

theorem razed : unlisted.Razed emptied ∧ unlisted.Settles emptied 0 := by
  have hsUnlisted := drops.soundUnlisted hs
  obtain ⟨razed, -, settles⟩ := Step.dropInstructions_razed hsUnlisted
    (ordered_flatMap hsUnlisted.chains old.blocks)
    (fun i mem => hsUnlisted.status?_of_mem_flatMap mem) drops.insts
  exact ⟨razed, settles (hsUnlisted.nodup_flatMap (drops.fits hs).blocksNodup)⟩

theorem soundEmptied : emptied.Sound :=
  (drops.razed hs).1.sound (drops.soundUnlisted hs)

theorem shrunkBlocks :
    Shrunk pr emptied vacated ∧ emptied.Keeps vacated ∧ (∀ b, vacated.seat? b = some (some f) →
        emptied.seat? b = some (some f) ∧ b ∉ old.blocks) ∧
      emptied.Settles vacated 0 := by
  have dw := (drops.razed hs).1.dwindles (drops.soundUnlisted hs)
  have hEmptied : emptied.function? f = some { old with body := none } := by
    rw [dw.bodies, drops.refitted.bodies, update_self]
  refine Step.dropBlocks_shrunk (drops.soundEmptied hs) hEmptied rfl
    (drops.fits hs).blocksNodup (fun b mem => ?_) drops.blocks
  · rw [dw.seats, drops.refitted.seats]
    exact (drops.fits hs).blocks b mem

theorem soundVacated : vacated.Sound := by
  obtain ⟨shrunk, -⟩ : Shrunk default emptied vacated ∧ _ := drops.shrunkBlocks hs
  exact Shrunk.sound shrunk (drops.soundEmptied hs)

/-- The lists of registers and arguments are what they were in the beginning. -/
theorem data_eq : d = { old with body := none } := by
  have dw := (drops.razed hs).1.dwindles (drops.soundUnlisted hs)
  obtain ⟨-, keeps, -⟩ : Shrunk default emptied vacated ∧ _ := drops.shrunkBlocks hs
  have h := drops.heldData
  rw [keeps.bodies, dw.bodies, drops.refitted.bodies, update_self, some.injEq] at h
  exact h.symm

omit hs in
theorem refittedBare : vacated.Refitted bare f d { d with params := [], registers := none } := by
  obtain ⟨_, refit⟩ := Step.modifyFunction_refitted drops.strip
  obtain rfl := mem_unique drops.heldData refit.held
  exact refit

theorem fitsBare : vacated.Fits f { d with params := [], registers := none } :=
  fits_of_empty rfl (by rw [drops.data_eq hs]) rfl f

theorem soundBare : bare.Sound :=
  (drops.soundVacated hs).of_resettles drops.refittedBare.toResettles
    ((drops.soundVacated hs).staffed.of_refitted drops.refittedBare (drops.fitsBare hs))

theorem shrunkStrays :
    Shrunk pr bare q ∧ q.function? = bare.function? ∧ q.seat? = bare.seat? ∧
      q.surroundings = bare.surroundings ∧
      bare.Settles q fun v => -((d.granted ++ d.params).count v : Int) := by
  have strays : ∀ v, v ∈ d.params ∨ v ∈ d.granted → bare.Stray v :=
    fun v mem => (drops.soundVacated hs).strays drops.refittedBare rfl rfl mem
  obtain ⟨shrunkRegisters, bodiesRegisters, seatsRegisters, surroundingsRegisters, others,
      settlesRegisters⟩ : Shrunk pr bare unreg ∧ _ :=
    Step.dropStrays_shrunk (drops.soundBare hs) (fun v mem => strays v (Or.inr mem)) drops.registers
  obtain ⟨shrunkParams, bodiesParams, seatsParams, surroundingsParams, -, settlesParams⟩ :
      Shrunk pr unreg q ∧ _ :=
    Step.dropStrays_shrunk (Shrunk.sound shrunkRegisters (drops.soundBare hs))
      (fun v mem => others v (strays v (Or.inl mem))) drops.params
  refine ⟨shrunkRegisters.trans shrunkParams, bodiesParams.trans bodiesRegisters,
    seatsParams.trans seatsRegisters, surroundingsParams.trans surroundingsRegisters,
    (settlesRegisters.trans settlesParams).of_eq ?_⟩
  funext v
  simp only [Pi.add_apply, List.count_append]
  push_cast
  ring

/-- All that follows once the blocks are struck from the list of the function. -/
theorem shrunk (razes : pr.razes f) : Shrunk pr unlisted q := by
  obtain ⟨blocks, -⟩ : Shrunk pr emptied vacated ∧ _ := drops.shrunkBlocks hs
  have strip : vacated.Shapes pr bare :=
    .of_refitted drops.refittedBare (drops.soundVacated hs) (drops.fitsBare hs) rfl
      (absurd razes) fun _ _ => allots_of_none rfl
  obtain ⟨strays, -⟩ : Shrunk pr bare q ∧ _ := drops.shrunkStrays hs
  exact (((drops.razed hs).1.shrunk.trans blocks).tail strip).trans strays

end Program.DropsBody

/-- Tearing down a function leaves it without parameters, blocks and registers. -/
theorem Step.dropBody_shrunk (hs : p.Sound) (razes : pr.razes f)
    (run : (dropBody f).run p = .ok (a, q)) :
    Shrunk pr p q ∧ q.surroundings = p.surroundings ∧ p.Evicts q f ∧
      (∃ d, q.function? f = some d ∧ d.params = [] ∧ d.body = none ∧ d.registers = none) ∧
      p.Settles q 0 := by
  obtain ⟨unlisted, emptied, vacated, bare, unreg, old, d, drops⟩ := dropBody_run run
  have dw := (drops.razed hs).1.dwindles (drops.soundUnlisted hs)
  have refit := drops.refitted
  have isData := drops.data_eq hs
  obtain ⟨-, keeps, evicts, settlesBlocks⟩ : Shrunk pr emptied vacated ∧ _ := drops.shrunkBlocks hs
  obtain ⟨-, bodies, seats, surr, settlesStrays⟩ : Shrunk pr bare q ∧ _ := drops.shrunkStrays hs
  refine ⟨.head (drops.shapes hs razes) (drops.shrunk hs razes), ?_, fun b isSeated => ?_,
    ⟨{ d with params := [], registers := none }, ?_, rfl, by rw [isData], rfl⟩, ?_⟩
  · rw [surr, drops.refittedBare.surroundings, keeps.surroundings, dw.surroundings,
      refit.surroundings]
  · rw [seats, drops.refittedBare.seats] at isSeated
    obtain ⟨isSeated, out⟩ := evicts b isSeated
    rw [dw.seats, refit.seats] at isSeated
    refine ⟨isSeated, fun data again => ?_⟩
    obtain rfl := mem_unique drops.held again
    exact out
  · rw [bodies, drops.refittedBare.bodies, update_self]
  · have settlesUnlist := refit.settles hs (drops.fitsUnlisted hs)
    have settlesStrip := drops.refittedBare.settles (drops.soundVacated hs) (drops.fitsBare hs)
    refine ((((settlesUnlist.trans (drops.razed hs).2).trans settlesBlocks).trans
      settlesStrip).trans settlesStrays).of_eq ?_
    have sameLists : ({ old with body := none } : Function).lists = old.lists := rfl
    have fitsData : p.Fits f d := isData ▸ drops.fitsUnlisted hs
    rw [sameLists, sub_self, fitsData.lists_eq, (drops.fitsBare hs).lists_eq]
    funext v
    simp [Function.granted]

/-! ### Any node -/

namespace Program

theorem Sound.not_mem_params {d : Argument} (hs : p.Sound) (h : p.argument? v = some d)
    (unowned : p.isOwned v = false) (hFn : p.function? f = some details) : v ∉ details.params := by
  intro mem
  obtain ⟨_, h', rfl⟩ := (hs.staffed f details hFn).params v mem
  obtain rfl := mem_unique h h'
  rw [argument?_eq_some_iff] at h
  simp [isOwned, h, hFn, mem] at unowned

theorem Sound.not_mem_granted {d : Register} (hs : p.Sound) (h : p.register? v = some d)
    (unowned : p.isOwned v = false) (hFn : p.function? f = some details) : v ∉ details.granted := by
  intro mem
  obtain ⟨_, h', rfl⟩ := (hs.staffed f details hFn).granted v mem
  obtain rfl := mem_unique h h'
  rw [register?_eq_some_iff] at h
  simp [isOwned, h, hFn, mem] at unowned

theorem bare_of_function (h : p.function? v = some d) (params : d.params = [])
    (body : d.body = none) (regs : d.registers = none) (unlisted : v ∉ p.functions)
    (unnamed : ∀ name, (name, v) ∉ p.symbols) : p.Bare v := by
  intro payload again
  rw [function?_eq_some_iff, again, some.injEq] at h
  subst h
  exact ⟨params, body, regs, unlisted, unnamed⟩

theorem Sound.not_mem_symbols (hs : p.Sound) (unowned : p.isOwnedByContainer v = .ok false)
    (name : Name) : (name, v) ∉ p.symbols := by
  intro entered
  simp only [isOwnedByContainer, bind_eq_ok, payload_eq_ok] at unowned
  obtain ⟨payload, h, unowned⟩ := unowned
  have isSymbol := (hs.catalogue.entered _ entered).1
  simp only [isFunction, isGlobal, h, map_some] at isSymbol
  cases payload with
  | function d | global d =>
    exact List.any_eq_false.mp (pure_eq_ok.mp unowned) _ entered (by simp)
  | _ => simp [Payload.category] at isSymbol

theorem Sound.isOwned_eq_false (hs : p.Sound) (unowned : p.isOwnedByContainer v = .ok false) :
    p.isOwned v = false := by
  have unnamed : v ∉ p.functions ∧ v ∉ p.globals := by
    rw [← not_or]
    intro listed
    obtain ⟨name, named⟩ := hs.catalogue.named v listed
    exact hs.not_mem_symbols unowned name named
  simp only [isOwnedByContainer, bind_eq_ok, payload_eq_ok] at unowned
  obtain ⟨payload, h, unowned⟩ := unowned
  have dead : ∀ parent, p.isLive parent = false → p.function? parent = none := by
    intro parent stale
    rw [isLive_iff, isSome_eq_false_iff, isNone_iff_eq_none] at stale
    rw [function?, stale, bind_none]
  cases payload with
  | constant d => simp [isOwned, h]
  | inst d => simpa [isOwned, h, Link.isOwned, Inst.link, pure_eq_ok] using unowned
  | block d => simpa [isOwned, h, pure_eq_ok] using unowned
  | function d =>
    simpa [isOwned, h] using unnamed.1
  | global d =>
    simpa [isOwned, h] using unnamed.2
  | argument d => simp [isOwned, h, dead _ (pure_eq_ok.mp unowned)]
  | register d => simp [isOwned, h, dead _ (pure_eq_ok.mp unowned)]

end Program

namespace Step

theorem releaseNode_shrunk (hs : p.Sound)
    (unowned : p.countOf v = 1 → p.isOwned v = false ∧ ∀ name, (name, v) ∉ p.symbols)
    (razes : p.isFunction v = true → p.countOf v = 1 → pr.razes v)
    (run : (releaseNode v).run p = .ok (a, q)) :
    Shrunk pr p q ∧ p.Settles q (Pi.single v (-1)) := by
  replace run := run_get_bind.mp run
  have drop : ∀ {m : Program}, Shrunk pr p m → p.Settles m 0 → (m.countOf v = 1 → m.Bare v) →
      (dropHandle v).run m = .ok (a, q) → Shrunk pr p q ∧ p.Settles q (Pi.single v (-1)) := by
    intro m shrunk settles bare runDrop
    have dropped := dropHandle_spec (Shrunk.sound shrunk hs).stored runDrop
    exact ⟨shrunk.tail (.drop v dropped bare),
      (settles.trans (dropped.settles bare)).of_eq (zero_add _)⟩
  split at run
  next last =>
    obtain ⟨free, unnamed⟩ := unowned (count?_eq_one_iff.mp last)
    simp only [run_bind, run_lift, payload_eq_ok] at run
    obtain ⟨content, _, ⟨h, rfl⟩, run⟩ := run
    cases content with
    | inst d =>
      obtain ⟨_, m, runFin, runDrop⟩ := run_bind.mp run
      have hLink : p.link? v = some d.link := by
        rw [link?, inst?_eq_some_iff.mpr h, map_some]
      rw [isOwned_of_link hLink] at free
      simp only [Link.isOwned, Bool.or_eq_false_iff, beq_eq_false_iff_ne] at free
      have out := hs.chains.not_mem_of_status hLink free.1
      have fin := finalizeInst_finalized hs (removable_of_outside out)
        (hs.shielded_of_floats hLink free.2) runFin
      obtain ⟨l, hFinal, st⟩ := fin.finalized
      have isFree : p.owned v = 0 := by
        rw [owned, isOwned_of_link hLink]
        simp [Link.isOwned, free]
      refine drop fin.razed.shrunk ⟨?_, fun neat => ?_⟩
        (fun _ => m.bare_of_finalized hFinal st) runDrop
      · exact (fin.razed.dwindles hs).neat
      · refine (fin.tally neat).of_eq ?_
        rw [isFree, Pi.single_zero]
    | block d =>
      simp only [run_bind, run_lift] at run
      obtain ⟨insts, _, ⟨read, rfl⟩, _, emptied, runInsts, runDrop⟩ := run
      obtain ⟨razed, empty, settles⟩ := dropThread_razed hs read runInsts
      refine drop razed.shrunk settles (fun _ payload again => ?_) runDrop
      have seats := congrFun (razed.dwindles hs).seats v
      simp only [seat?_eq_bind, h, again, bind_some] at seats
      simp only [isOwned, h, isSome_eq_false_iff, isNone_iff_eq_none] at free
      cases payload with
      | block foundData => exact ⟨empty, by simpa [Payload.block?, free] using seats⟩
      | _ => simp [Payload.block?] at seats
    | function d =>
      obtain ⟨_, torn, runBody, runDrop⟩ := run_bind.mp run
      have isFn : p.isFunction v = true := by
        simp [isFunction, h, Payload.category]
      obtain ⟨shrunk, surr, -, ⟨bare, hBare, params, body, regs⟩, settles⟩ : Shrunk pr p torn ∧ _ :=
        dropBody_shrunk hs (razes isFn (count?_eq_one_iff.mp last)) runBody
      refine drop shrunk settles (fun _ => ?_) runDrop
      refine bare_of_function hBare params body regs ?_ ?_
      · rw [functions_eq_of_surroundings surr]
        simpa [isOwned, h] using free
      · rwa [symbols_eq_of_surroundings surr]
    | global d =>
      obtain ⟨_, cleared, runClear, runDrop⟩ := run_bind.mp run
      obtain ⟨rem, -⟩ := clearOperands_spec hs.stored hs.wired.placid hs.wired.uses runClear
      have hg : p.isGlobal v = true := by
        simp [isGlobal, h, Payload.category]
      refine drop (.single (.redraw (.clear v hg rem)))
        (rem.settles (List.nil_sublist _)) (fun _ payload again => ?_) runDrop
      have eq := congrFun rem.rewires.skeleton.global? v
      simp only [global?, h, again, bind_some] at eq
      cases payload with
      | global foundData =>
        refine ⟨by rw [rem.operands, update_self], ?_, ?_⟩
        · rw [globals_eq_of_surroundings rem.rewires.surroundings]
          simpa [isOwned, h] using free
        · rwa [symbols_eq_of_surroundings rem.rewires.surroundings]
      | _ => simp [Payload.global?] at eq
    | constant d =>
      refine drop .refl (.refl _) (fun _ payload again => ?_)
        (by simpa [run_bind, run_pure] using run)
      obtain rfl := mem_unique h again
      trivial
    | argument d =>
      refine drop .refl (.refl _) (fun _ payload again => ?_)
        (by simpa [run_bind, run_pure] using run)
      obtain rfl := mem_unique h again
      exact fun _ _ => hs.not_mem_params (argument?_eq_some_iff.mpr h) free
    | register d =>
      refine drop .refl (.refl _) (fun _ payload again => ?_)
        (by simpa [run_bind, run_pure] using run)
      obtain rfl := mem_unique h again
      exact fun _ _ => hs.not_mem_granted (register?_eq_some_iff.mpr h) free
  next others =>
    exact drop .refl (.refl _) (fun one => absurd (count?_eq_one_iff.mpr one) others) run

theorem releaseFunction_run (isFn : p.isFunction v = true) (last : p.countOf v = 1)
    (run : (releaseNode v).run p = .ok (a, q)) :
    ∃ torn, (dropBody v).run p = .ok ((), torn) ∧ (dropHandle v).run torn = .ok (a, q) := by
  simp only [isFunction_eq, isSome_iff_exists, function?_eq_some_iff] at isFn
  obtain ⟨d, h⟩ := isFn
  simp only [releaseNode, run_bind, run_get] at run
  obtain ⟨_, _, ⟨rfl, rfl⟩, run⟩ := run
  rw [if_pos (count?_eq_one_iff.mpr last)] at run
  simp only [run_bind, run_lift, payload_eq_ok] at run
  obtain ⟨payload, _, ⟨h', rfl⟩, run⟩ := run
  obtain rfl := mem_unique h h'
  obtain ⟨_, torn, runBody, runDrop⟩ := run_bind.mp run
  exact ⟨torn, runBody, runDrop⟩

theorem releaseNode_evicts (hs : p.Sound) (isFn : p.isFunction v = true) (last : p.countOf v = 1)
    (razes : pr.razes v) (run : (releaseNode v).run p = .ok (a, q)) : p.Evicts q v := by
  obtain ⟨torn, runBody, runDrop⟩ := releaseFunction_run isFn last run
  obtain ⟨shrunk, -, evicts, -⟩ : Shrunk pr p torn ∧ _ := dropBody_shrunk hs razes runBody
  have drop := dropHandle_spec (Shrunk.sound shrunk hs).stored runDrop
  exact fun b seated => evicts b (drop.seat?_before seated)

end Step

end ValueGraph
