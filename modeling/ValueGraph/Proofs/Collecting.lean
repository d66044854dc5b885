import Mathlib
import ValueGraph.Proofs.Erasure

open Function

namespace ValueGraph

open Program Option

/-!
# Erased and collected blocks

Before a block goes, the entries for it go from the phis that have one.  Before
the unreachable blocks of a function go, what survives reads open constants in the
place of their instructions.
-/

variable {u v new : ValueId} {e : EdgeId} {k : Nat} {src b : BlockId} {edges : List EdgeId}
  {d : Edge} {i : InstId} {blocks : List BlockId} {f : FuncId} {p q r : Program} {a : Unit}
  {pr : Promise} {ty : TypeId}

/-- A step that is repeated along a list does what each repetition does. -/
theorem Step.forM_of_invariant {α : Type} (relation : Program → Program → Prop)
    (inv : Program → Prop) {step : α → Step Unit} {items : List α} (refl : ∀ s, relation s s)
    (trans : ∀ {first second r}, relation first second → relation second r → relation first r)
    (keeps : ∀ {first second}, relation first second → inv first → inv second)
    (each : ∀ item ∈ items, ∀ {first second}, inv first →
      (step item).run first = .ok ((), second) → relation first second) (start : inv p)
    (run : (items.forM step).run p = .ok (a, q)) : relation p q := by
  induction items generalizing p with
  | nil =>
    obtain rfl := run_forM_nil.mp run
    exact refl _
  | cons item rest ih =>
    obtain ⟨m, run1, run'⟩ := run_forM_cons.mp run
    have first := each item (by simp) start run1
    exact trans first (ih (fun other mem => each other (by simp [mem])) (keeps first start) run')

/-! ### Phi entries -/

namespace Program

/-- Edges go without a trace in chains, lists and balances. -/
structure Prunes (promise : Promise) (before after : Program) : Prop where
  redrawn : Redrawn promise before after
  rewires : before.Rewires after
  settles : before.Settles after 0

namespace Prunes

theorem refl (s : Program) : s.Prunes pr s :=
  ⟨.refl, .refl _, .refl _⟩

theorem trans (earlier : p.Prunes pr q) (later : q.Prunes pr r) : p.Prunes pr r :=
  ⟨earlier.redrawn.trans later.redrawn, earlier.rewires.trans later.rewires,
    (earlier.settles.trans later.settles).of_eq (add_zero _)⟩

theorem sound (prunes : p.Prunes pr q) (hs : p.Sound) : q.Sound :=
  Redrawn.sound prunes.redrawn hs

end Prunes

variable {s : Program}

theorem operandIndex_eq_ok (read : s.operandIndex u e = .ok k) : (s.operandsOf u)[k]? = some e := by
  simp only [operandIndex, bind_eq_ok, operands_eq_ok] at read
  obtain ⟨_, ⟨n, found, rfl⟩, read⟩ := read
  rw [operandsOf_eq found]
  split at read
  next pos located =>
    rw [pure_eq_ok] at read
    obtain ⟨lt, isEdge, -⟩ := List.findIdx?_eq_some_iff_getElem.mp located
    rw [← read, List.getElem?_eq_getElem lt]
    simpa using isEdge
  next => exact absurd read (throw_ne_ok _ _)

/-- The entry of a phi for a block is one of its operands. -/
theorem entryAmong?_eq_some (read : s.entryAmong? src edges = .ok (some e)) :
    e ∈ edges ∧ ∃ d, s.edges.get? e = some d ∧ d.slot = .keyed src := by
  induction edges with
  | nil => simp [entryAmong?, pure_eq_ok] at read
  | cons first rest ih =>
    simp only [entryAmong?, bind_eq_ok, edgeSlot, edge_eq_ok, pure_eq_ok] at read
    obtain ⟨_, ⟨d, h, rfl⟩, read⟩ := read
    split at read
    next isEntry =>
      rw [pure_eq_ok, some.injEq] at read
      subst read
      exact ⟨by simp, d, h, isEntry⟩
    next =>
      obtain ⟨mem, found⟩ := ih read
      exact ⟨by simp [mem], found⟩

end Program

namespace Step

theorem removeEntry_prunes (hs : p.Sound) (mem : (p.operandsOf u)[k]? = some e)
    (h : p.edges.get? e = some d) (keyed : d.slot = .keyed src)
    (run : (removeOperandAt u k).run p = .ok (a, q)) : p.Prunes pr q := by
  obtain ⟨_, _, memberAgain, h', rem, places, kept⟩ := removeOperandAt_spec hs.stored
    hs.wired.placid hs.wired.uses (hs.wired.nodup u) run
  obtain rfl := mem_unique mem memberAgain
  obtain rfl := mem_unique h h'
  have wired : p.wire? e = some d.outline := by
    exact wire?_of_get? h
  have outlined : d.outline.slot = .keyed src := by
    rw [Edge.outline, keyed]
    rfl
  have apart : p.flowSource? u d.outline.slot = none := by
    rw [flowSource?, outlined]
    cases p.shell? u with
    | none => rfl
    | some kind => cases kind <;> rfl
  have wiredAfter := (hs.of_unread mem wired (Or.inl ⟨src, outlined⟩) rem).wired
  refine ⟨.single (.unread u k e d.outline mem wired (Or.inl ⟨src, outlined⟩) ?_
    fun conf => ?_), rem.rewires, rem.settles (List.eraseIdx_sublist _ _)⟩
  · simpa [apart] using rem
  · exact Conforms.of_entryRemoved hs.wired wiredAfter mem h rem places conf keyed kept.kind?

theorem dropEntry_prunes {phi : InstId} {flag : Bool} (hs : p.Sound)
    (run : (dropEntry phi src).run p = .ok (flag, q)) : p.Prunes pr q := by
  obtain ⟨entry, read, run⟩ := run_look.mp run
  cases entry with
  | none =>
    obtain ⟨-, rfl⟩ := run_pure.mp run
    exact .refl _
  | some e =>
    simp only [run_bind, run_lift, run_pure] at run
    obtain ⟨k, _, ⟨readIndex, rfl⟩, _, _, runRemove, -, rfl⟩ := run
    simp only [entryFor?, bind_eq_ok] at read
    obtain ⟨_, -, readEntry⟩ := read
    obtain ⟨-, d, h, keyed⟩ := entryAmong?_eq_some readEntry
    exact removeEntry_prunes hs (operandIndex_eq_ok readIndex) h keyed runRemove

theorem dropEntriesFrom_prunes (hs : p.Sound) (run : (dropEntriesFrom b src).run p = .ok (a, q)) :
    p.Prunes pr q := by
  obtain ⟨phis, -, run⟩ := run_look.mp run
  refine forM_of_invariant (Prunes pr) Sound .refl .trans Prunes.sound
    (fun phi _ first second hsFirst runPhi => ?_) hs run
  obtain ⟨flag, m, runEntry, runPure⟩ := run_bind.mp runPhi
  obtain ⟨-, rfl⟩ := run_pure.mp runPure
  exact dropEntry_prunes hsFirst runEntry

/-! ### Erased blocks -/

theorem eraseBlockNode_run (run : (eraseBlockNode b).run p = .ok (a, q)) :
    ∃ holders pruned insts d emptied, p.entryHolders b = .ok holders ∧
      (holders.forM fun holder => dropEntriesFrom holder b).run p = .ok ((), pruned) ∧
      pruned.instructions b = .ok insts ∧
      pruned.block? b = some d ∧
      (dropInstructions insts).run pruned = .ok ((), emptied) ∧
      (do
        d.parent.elim (pure ()) (detachBlock · b)
        releaseBlock b : Step Unit).run emptied = .ok (a, q) := by
  unfold eraseBlockNode at run
  simp only [run_bind, run_get, run_lift, block_eq_ok] at run
  obtain ⟨_, _, ⟨rfl, rfl⟩, holders, _, ⟨readHolders, rfl⟩, _, pruned, runEntries, _, _, ⟨rfl, rfl⟩,
    insts, _, ⟨readInsts, rfl⟩, _, checked, runChecks, d, _, ⟨heldBlock, rfl⟩, _, emptied,
    runInsts, run⟩ := run
  obtain rfl : checked = pruned := by
    refine forM_of_invariant (fun first second => second = first) (fun _ => True) (fun _ => rfl)
      (fun earlier later => later.trans earlier) (fun _ _ => trivial)
      (fun i _ first second _ runCheck => ?_) trivial runChecks
    exact (run_lift.mp runCheck).2.symm
  refine ⟨holders, checked, insts, d, emptied, readHolders, runEntries, readInsts, heldBlock,
    runInsts, ?_⟩
  cases parent : d.parent with
  | none =>
    rw [parent] at run
    exact run_bind.mpr ⟨(), emptied, run_pure.mpr ⟨rfl, rfl⟩, run⟩
  | some f =>
    rw [parent] at run
    exact run

/-- A block is given up, by the function that it is in and then by its owner. -/
theorem giveUpBlock_shrunk {seat : Option FuncId} (hs : p.Sound) (seated : p.seat? b = some seat)
    (run : (do
      seat.elim (pure ()) (detachBlock · b)
      releaseBlock b : Step Unit).run p = .ok (a, q)) :
    Shrunk pr p q ∧ p.Settles q (Pi.single b ((if seat.isSome then 1 else 0) - 1)) := by
  cases seat with
  | none =>
    obtain ⟨_, _, runNothing, runRelease⟩ := run_bind.mp run
    obtain ⟨-, rfl⟩ := run_pure.mp runNothing
    obtain ⟨shrunk, -, -, settles⟩ : Shrunk pr p q ∧ _ := releaseBlock_shrunk hs seated runRelease
    exact ⟨shrunk, settles.of_eq (by simp)⟩
  | some f =>
    obtain ⟨_, det, runDet, runRelease⟩ := run_bind.mp run
    obtain ⟨shrunkDetach, -, seats, settlesDetach⟩ : Shrunk pr p det ∧ _ :=
      detachBlock_shrunk hs seated runDet
    obtain ⟨shrunk, -, -, settles⟩ : Shrunk pr det q ∧ _ :=
      releaseBlock_shrunk (Shrunk.sound shrunkDetach hs) (by rw [seats, update_self]) runRelease
    refine ⟨shrunkDetach.trans shrunk, (settlesDetach.trans settles).of_eq ?_⟩
    rw [← Pi.single_add]
    simp

/-- A block and its thread go; a function that held the block gives it up first. -/
theorem eraseBlockNode_shrunk (hs : p.Sound) (run : (eraseBlockNode b).run p = .ok (a, q)) :
    Shrunk pr p q ∧ p.Settles q (Pi.single b (p.owned b - 1)) := by
  obtain ⟨holders, pruned, insts, d, emptied, -, runEntries, readInsts, hBlock, runInsts,
    run⟩ := eraseBlockNode_run run
  have prunes : p.Prunes pr pruned :=
    forM_of_invariant (Prunes pr) Sound .refl .trans Prunes.sound
      (fun holder _ first second hsFirst => dropEntriesFrom_prunes hsFirst) hs runEntries
  have hsPruned := prunes.sound hs
  obtain ⟨razed, -, settlesThread⟩ := dropThread_razed hsPruned readInsts runInsts
  have seatPruned : pruned.seat? b = some d.parent := by
    rw [seat?, hBlock, map_some]
  obtain ⟨shrunk, settles⟩ : Shrunk pr emptied q ∧ _ :=
    giveUpBlock_shrunk (razed.sound hsPruned)
      (by rw [(razed.dwindles hsPruned).seats, seatPruned]) run
  have owner : p.owned b = if d.parent.isSome then 1 else 0 := by
    rw [← prunes.rewires.owned_eq, owned, isOwned_of_seat seatPruned]
  refine ⟨((Redrawn.shrunk prunes.redrawn).trans razed.shrunk).trans shrunk,
    ((prunes.settles.trans settlesThread).trans settles).of_eq ?_⟩
  rw [owner, add_zero, zero_add]

end Step

/-! ### Placeholders -/

namespace Program

/-- Constants come, edges move to them, and the skeleton stays. -/
structure Plants (promise : Promise) (before after : Program) : Prop where
  grown : Grown promise before after
  skeleton : before.SameSkeleton after
  settles : before.Settles after 0

namespace Plants

theorem refl (s : Program) : s.Plants pr s :=
  ⟨.refl, fun _ => rfl, .refl _⟩

theorem trans (earlier : p.Plants pr q) (later : q.Plants pr r) : p.Plants pr r :=
  ⟨earlier.grown.trans later.grown, fun v => (later.skeleton v).trans (earlier.skeleton v),
    (earlier.settles.trans later.settles).of_eq (add_zero _)⟩

theorem sound (plants : p.Plants pr q) (hs : p.Sound) : q.Sound :=
  Grown.sound plants.grown hs

end Plants

theorem SameSkeleton.threads_eq (eq : p.SameSkeleton q) (hs : p.Sound) : q.threads = p.threads :=
  (hs.chains.of_same eq.link? eq.ends?).threads_eq

theorem link?_of_constant (c : p.isConstant v = true) : p.link? v = none := by
  have hi : p.isInst v = false := by
    simp only [isConstant, beq_iff_eq] at c
    simp [isInst, c]
  rwa [isInst_eq, isSome_eq_false_iff, isNone_iff_eq_none] at hi

/-- What stands in a block is an instruction. -/
theorem inst?_of_home? (standing : p.home? i ≠ none) : ∃ d, p.inst? i = some d := by
  cases h : p.inst? i with
  | none => simp [home?, link?, h] at standing
  | some d => exact ⟨d, rfl⟩

/-- What is on the thread of a block stands in a block. -/
theorem Sound.home?_of_mem_flatMap (hs : p.Sound) (mem : i ∈ blocks.flatMap p.threads) :
    p.home? i ≠ none := by
  obtain ⟨b, -, inThread⟩ := List.mem_flatMap.mp mem
  obtain ⟨l, h, -, holder⟩ := hs.chains.link_of_mem inThread
  simp [home?, h, holder, Holder.home?]

/-- An edge that moves from an instruction of some block to a constant of its type. -/
theorem EdgeMoved.plants (moved : p.EdgeMoved q e d new) (hs : p.Sound)
    (standing : p.home? d.value ≠ none) (c : p.isConstant new = true)
    (sameType : p.type? new = p.type? d.value) : p.Plants pr q := by
  obtain ⟨_, hInst⟩ := inst?_of_home? standing
  rw [inst?_eq_some_iff] at hInst
  have grows := moved.grows hs (by simp [isConstant, hInst, Payload.category])
  have links := moved.rewires.skeleton.link?
  refine ⟨.single (.shape (.redraw (.rebind e d new moved ?_ ?_ ⟨?_, ?_⟩)) grows),
    moved.rewires.skeleton, fun neat => ?_, fun _ => .of_rewires moved.rewires moved.spare⟩
  · intro wasBlock
    simp [isBlock, hInst, Payload.category] at wasBlock
  · intro old ty hOld hNew
    obtain rfl := some.inj (hOld.symm.trans (sameType ▸ hNew))
    have reg := hs.registry.nodes _ _ hOld
    exact (hs.registry.layered.equal_iff reg reg).mpr rfl
  · intro _ _ _ l hLink nested
    simp [home?, hLink, nested, Holder.home?] at standing
  · intro rule _ _ meets
    cases rule with
    | register => simp [Meets, isRegister, hInst, Payload.category] at meets
    | constant => exact c
    | writable =>
      obtain ⟨ty, pointee, h, points⟩ := meets
      exact ⟨ty, pointee, sameType.trans h, points⟩
  · refine neat.of_fewer (fun u => by rw [moved.operands]) fun outer edge reads => ?_
    simp only [nests, moved.wires, update_apply, links] at reads ⊢
    split at reads
    next => simp [Edge.outline, link?_of_constant c] at reads
    next => exact reads

/-- A new constant leaves the skeleton as it is. -/
theorem Added.skeleton_of_constant {c : Constant} (added : p.Added q v ty (.constant c)) :
    p.SameSkeleton q := by
  intro value
  rw [skeleton, skeleton, added.nodes, update_apply]
  split
  next eq => simp [eq, added.fresh, Node.fresh, Node.skeleton?, Payload.skeleton?]
  next => rfl

/-- A node is there, and its type, its content as a constant and the owners that it has to
spare are what they were. -/
structure Persists (before after : Program) (value : ValueId) : Prop where
  live : after.isLive value = true
  type : after.type? value = before.type? value
  content : after.constantOf? value = before.constantOf? value
  spare : after.spare value = before.spare value

theorem Persists.trans {first second : Program} (earlier : first.Persists second v)
    (later : second.Persists r v) : first.Persists r v :=
  ⟨later.live, later.type.trans earlier.type, later.content.trans earlier.content,
    later.spare.trans earlier.spare⟩

/-- A node that is the same and has as many owners persists. -/
theorem Persists.of_node (live : p.isLive v = true) (n : q.values.get? v = p.values.get? v)
    (spare : q.spare v = p.spare v) : p.Persists q v where
  live := by
    rw [isLive, Arena.contains_iff_get?] at live ⊢
    rwa [n]
  type := by rw [type?, type?, n]
  content := by rw [constantOf?, constantOf?, n]
  spare := spare

theorem Added.persists {payload : Payload} (added : p.Added q new ty payload)
    (live : p.isLive v = true) :
    p.Persists q v := by
  have ne : v ≠ new := by
    rintro rfl
    obtain ⟨n, found⟩ := Arena.contains_iff_get?.mp live
    simp [added.fresh] at found
  have n : q.values.get? v = p.values.get? v := by
    rw [added.nodes, update_of_ne ne]
  refine .of_node live n (spare_eq ?_ ?_ ?_)
  · simp only [payload?, n]
  · simp only [Program.usesOf, n]
  · rw [added.counts, update_of_ne ne]

theorem Dropped.persists {value : ValueId} (drop : p.Dropped q v) (live : p.isLive value = true)
    (ne : value ≠ v) : p.Persists q value :=
  .of_node live (drop.node_of_ne ne) (by rw [drop.spare, update_of_ne ne])

theorem one_lt_countOf (c : p.isConstant v = true) (spare : p.spare v = 1)
    (isRead : p.usesOf v ≠ []) :
    1 < p.countOf v := by
  rw [Program.spare, c, if_pos rfl] at spare
  have positive := List.length_pos_iff.mpr isRead
  omega

/-- An open constant of the type of an instruction comes, and nothing owns it yet but the one
who asked for it. -/
theorem Added.placeholder (added : p.Added q v ty (.constant .undefined)) (hs : p.Sound)
    (hType : p.type? i = some ty) :
    q.Sound ∧ q.isConstant v = true ∧ q.type? v = q.type? i ∧ q.spare v = 1 := by
  have reg := hs.registry.nodes i ty hType
  have ne : i ≠ v := by
    rintro rfl
    simp [Program.type?, added.fresh] at hType
  have unread : q.usesOf v = [] := by
    rw [added.usesOf]
    simp [Program.usesOf, added.fresh]
  refine ⟨hs.of_added added trivial reg (by simp [Payload.category]), ?_, ?_, ?_⟩
  · simp [isConstant, show q.payload? = _ from added.exchanged, Payload.category]
  · rw [added.type?, update_self, update_of_ne ne, hType]
  · rw [spare_of_unread unread, added.counts, update_self]
    rfl

/-- Some edges read another value; edges and nodes are the same otherwise. -/
structure Rerouted (before after : Program) (moved : List EdgeId) (new : ValueId) : Prop where
  edges : ∀ edge, after.edges.get? edge =
    if edge ∈ moved then (before.edges.get? edge).map fun data => { data with value := new }
    else before.edges.get? edge
  kinds : after.kind? = before.kind?
  operands : after.operandsOf = before.operandsOf
  nodes : ∀ value, before.isLive value = true → before.Persists after value

theorem Rerouted.refl (s : Program) (new : ValueId) : s.Rerouted s [] new :=
  ⟨fun _ => by simp, rfl, rfl, fun _ live => ⟨live, rfl, rfl, rfl⟩⟩

/-- One edge is moved first, then others. -/
theorem EdgeMoved.rerouted {m : Program} {rest : List EdgeId} (moved : p.EdgeMoved m e d new)
    (grows : p.values.Grows m.values) (away : e ∉ rest) (rerouted : m.Rerouted q rest new) :
    p.Rerouted q (e :: rest) new where
  edges edge := by
    rw [rerouted.edges, moved.edges]
    by_cases eq : edge = e
    · simp [eq, away, moved.held]
    · simp [eq]
  kinds := rerouted.kinds.trans moved.kinds
  operands := rerouted.operands.trans moved.operands
  nodes v live := by
    have liveMiddle : m.isLive v = true := grows.contains v live
    have later := rerouted.nodes v liveMiddle
    exact ⟨later.live, later.type.trans (moved.rewires.types v liveMiddle),
      later.content.trans (moved.rewires.contents v liveMiddle),
      later.spare.trans (congrFun moved.spare v)⟩

/-- Every constant has an owner for each of its uses. -/
def Covered (program : Program) : Prop :=
  ∀ value, program.isConstant value = true → 0 ≤ program.spare value

/-- What reads an instruction through some edges reads a new constant instead, which the edges
own. -/
structure Replanted (before after : Program) (moved : List EdgeId) (new : ValueId) : Prop
    extends before.Rerouted after moved new where
  fresh : moved ≠ [] → before.isLive new = false
  covered : before.Covered → after.Covered

end Program

namespace Step

theorem rebindAll_plants (hs : p.Sound) (standing : p.home? i ≠ none)
    (c : p.isConstant new = true) (sameType : p.type? new = p.type? i) (nd : edges.Nodup)
    (uses : ∀ e ∈ edges, ∃ d, p.wire? e = some d ∧ d.value = i)
    (run : (edges.forM (rebind · new)).run p = .ok (a, q)) :
    p.Plants pr q ∧ p.Rerouted q edges new ∧ q.isConstant new = true ∧ q.spare = p.spare ∧
        (edges ≠ [] → q.usesOf new ≠ []) := by
  induction edges generalizing p with
  | nil =>
    obtain rfl := run_forM_nil.mp run
    exact ⟨.refl _, .refl _ _, c, rfl, by simp⟩
  | cons e rest ih =>
    obtain ⟨m, run1, run'⟩ := run_forM_cons.mp run
    obtain ⟨away, nd'⟩ := List.nodup_cons.mp nd
    obtain ⟨d, moved⟩ := rebind_spec hs.stored hs.wired.placid hs.wired.uses run1
    obtain rfl : d.value = i := by
      obtain ⟨_, h, reads⟩ := uses e (by simp)
      rw [Program.wire?, moved.held, map_some, some.injEq] at h
      rw [← reads, ← h]
      rfl
    have plants : p.Plants pr m := moved.plants hs standing c sameType
    obtain ⟨_, hInst⟩ := Program.inst?_of_home? standing
    have grows := moved.grows hs (by
      simp [Program.isConstant, Program.inst?_eq_some_iff.mp hInst, Payload.category])
    have constm : m.isConstant new = true := by
      rw [Program.isConstant_iff] at c ⊢
      exact ⟨grows.contains new c.1, (moved.rewires.skeleton new).trans c.2⟩
    have instLive : m.isLive d.value = true := grows.contains _ (Program.isLive_of_inst? hInst)
    obtain ⟨plantsRest, reroutedRest, constantRest, spareRest, usesRest⟩ := ih
      (plants.sound hs) (by rwa [moved.rewires.skeleton.home?]) constm
      (by rw [moved.rewires.types _ instLive,
        moved.rewires.types _ (Program.isConstant_iff.mp constm).1, sameType]) nd'
      (fun edge mem => by
        have ne : edge ≠ e := fun eq => away (eq ▸ mem)
        rw [moved.wires, update_of_ne ne]
        exact uses edge (by simp [mem])) run'
    refine ⟨plants.trans plantsRest,
      moved.rerouted grows away reroutedRest, constantRest,
      spareRest.trans moved.spare, fun _ => ?_⟩
    by_cases last : rest = []
    · subst last
      obtain rfl := run_forM_nil.mp run'
      intro unread
      have perm := moved.uses new
      rw [unread, if_pos rfl] at perm
      have empty := perm.symm.eq_nil
      simp at empty
    · exact usesRest last

/-- What reads an instruction from outside some blocks reads a placeholder instead. -/
theorem rebindToPlaceholder_plants (hs : p.Sound) (standing : p.home? i ≠ none)
    (run : (rebindToPlaceholder blocks i).run p = .ok (a, q)) :
    p.Plants pr q ∧ ∃ moved new, p.usesOutside i blocks = .ok moved ∧
      p.Replanted q moved new := by
  obtain ⟨out, readOutside, run⟩ := run_look.mp run
  split at run
  next none =>
    obtain ⟨-, rfl⟩ := run_pure.mp run
    obtain rfl := List.isEmpty_iff.mp none
    exact ⟨.refl _, [], i, readOutside, .refl _ _, by simp, id⟩
  next some =>
    simp only [run_bind, run_lift, Program.typeOf_eq_ok] at run
    obtain ⟨ty, _, ⟨⟨n, hNode, isType⟩, rfl⟩, placeholder, planted, runAdd, _, moved, runReb,
      runDrop⟩ := run
    have hType : p.type? i = Option.some ty := by
      rw [Program.type?, hNode, Option.map_some, isType]
    have reg := hs.registry.nodes i ty hType
    have added := addNode_spec hs.stored runAdd
    have fresh := added.fresh
    obtain ⟨hsPlanted, c, sameType, one⟩ := added.placeholder hs hType
    -- the edges are uses of the instruction
    obtain ⟨nd, uses⟩ : out.Nodup ∧ ∀ e ∈ out, e ∈ p.usesOf i := by
      simp only [Program.usesOutside, bind_eq_ok, Program.usedBy_eq_ok,
        filterM_eq_ok] at readOutside
      obtain ⟨_, ⟨n, found, rfl⟩, -, rfl⟩ := readOutside
      rw [← Program.usesOf_eq found]
      exact ⟨(hs.wired.uses.nodup i).filter _, fun e => List.mem_of_mem_filter⟩
    obtain ⟨plants, rerouted, constantMoved, spare, isRead⟩ : planted.Plants pr moved ∧ _ :=
      rebindAll_plants hsPlanted (by rwa [added.skeleton_of_constant.home?]) c sameType
        nd (fun e mem => by
          rw [added.wire?]
          exact (hs.wired.uses.mem_iff i e).mp (uses e mem)) runReb
    have hsMoved := plants.sound hsPlanted
    have drop := dropHandle_spec hsMoved.stored runDrop
    -- every moved edge owns the placeholder, so giving it up does not take it away
    have shared : 1 < moved.countOf placeholder :=
      Program.one_lt_countOf constantMoved (by rw [spare, one]) (isRead (by simpa using some))
    have nodes : q.values.get? = moved.values.get? := by
      rcases drop.outcome with ⟨-, nodes⟩ | ⟨last, -⟩
      · exact nodes
      · omega
    have bare : moved.countOf placeholder = 1 → moved.Bare placeholder := by omega
    have grows : moved.values.Grows q.values := by
      refine drop.shrinks.grows fun v live => ?_
      rw [Arena.contains_iff_get?] at live ⊢
      rwa [nodes]
    have settlesAdded : p.Settles planted (Pi.single placeholder 1) := by
      refine .of_same (added.tally hs trivial) added.operandsOf added.wire? ?_
      exact added.skeleton_of_constant.link?
    have planting := rerouted.nodes placeholder (Program.isConstant_iff.mp c).1
    have persists : ∀ v, p.isLive v = true → p.Persists q v := by
      intro v live
      have livePlanted := added.persists live
      have liveMoved := rerouted.nodes v livePlanted.live
      have ne : v ≠ placeholder := by
        rintro rfl
        obtain ⟨_, found⟩ := Arena.contains_iff_get?.mp live
        simp [fresh] at found
      exact (livePlanted.trans liveMoved).trans (drop.persists liveMoved.live ne)
    refine ⟨⟨?_, fun v => ?_, ?_⟩, out, placeholder, readOutside,
      ⟨fun e => ?_, ?_, ?_, persists⟩, fun _ => ?_, fun covered v c => ?_⟩
    · exact (Relation.ReflTransGen.head (.grow placeholder ty _ added trivial
        (by simp [Payload.category]) reg (by simp [Payload.category])) plants.grown).tail
        (.shape (.drop placeholder drop bare) grows)
    · rw [Program.skeleton, nodes, ← Program.skeleton, plants.skeleton, added.skeleton_of_constant]
    · refine ((settlesAdded.trans plants.settles).trans (drop.settles bare)).of_eq ?_
      rw [add_zero, ← Pi.single_add]
      simp
    · rw [drop.edges, rerouted.edges, added.others]
    · have kinds : planted.kind? = p.kind? := by
        funext other
        simp only [Program.kind?, Program.inst?, show planted.payload? = _ from added.exchanged,
          update_apply]
        split
        next eq => simp [eq, Program.payload?, fresh, Payload.inst?]
        next => rfl
      rw [← kinds, ← rerouted.kinds]
      funext other
      simp only [kind?, inst?, payload?, nodes]
    · rw [← added.operandsOf, ← rerouted.operands]
      funext other
      simp only [operandsOf, nodes]
    · rw [isLive, Arena.contains, isSome_eq_false_iff, isNone_iff_eq_none]
      exact Arena.get?_eq_none_iff.mp fresh
    · obtain rfl | ne := eq_or_ne v placeholder
      · rw [drop.spare, update_self, planting.spare, one, Int.sub_self]
      · have livePlanted : planted.isLive v = true :=
          ((Moves.forM fun _ => rebind_rewires _ _) runReb).shrinks.contains v
            (drop.shrinks.contains v (isConstant_iff.mp c).1)
        rw [isLive, Arena.contains_iff_get?, added.nodes, update_of_ne ne] at livePlanted
        have kept := persists v (Arena.contains_iff_get?.mpr livePlanted)
        rw [kept.spare]
        apply covered
        simp only [isConstant_eq_constantOf?, kept.content] at c ⊢
        exact c

/-! ### Collected blocks -/

theorem detachRelease_shrunk (hs : p.Sound) (seated : p.seat? b = some (some f))
    (run : (do
      detachBlock f b
      releaseBlock b : Step Unit).run p = .ok (a, q)) :
    Shrunk pr p q ∧ p.Settles q 0 ∧ ∀ block, block ≠ b → q.seat? block = p.seat? block := by
  obtain ⟨_, det, runDet, runRelease⟩ := run_bind.mp run
  obtain ⟨shrunkDetach, -, seats, settlesDetach⟩ : Shrunk pr p det ∧ _ :=
    detachBlock_shrunk hs seated runDet
  obtain ⟨shrunk, -, frees, settles⟩ : Shrunk pr det q ∧ _ :=
    releaseBlock_shrunk (Shrunk.sound shrunkDetach hs) (by rw [seats, update_self]) runRelease
  refine ⟨shrunkDetach.trans shrunk, (settlesDetach.trans settles).of_eq ?_, fun block ne => ?_⟩
  · rw [← Pi.single_add]
    simp
  · rw [frees.others block ne, seats, update_of_ne ne]

theorem detachBlocks_shrunk (hs : p.Sound) (nd : blocks.Nodup)
    (seated : ∀ b ∈ blocks, p.seat? b = some (some f))
    (run : (blocks.forM fun b => do
      detachBlock f b
      releaseBlock b).run p = .ok (a, q)) : Shrunk pr p q ∧ p.Settles q 0 := by
  induction blocks generalizing p with
  | nil =>
    obtain rfl := run_forM_nil.mp run
    exact ⟨.refl, .refl _⟩
  | cons b rest ih =>
    obtain ⟨released, run1, run'⟩ := run_forM_cons.mp run
    obtain ⟨away, nd'⟩ := List.nodup_cons.mp nd
    obtain ⟨shrunk, settles, seats⟩ : Shrunk pr p released ∧ _ :=
      detachRelease_shrunk hs (seated b (by simp)) run1
    obtain ⟨shrunkRest, settlesRest⟩ := ih (Shrunk.sound shrunk hs) nd' (fun block mem => by
        rw [seats block fun eq => away (eq ▸ mem)]
        exact seated block (by simp [mem])) run'
    exact ⟨shrunk.trans shrunkRest, (settles.trans settlesRest).of_eq (add_zero 0)⟩

/-- Collecting some blocks of a function: first placeholders come, then the blocks go. -/
theorem collectBlocks_reaches {dead survivors : List BlockId} (hs : p.Sound) (nd : dead.Nodup)
    (seated : ∀ b ∈ dead, p.seat? b = some (some f))
    (run : (collectBlocks f dead survivors).run p = .ok (a, q)) :
    (∃ planted, Grown pr p planted ∧ Shrunk pr planted q) ∧ p.Settles q 0 := by
  unfold collectBlocks at run
  simp only [run_bind, run_get, run_lift] at run
  obtain ⟨_, _, ⟨rfl, rfl⟩, insts, _, ⟨readInsts, rfl⟩, _, planted, runPlant, _, pruned, runPrune,
    _, emptied, runDrop, runDet⟩ := run
  have isThreads := flatMap_threads_eq readInsts
  -- the instructions stand in their blocks while placeholders come
  have plants : p.Plants pr planted := by
    refine forM_of_invariant (Plants pr)
      (fun s => s.Sound ∧ ∀ i ∈ insts, s.home? i ≠ none) .refl .trans
      (fun plants start => ⟨plants.sound start.1, fun i mem => ?_⟩)
      (fun i mem first second start run =>
        (rebindToPlaceholder_plants start.1 (start.2 i mem) run).1)
      ⟨hs, fun i mem => ?_⟩ runPlant
    · rw [plants.skeleton.home?]
      exact start.2 i mem
    · exact hs.home?_of_mem_flatMap (isThreads ▸ mem)
  have hsPlanted := plants.sound hs
  have prunes : planted.Prunes pr pruned :=
    forM_of_invariant (Prunes pr) Sound .refl .trans Prunes.sound (fun b _ first second hsFirst =>
        forM_of_invariant (Prunes pr) Sound .refl .trans Prunes.sound
          (fun gone _ r fourth hsThird => dropEntriesFrom_prunes hsThird) hsFirst)
      hsPlanted runPrune
  have hsPruned := prunes.sound hsPlanted
  have isThreadsPruned : dead.flatMap pruned.threads = insts := by
    rw [prunes.rewires.threads_eq hsPlanted, plants.skeleton.threads_eq hs, isThreads]
  obtain ⟨razed, -, settlesDrop⟩ := dropInstructions_razed hsPruned
    (isThreadsPruned ▸ ordered_flatMap hsPruned.chains dead)
    (fun i mem => hsPruned.status?_of_mem_flatMap (isThreadsPruned ▸ mem)) runDrop
  have settlesThreads := settlesDrop (isThreadsPruned ▸ hsPruned.nodup_flatMap nd)
  obtain ⟨shrunk, settles⟩ : Shrunk pr emptied q ∧ _ :=
    detachBlocks_shrunk (razed.sound hsPruned) nd (fun b mem => by
      rw [(razed.dwindles hsPruned).seats, prunes.rewires.skeleton.seat?, plants.skeleton.seat?]
      exact seated b mem) runDet
  refine ⟨⟨planted, plants.grown,
    ((Redrawn.shrunk prunes.redrawn).trans razed.shrunk).trans shrunk⟩, ?_⟩
  exact (((plants.settles.trans prunes.settles).trans settlesThreads).trans settles).of_eq (by simp)

end Step

end ValueGraph
