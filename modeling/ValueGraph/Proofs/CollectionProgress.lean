import Mathlib
import ValueGraph.Proofs.Parting
import ValueGraph.Proofs.Recycling

namespace ValueGraph

open Program List Option

/-!
# Collection comes to its end

Collecting the unreachable blocks of a function meets no fault if every constant has an
owner for each of its uses, the unreachable blocks are used from within only, and what
is nested within them is read once, by what holds it.  Whatever stays and reads an
instruction of theirs has been given a placeholder before the instruction goes.
-/

variable {i : InstId} {e : EdgeId} {d : Edge} {v : ValueId} {s p planted : Program} {f : FuncId}
  {dead live : List BlockId}

namespace Program

/-- What is needed for some blocks to go without a fault: constants are covered, the blocks
are used from within, the readers of their instructions are in place, and what is nested
within is read once, by what holds it. -/
structure Collectable (program : Program) (dead : List BlockId) : Prop where
  covered : program.Covered
  contained : ∀ edge data, program.edges.get? edge = some data → data.value ∈ dead →
    program.Within (dead.flatMap program.threads) data.user
  placed : ∀ inst ∈ dead.flatMap program.threads, program.Placed inst
  lone : ∀ front root rest, dead.flatMap program.threads = front ++ root :: rest →
    ∀ outer inner, program.Within [root] outer → program.Holds outer inner →
      ∃ edge data, program.edges.get? edge = some data ∧ data.user = outer ∧ data.value = inner ∧
        ∀ other use, program.edges.get? other = some use → use.value = inner → other ≠ edge →
          program.Within front use.user

/-- What stands in a block, itself or through what it is nested under, is not finalized. -/
theorem Sound.ongoing_of_within (hs : s.Sound) (within : s.Within (dead.flatMap s.threads) i) :
    s.Ongoing i := by
  obtain ⟨root, mem, path⟩ := within
  rcases path.cases_tail with rfl | ⟨outer, -, l, h, holder⟩
  · have st := hs.status?_of_mem_flatMap mem
    obtain ⟨l, h, conn⟩ := map_eq_some_iff.mp st
    exact ⟨l, h, by simp [conn]⟩
  · exact ⟨l, h, by simp [hs.reparent_of_holder h holder]⟩

theorem Plants.ongoing_of_within (plants : p.Plants default planted) (hs : p.Sound)
    (within : p.Within (dead.flatMap p.threads) i) : planted.Ongoing i := by
  obtain ⟨l, hLink, st⟩ := hs.ongoing_of_within within
  exact ⟨l, by rw [plants.skeleton.link?, hLink], st⟩

section Planted

variable (plants : p.Plants default planted)
  (isPlanted : p.Planted planted (dead.flatMap p.threads) (p.Within (dead.flatMap p.threads)))

include isPlanted

theorem Flowing.listed_of_planted (flow : p.Flowing) (hs : p.Sound) (h : p.edges.get? e = some d)
    (within : p.Within (dead.flatMap p.threads) d.user) : e ∈ planted.operandsOf d.user := by
  rw [isPlanted.operands]
  obtain ⟨l, hLink, -⟩ := hs.ongoing_of_within within
  refine flow.listed e d.outline ?_ (isLive_of_category (isInst_of_link? hLink))
  exact wire?_of_get? h

include plants

/-- The instructions of the blocks can be taken apart in their order when placeholders have come,
since what is nested within them stands in no block itself and keeps its readers. -/
theorem Collectable.unravels (collectable : p.Collectable dead) (hs : p.Sound) (flow : p.Flowing)
    (rooted : p.Rooted) : planted.Unravels (dead.flatMap p.threads) := by
  have hsPlanted := plants.sound hs
  have holds_eq := plants.skeleton.holds_eq
  have within_eq : ∀ insts, planted.Within insts = p.Within insts := by
    intro insts
    funext inst
    rw [Within, Within, holds_eq]
  constructor
  case sound => exact hsPlanted
  case covered => exact isPlanted.covered collectable.covered
  case rooted => exact rooted.mono fun outer inner holds => holds_eq ▸ holds
  case ongoing =>
    intro inst within
    rw [within_eq] at within
    exact plants.ongoing_of_within hs within
  case lone =>
    intro front root rest split outer inner within holds
    rw [within_eq] at within
    rw [holds_eq] at holds
    have inDead : ∀ insts ⊆ dead.flatMap p.threads, ∀ inst, p.Within insts inst →
        p.Within (dead.flatMap p.threads) inst := fun _ all _ some => some.mono all
    have withinDead := inDead [root] (by simp [split]) outer within
    obtain ⟨e, d, h, rfl, isValue, others⟩ :=
      collectable.lone front root rest split outer inner within holds
    have hPlanted := isPlanted.kept e d h fun _ => withinDead
    refine ⟨e, flow.listed_of_planted isPlanted hs h withinDead, ?_, fun other isUse ne => ?_⟩
    · exact (hsPlanted.wired.uses.mem_iff inner e).mpr ⟨d.outline, wire?_of_get? hPlanted, isValue⟩
    · obtain ⟨use, hUse, reads⟩ := hsPlanted.wired.edge_of_use isUse
      obtain ⟨hBefore, -⟩ :=
        isPlanted.edge_before other use hUse (reads ▸ isLive_of_category holds.isInst)
      have earlier := others other use hBefore reads ne
      rw [within_eq]
      exact ⟨use.user, earlier,
        flow.listed_of_planted isPlanted hs hBefore (inDead front (by simp [split]) _ earlier)⟩

/-- What is read from within only, apart from what has been given a placeholder, is read by the
instructions of the blocks and what is nested within them when placeholders have come. -/
theorem exists_reader_of_planted (hs : p.Sound) (flow : p.Flowing) (live : p.isLive v = true)
    (inside : ∀ e d, p.edges.get? e = some d → d.value = v → (v ∈ dead.flatMap p.threads →
      p.Within (dead.flatMap p.threads) d.user) → p.Within (dead.flatMap p.threads) d.user) :
    ∀ e ∈ planted.usesOf v, ∃ user, planted.Within (dead.flatMap p.threads) user ∧
      e ∈ planted.operandsOf user := by
  intro e isUse
  obtain ⟨d, h, rfl⟩ := (plants.sound hs).wired.edge_of_use isUse
  obtain ⟨hBefore, unmoved⟩ := isPlanted.edge_before e d h live
  have within := inside e d hBefore rfl unmoved
  refine ⟨d.user, ?_, flow.listed_of_planted isPlanted hs hBefore within⟩
  rwa [Within, plants.skeleton.holds_eq]

end Planted

end Program

namespace Step

/-- Blocks that can be collected are. -/
theorem collectBlocks_succeeds {d : Function} (collectable : p.Collectable dead)
    (parted : p.Parted f dead live) (hs : p.Sound) (flow : p.Flowing) (rooted : p.Rooted)
    (h : p.function? f = some d) : (collectBlocks f dead live).Succeeds p := by
  have standing : ∀ i ∈ dead.flatMap p.threads, p.home? i ≠ none := fun i => hs.home?_of_mem_flatMap
  apply Succeeds.get_bind
  apply Succeeds.lift_bind (hs.instructionsOf_eq_ok fun b => parted.isBlock)
  refine .bind (plantAll_succeeds hs rooted standing collectable.placed)
    fun _ planted runPlant => ?_
  obtain ⟨plants, isPlanted⟩ : p.Plants default planted ∧ _ :=
    plantAll_planted hs rooted (fun _ => Iff.rfl) standing runPlant
  have skeleton := plants.skeleton
  have hsPlanted := plants.sound hs
  -- there are no entries to drop
  have idle := dropEntries_run parted hs plants isPlanted
  refine .bind ⟨_, _, idle⟩ fun _ pruned runPrune => ?_
  obtain rfl : planted = pruned := by
    rw [idle, Except.ok.injEq, Prod.mk.injEq] at runPrune
    exact runPrune.2
  have ranked : planted.Ranked (dead.flatMap p.threads) :=
    skeleton.threads_eq hs ▸ hsPlanted.ranked dead
  have unravels := collectable.unravels plants isPlanted hs flow rooted
  refine .bind (dropInstructions_succeeds unravels ranked (hs.nodup_flatMap parted.nodup) ?_)
    fun _ emptied runDrop => ?_
  · intro inst mem
    obtain ⟨_, hInst⟩ := inst?_of_home? (standing inst mem)
    exact exists_reader_of_planted plants isPlanted hs flow (isLive_of_inst? hInst)
      fun _ _ _ _ unmoved => unmoved mem
  obtain ⟨_, cleared, runFin, runRelease⟩ := run_bind.mp runDrop
  obtain ⟨razed, threadsCleared, settled, -⟩ :=
    finalizeAll_razed hsPlanted ranked.ordered ranked.shielded runFin
  have hsCleared := razed.sound hsPlanted
  obtain ⟨razedDrop, threadsDrop, -⟩ := dropAll_razed hsCleared settled runRelease
  have hsEmptied := razedDrop.sound hsCleared
  have razedAll := razed.trans razedDrop hsPlanted
  have hEmptied : emptied.function? f = some d := by
    rw [(razedAll.dwindles hsPlanted).bodies, skeleton.function?, h]
  have vacant := parted.vacant hs plants razedAll (threadsDrop.trans threadsCleared)
  -- the blocks are empty by now, and nothing uses them
  refine vacateBlocks_succeeds hsEmptied parted.nodup hEmptied
    (fun b mem => (vacant b mem).1) (fun b mem => (vacant b mem).2) fun b mem => ?_
  refine unravels.usesOf_eq_nil razedAll (fun inst mem ongoing => ?_)
    (exists_reader_of_planted plants isPlanted hs flow (isLive_of_category (parted.isBlock mem))
      fun e d h reads _ => collectable.contained e d h (reads ▸ mem))
  exact (settled inst mem).not_ongoing ((razedDrop.dwindles hsCleared).ongoing ongoing)

end Step

/-! ### Readings -/

namespace Program

variable {b : BlockId}

/-- A block of a function cannot be reached from its entry. -/
def Unreachable (program : Program) (function : FuncId) (block : BlockId) : Prop :=
  ∃ blocks reachable, program.blocks function = .ok blocks ∧
    program.reachableBlocks function = .ok reachable ∧ block ∈ blocks ∧ block ∉ reachable

/-- An instruction stands in an unreachable block of a function, itself or through what it is
nested under. -/
def Stranded (program : Program) (function : FuncId) (inst : InstId) : Prop :=
  ∃ block, program.Unreachable function block ∧ program.enclosingBlock? inst = .ok (some block)

/-- One instruction goes before another when the unreachable blocks of a function are collected:
the instruction of these blocks that it is or is nested within comes earlier. -/
def GoesBefore (program : Program) (function : FuncId) (first second : InstId) : Prop :=
  ∃ blocks reachable front root rest, program.blocks function = .ok blocks ∧
    program.reachableBlocks function = .ok reachable ∧
    program.instructionsOf (blocks.filter (!reachable.contains ·)) = .ok (front ++ root :: rest) ∧
    program.Within front first ∧ program.Within [root] second

theorem within_singleton {root : InstId} :
    s.Within [root] i ↔ Relation.ReflTransGen s.Holds root i := by
  simp [Within]

/-- What is nested within instructions of some blocks is nested within one of them. -/
theorem Sound.root_unique (hs : s.Sound) {root other : InstId}
    (mem : root ∈ dead.flatMap s.threads) (memOther : other ∈ dead.flatMap s.threads)
    (path : Relation.ReflTransGen s.Holds root i)
    (again : Relation.ReflTransGen s.Holds other i) : root = other := by
  have free : ∀ inst ∈ dead.flatMap s.threads, ∀ outer, ¬ s.Holds outer inst := by
    rintro inst mem outer ⟨l, h, holder⟩
    have conn := hs.status?_of_mem_flatMap mem
    simp [status?, h, hs.reparent_of_holder h holder] at conn
  induction path with
  | refl =>
    rcases again.cases_tail with same | ⟨outer, -, holds⟩
    · exact same
    · exact absurd holds (free root mem outer)
  | tail _ last ih =>
    rcases again.cases_tail with rfl | ⟨outer, path, holds⟩
    · exact absurd last (free _ memOther _)
    · obtain rfl := holds.unique last
      exact ih path

theorem unreachable_iff {d : Function} {set : List BlockId} (h : s.function? f = some d)
    (read : s.reachableSet f = .ok set) :
    s.Unreachable f b ↔ b ∈ d.blocks.filter (!set.contains ·) := by
  have readBlocks := blocks_eq_ok h
  have readReachable := reachableBlocks_eq_ok h read
  constructor
  · rintro ⟨blocks, reachable, isBlocks, isReachable, mem, absent⟩
    obtain rfl := Except.ok.inj (readBlocks.symm.trans isBlocks)
    obtain rfl := Except.ok.inj (readReachable.symm.trans isReachable)
    simp_all
  · intro mem
    refine ⟨_, _, readBlocks, readReachable, List.mem_of_mem_filter mem, ?_⟩
    simp_all

/-- What goes before something within an instruction is within those that come earlier. -/
theorem GoesBefore.within {d : Function} {set : List BlockId} {front rest : List InstId}
    {root first second : InstId} (goes : s.GoesBefore f first second) (hs : s.Sound)
    (h : s.function? f = some d) (read : s.reachableSet f = .ok set)
    (isDead : d.blocks.filter (!set.contains ·) = dead) (nd : dead.Nodup)
    (isBlock : ∀ b ∈ dead, s.isBlock b = true)
    (split : dead.flatMap s.threads = front ++ root :: rest) (within : s.Within [root] second) :
    s.Within front first := by
  obtain ⟨blocks, reachable, ahead, other, behind, readBlocks, readReachable, readInsts, earlier,
    withinOther⟩ := goes
  obtain rfl := Except.ok.inj ((blocks_eq_ok h).symm.trans readBlocks)
  obtain rfl := Except.ok.inj ((reachableBlocks_eq_ok h read).symm.trans readReachable)
  have sameDead : d.blocks.filter (!(d.blocks.filter (set.contains ·)).contains ·) = dead := by
    rw [← isDead]
    refine filter_congr fun b mem => ?_
    simp [mem]
  rw [sameDead, hs.instructionsOf_eq_ok isBlock, split, Except.ok.injEq] at readInsts
  rw [within_singleton] at within withinOther
  have mem : root ∈ dead.flatMap s.threads := by simp [split]
  have memOther : other ∈ dead.flatMap s.threads := by simp [split, readInsts]
  obtain rfl := hs.root_unique mem memOther within withinOther
  have once : (front ++ root :: rest).Nodup := split ▸ hs.nodup_flatMap nd
  rwa [← front_eq_of_nodup once readInsts]

theorem Sound.exists_users (hs : s.Sound) (h : s.edges.get? e = some d) :
    ∃ users, s.users d.value = .ok users ∧ d.user ∈ users := by
  obtain ⟨a, read⟩ := hs.users_answers (hs.wired.uses.isLive h)
  refine ⟨a, read, ?_⟩
  simp only [users, bind_eq_ok, usedBy_eq_ok, mapM_eq_ok, pure_eq_ok] at read
  obtain ⟨_, ⟨n, found, rfl⟩, told, each, rfl⟩ := read
  rw [mem_eraseDups]
  have isUse : e ∈ n.usedBy := by
    rw [← usesOf_eq found, hs.wired.uses.mem_iff]
    exact ⟨d.outline, wire?_of_get? h, rfl⟩
  generalize n.usedBy = edges at each isUse
  induction each with
  | nil => simp at isUse
  | cons first _ ih =>
    rcases mem_cons.mp isUse with rfl | inRest
    · simp only [edgeUser, bind_eq_ok, pure_eq_ok, edge_eq_ok] at first
      obtain ⟨data, h', rfl⟩ := first
      obtain rfl := mem_unique h h'
      exact mem_cons_self
    · exact mem_cons_of_mem _ (ih inRest)

end Program

/-- Collecting the unreachable blocks of a function comes to its end if every constant has as
many owning handles as uses, and every use of an unreachable block is by an instruction in
an unreachable block.  For this, the block that encloses each reader of an instruction in
an unreachable block has to be known, and what is nested there has to be read once by the write
that holds it, and otherwise by what goes before that write; other instructions may be read by
anything. -/
theorem collection_completes
    {name : String}
    {settings : Settings}
    {operations : List Operation}
    {program : Program}
    {function : FuncId}
    (run : (Program.initial name settings).runAll? operations = some program)
    (short : operations.length < 2 ^ 32)
    (isFunction : program.isFunction function = true)
    (covered : ∀ constant edges, program.isConstant constant = true →
      program.usedBy constant = .ok edges →
        ∃ count, program.values.count? constant = some count ∧ edges.length ≤ count)
    (contained : ∀ block users, program.Unreachable function block →
      program.users block = .ok users → ∀ user ∈ users, program.Stranded function user)
    (placed : ∀ block insts inst users, program.Unreachable function block →
      program.instructions block = .ok insts → inst ∈ insts → program.users inst = .ok users →
        ∀ user ∈ users, program.isInst user = true →
        ∃ home, program.enclosingBlock? user = .ok home)
    (lone : ∀ inner outer, program.nestingParent? inner = .ok (some outer) →
      program.Stranded function outer → ∃ edges edge, program.usedBy inner = .ok edges ∧
        edge ∈ edges ∧ program.edgeUser edge = .ok outer ∧ ∀ other ∈ edges, other ≠ edge →
          ∃ user, program.edgeUser other = .ok user ∧ program.GoesBefore function user outer) :
    ∃ count after, collectGarbage function program = .done count after := by
  have sound := sound_of_runAll? run
  have charted := charted_of_runAll? run short
  have rooted := rooted_of_runAll? run
  rw [isFunction_eq, Option.isSome_iff_exists] at isFunction
  obtain ⟨data, held⟩ := isFunction
  obtain ⟨set, readSet, -⟩ := reachableSet_spec sound charted.flowing charted.keyed held
  have parted := parted_of_reachable sound charted.flowing charted.keyed held readSet
  have isDead : ∀ block, program.Unreachable function block ↔
      block ∈ data.blocks.filter (!set.contains ·) :=
    fun block => unreachable_iff held readSet
  have isStranded : ∀ inst, program.Stranded function inst ↔
      program.Within ((data.blocks.filter (!set.contains ·)).flatMap program.threads) inst := by
    intro inst
    rw [sound.within_iff rooted]
    simp only [Stranded, isDead]
  have collectable : program.Collectable (data.blocks.filter (!set.contains ·)) := by
    constructor
    case covered =>
      intro constant isConstant
      obtain ⟨node, found⟩ := Arena.contains_iff_get?.mp (isConstant_iff.mp isConstant).1
      obtain ⟨count, held, enough⟩ := covered constant node.usedBy isConstant
        (usedBy_eq_ok.mpr ⟨node, found, rfl⟩)
      rw [spare, if_pos isConstant, usesOf_eq found, countOf, held, Option.getD_some]
      omega
    case contained =>
      intro edge use heldEdge member
      obtain ⟨users, readUsers, isUser⟩ := sound.exists_users heldEdge
      rw [← isStranded]
      exact contained use.value users ((isDead _).mpr member) readUsers use.user isUser
    case placed =>
      rintro inst member edge use heldEdge rfl isInst
      obtain ⟨block, isBlockDead, inThread⟩ := List.mem_flatMap.mp member
      obtain ⟨users, readUsers, isUser⟩ := sound.exists_users heldEdge
      exact placed block _ use.value users ((isDead _).mpr isBlockDead)
        (sound.chains.instructions_eq_ok (parted.isBlock isBlockDead)) inThread readUsers use.user
        isUser isInst
    case lone =>
      intro front root rest split outer inner within holds
      have stranded := (isStranded outer).mpr (within.mono (by rw [split]; simp))
      obtain ⟨edges, edge, readUses, isUse, readUser, others⟩ :=
        lone inner outer (nestingParent?_eq_ok.mpr holds) stranded
      obtain ⟨node, found, rfl⟩ := usedBy_eq_ok.mp readUses
      rw [← usesOf_eq found] at isUse others
      obtain ⟨use, heldEdge, reads⟩ := sound.wired.edge_of_use isUse
      simp only [edgeUser, bind_eq_ok, pure_eq_ok, edge_eq_ok] at readUser others
      obtain ⟨_, again, isOuter⟩ := readUser
      obtain rfl := Option.mem_unique heldEdge again
      refine ⟨edge, use, heldEdge, isOuter, reads, fun other reader heldOther readsToo ne => ?_⟩
      have isOther : other ∈ program.usesOf inner :=
        (sound.wired.uses.mem_iff inner other).mpr
          ⟨reader.outline, wire?_of_get? heldOther, readsToo⟩
      obtain ⟨_, ⟨_, heldAgain, rfl⟩, goes⟩ := others other isOther ne
      obtain rfl := Option.mem_unique heldOther heldAgain
      exact goes.within sound held readSet rfl parted.nodup (fun _ => parted.isBlock) split within
  obtain ⟨_, after, runCollect⟩ :=
    Step.collectBlocks_succeeds collectable parted sound charted.flowing rooted held
  by_cases none : data.blocks.filter (!set.contains ·) = []
  · exact ⟨_, program, (collectGarbage_eq_done held readSet).mpr ⟨rfl, by rw [if_pos none]⟩⟩
  · exact ⟨_, after, (collectGarbage_eq_done held readSet).mpr ⟨rfl, by rwa [if_neg none]⟩⟩

namespace Program

/-- Whether something holds of the handle in every slot. -/
def checkNodes (program : Program) (check : Program → ValueId → Bool) : Bool :=
  (List.range program.values.slots.size).all fun index =>
    (program.values.slots[index]?).all fun slot => check program ⟨index, slot.generation⟩

theorem check_of_checkNodes {check : Program → ValueId → Bool} (checked : s.checkNodes check = true)
    (live : s.isLive v = true) : check s v = true := by
  obtain ⟨entry, found⟩ := isSome_iff_exists.mp live
  have bound := Arena.index_lt_of_lookup? found
  rw [checkNodes, List.all_eq_true] at checked
  have inSlot := checked v.index (mem_range.mpr bound)
  rwa [Arena.lookup?_eq_some_iff.mp found, all_some] at inSlot

end Program

/-- A sum in a block that leads to itself only is read by what is nested under a write in the
entry of the function; a product is nested under a write next to the sum. -/
def strandedSum : List Operation :=
  [.requestType (.function ⟨.void, [], false⟩), .addFunction "f" ⟨13⟩, .enableRegisters ⟨0, 0⟩,
    .allocateRegister ⟨0, 0⟩ ⟨5⟩, .constSigned ⟨5⟩ 1, .buildBinary .add ⟨2, 0⟩ ⟨2, 0⟩,
    .buildBinary .add ⟨3, 0⟩ ⟨2, 0⟩, .buildRegWrite ⟨1, 0⟩ ⟨4, 0⟩, .addBlock ⟨0, 0⟩, .buildRet none,
    .pushBack ⟨6, 0⟩ ⟨7, 0⟩, .pushFront ⟨6, 0⟩ ⟨5, 0⟩, .addBlock ⟨0, 0⟩, .buildBr ⟨8, 0⟩,
    .pushBack ⟨8, 0⟩ ⟨9, 0⟩, .pushFront ⟨8, 0⟩ ⟨3, 0⟩, .buildBinary .mul ⟨2, 0⟩ ⟨2, 0⟩,
    .buildRegWrite ⟨1, 0⟩ ⟨10, 0⟩, .pushFront ⟨8, 0⟩ ⟨11, 0⟩]

/-- A sum is nested under a write in a block that nothing leads to, and the entry of the
function reads it as well. -/
def sharedNestedSum : List Operation :=
  [.requestType (.function ⟨.void, [], false⟩), .addFunction "f" ⟨13⟩, .enableRegisters ⟨0, 0⟩,
    .allocateRegister ⟨0, 0⟩ ⟨5⟩, .constSigned ⟨5⟩ 1, .buildBinary .add ⟨2, 0⟩ ⟨2, 0⟩,
    .buildRegWrite ⟨1, 0⟩ ⟨3, 0⟩, .buildBinary .add ⟨3, 0⟩ ⟨2, 0⟩, .addBlock ⟨0, 0⟩, .buildRet none,
    .pushBack ⟨6, 0⟩ ⟨7, 0⟩, .pushFront ⟨6, 0⟩ ⟨5, 0⟩, .addBlock ⟨0, 0⟩, .buildUnreachable,
    .pushBack ⟨8, 0⟩ ⟨9, 0⟩, .pushFront ⟨8, 0⟩ ⟨4, 0⟩]

/-- What both programs have in common: the second block of the function cannot be reached,
and the only constant has an owner for each of its uses. -/
theorem unreachable_and_covered (reads : s.blocks ⟨0, 0⟩ = .ok [⟨6, 0⟩, ⟨8, 0⟩] ∧
      s.reachableBlocks ⟨0, 0⟩ = .ok [⟨6, 0⟩] ∧
      s.checkNodes (fun s v => !s.isConstant v || v == ⟨2, 0⟩) = true ∧
      (s.values.count? ⟨2, 0⟩).any (((s.usedBy ⟨2, 0⟩).toOption.getD []).length ≤ ·) = true) :
    (∀ b, s.Unreachable ⟨0, 0⟩ b ↔ b = ⟨8, 0⟩) ∧ ∀ c edges, s.isConstant c = true →
        s.usedBy c = .ok edges →
          ∃ count, s.values.count? c = some count ∧ edges.length ≤ count := by
  obtain ⟨blocks, reachable, constants, enough⟩ := reads
  refine ⟨fun b => ⟨?_, ?_⟩, fun c edges isConstant readUses => ?_⟩
  · rintro ⟨_, _, readBlocks, readReachable, mem, absent⟩
    obtain rfl := Except.ok.inj (blocks.symm.trans readBlocks)
    obtain rfl := Except.ok.inj (reachable.symm.trans readReachable)
    simp_all
  · rintro rfl
    exact ⟨_, _, blocks, reachable, by decide, by decide⟩
  · have only := check_of_checkNodes constants (isConstant_iff.mp isConstant).1
    simp only [isConstant, Bool.not_true, Bool.false_or, beq_iff_eq] at only
    subst only
    obtain ⟨count, h, isEnough⟩ := (Option.any_eq_true ..).mp enough
    refine ⟨count, h, ?_⟩
    simpa [readUses, Except.toOption] using isEnough

/-- The block of the stranded sum is collected. -/
theorem stranded_sum_is_collected :
    ∃ program, (Program.initial "m" .standard).runAll? strandedSum = some program ∧
      program.Unreachable ⟨0, 0⟩ ⟨8, 0⟩ ∧
      program.instructions ⟨8, 0⟩ = .ok [⟨11, 0⟩, ⟨3, 0⟩, ⟨9, 0⟩] ∧
      program.users ⟨3, 0⟩ = .ok [⟨4, 0⟩] ∧
      program.enclosingBlock? ⟨4, 0⟩ = .ok (some ⟨6, 0⟩) ∧
      ∃ count after, collectGarbage ⟨0, 0⟩ program = .done count after := by
  refine exists_runAll? fun program run => ?_
  obtain ⟨insts, readers, home, isFunction, intoDead, homeJump, unread, unreadJump, homeWrite,
    lone⟩ :
      program.instructions ⟨8, 0⟩ = .ok [⟨11, 0⟩, ⟨3, 0⟩, ⟨9, 0⟩] ∧
      program.users ⟨3, 0⟩ = .ok [⟨4, 0⟩] ∧ program.enclosingBlock? ⟨4, 0⟩ = .ok (some ⟨6, 0⟩) ∧
      program.isFunction ⟨0, 0⟩ = true ∧ program.users ⟨8, 0⟩ = .ok [⟨9, 0⟩] ∧
      program.enclosingBlock? ⟨9, 0⟩ = .ok (some ⟨8, 0⟩) ∧ program.users ⟨11, 0⟩ = .ok [] ∧
      program.users ⟨9, 0⟩ = .ok [] ∧ program.enclosingBlock? ⟨5, 0⟩ = .ok (some ⟨6, 0⟩) ∧
      program.usedBy ⟨10, 0⟩ = .ok [⟨10, 0⟩] ∧ program.edgeUser ⟨10, 0⟩ = .ok ⟨11, 0⟩ := by
    apply holds_of_runAll? run
  obtain ⟨isDead, covered⟩ := unreachable_and_covered (s := program) (by
    apply holds_of_runAll? run)
  refine ⟨(isDead _).mpr rfl, insts, readers, home,
    collection_completes run (by decide) isFunction covered ?_ ?_ ?_⟩
  · intro block users dead readUsers user member
    rw [(isDead block).mp dead, intoDead] at readUsers
    obtain rfl := Except.ok.inj readUsers
    rw [List.mem_singleton.mp member]
    exact ⟨⟨8, 0⟩, (isDead _).mpr rfl, homeJump⟩
  · intro block found inst users dead readInsts member readUsers user isUser _
    rw [(isDead block).mp dead, insts] at readInsts
    obtain rfl := Except.ok.inj readInsts
    simp only [List.mem_cons, List.not_mem_nil, or_false] at member
    rcases member with rfl | rfl | rfl
    · obtain rfl := Except.ok.inj (unread.symm.trans readUsers)
      simp at isUser
    · obtain rfl := Except.ok.inj (readers.symm.trans readUsers)
      exact ⟨_, List.mem_singleton.mp isUser ▸ home⟩
    · obtain rfl := Except.ok.inj (unreadJump.symm.trans readUsers)
      simp at isUser
  · intro inner outer nested ⟨block, dead, enclosing⟩
    have holders : program.checkNodes (fun program value =>
        ((program.nestingParent? value).toOption.getD none).all fun write =>
          (value, write) ∈ ([(⟨4, 0⟩, ⟨5, 0⟩), (⟨10, 0⟩, ⟨11, 0⟩)] : List (ValueId × ValueId))) =
        true := by
      apply holds_of_runAll? run
    have holder := check_of_checkNodes holders
      (isLive_of_category (nestingParent?_eq_ok.mp nested).isInst)
    simp only [nested, Except.toOption, Option.getD_some, Option.all_some, decide_eq_true_eq,
      List.mem_cons, List.not_mem_nil, or_false, Prod.mk.injEq] at holder
    rcases holder with ⟨rfl, rfl⟩ | ⟨rfl, rfl⟩
    · rw [(isDead block).mp dead, homeWrite] at enclosing
      simp at enclosing
    · exact ⟨[⟨10, 0⟩], ⟨10, 0⟩, lone.1, List.mem_singleton_self _, lone.2, by simp⟩

/-- A sum that is nested in an unreachable block and read from outside is destroyed while it
is read. -/
theorem shared_nested_sum_faults :
    ∃ program, (Program.initial "m" .standard).runAll? sharedNestedSum = some program ∧
      program.isFunction ⟨0, 0⟩ = true ∧
      (∀ constant edges, program.isConstant constant = true → program.usedBy constant = .ok edges →
          ∃ count, program.values.count? constant = some count ∧ edges.length ≤ count) ∧
      (∀ block users, program.Unreachable ⟨0, 0⟩ block → program.users block = .ok users →
        ∀ user ∈ users, program.Stranded ⟨0, 0⟩ user) ∧
      collectGarbage ⟨0, 0⟩ program = .faulted (.corruption (.destroyed "add #3" ["add #5"])) := by
  refine exists_runAll? fun program run => ?_
  obtain ⟨isDead, covered⟩ := unreachable_and_covered (s := program) (by
    apply holds_of_runAll? run)
  obtain ⟨isFunction, unused⟩ : program.isFunction ⟨0, 0⟩ = true ∧
      program.users ⟨8, 0⟩ = .ok [] := by
    apply holds_of_runAll? run
  refine ⟨isFunction, covered, fun block users dead readUsers user member => ?_,
    of_decide_eq_true ?_⟩
  · rw [(isDead block).mp dead, unused] at readUsers
    obtain rfl := Except.ok.inj readUsers
    simp at member
  · apply holds_of_runAll? run

/-- A block is collected whose switch has the handle of one that left an edge behind.  The block is
gone, and still counted among the predecessors of the block that is left. -/
theorem collected_block_stays_predecessor :
    ∃ operations program after,
      (Program.initial "m" .standard).runAll? operations = some program ∧
      program.isFunction ⟨0, 0⟩ = true ∧ collectGarbage ⟨0, 0⟩ program = .done 1 after ∧
      (after.blocks ⟨0, 0⟩, after.predecessors ⟨1, 0⟩) = (.ok [⟨1, 0⟩], .ok [⟨2, 0⟩]) := by
  obtain ⟨operations, program, run, isFunction, reads⟩ : ∃ operations program,
      (Program.initial "m" .standard).runAll? operations = some program ∧
      program.isFunction ⟨0, 0⟩ = true ∧
      (collectGarbage ⟨0, 0⟩ program).reading? (fun after =>
        (after.blocks ⟨0, 0⟩, after.predecessors ⟨1, 0⟩)) =
        some (1, (.ok [⟨1, 0⟩], .ok [⟨2, 0⟩])) := by
    apply exists_runAll?_of_churn strayCase (namesake ++ [.replaceUses ⟨3, 0⟩ ⟨1, 0⟩]) 6
  obtain ⟨after, done, left⟩ := Outcome.exists_done _ reads
  exact ⟨operations, program, after, run, isFunction, done, left⟩

end ValueGraph
