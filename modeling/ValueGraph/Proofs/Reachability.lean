import Mathlib
import ValueGraph.Proofs.Auditing

namespace ValueGraph

open List Option Or

/-!
# Reachable blocks

A block keeps those reachable that control goes on to and those that its phis have
entries for.  Both traversals of the flow graph come to an end within their bounds,
because they never take up a block twice, and the reachable set of a function is what
can be reached from its entry step by step.
-/

variable {s : Program} {i phi : InstId} {edges : List EdgeId} {f : FuncId} {d : Function}
  {blocks : List BlockId} {fuel : Nat} {b : BlockId} {visit : Visit}

namespace Program

variable {p q : Program} {pr : Promise} {e : EdgeId} {d : Edge}

/-! ### Entries of phis are for blocks -/

/-- What a phi has an entry for is a block, as long as it is there. -/
def Keyed (program : Program) : Prop :=
  ∀ edge data block, program.wire? edge = some data → data.slot = .keyed block →
    program.isLive block = true → program.isBlock block = true

/-- What a phi has an entry for has been given out. -/
def KeysKnown (program : Program) : Prop :=
  ∀ edge data block, program.wire? edge = some data → data.slot = .keyed block →
    program.values.Known block

/-- Entries that are there after nodes have come were there before, or they are for
blocks. -/
theorem Raises.key_of_wire (raises : p.Raises pr q) (hs : p.Sound) (h : q.wire? e = some d)
    (keyed : d.slot = .keyed b) :
    (∃ old, p.wire? e = some old ∧ old.slot = .keyed b) ∨ q.isBlock b = true := by
  cases raises with
  | grow v ty payload added => exact inl ⟨d, added.wire? ▸ h, keyed⟩
  | build i ty kind built =>
    obtain ⟨started, added, joined⟩ := built.added
    rcases Joined.stems joined h with hBefore | ⟨-, keys⟩
    · exact inl ⟨d, added.wire? ▸ hBefore, keyed⟩
    · exact inr (keys b keyed)
  | shape shapes grows =>
    rcases shapes.stems hs h with ⟨old, hOld, -, isSlot⟩ | ⟨-, keys⟩
    · exact inl ⟨old, hOld, isSlot.trans keyed⟩
    · have hb := keys b keyed
      rw [← ((shapes.wanes.waxes grows).sorts b (isLive_of_category hb)).blocks] at hb
      exact inr hb

/-- The flow graph is exact, and the handles that edges mention name nothing else than what
they were given out for. -/
structure Charted (program : Program) : Prop where
  flowing : program.Flowing
  accounted : program.Accounted
  keyed : program.Keyed
  known : program.KeysKnown

namespace Charted

theorem of_raises (charted : p.Charted) (hs : p.Sound) (raises : p.Raises pr q) : q.Charted := by
  have waxes := raises.waxes hs
  refine ⟨charted.flowing.of_raises hs charted.accounted raises,
    charted.accounted.of_raises hs raises, ?_, ?_⟩
  · intro e d b h isKeyed live
    rcases raises.key_of_wire hs h isKeyed with ⟨old, hOld, keyedOld⟩ | hb
    · have wasLive := (charted.known e old b hOld keyedOld).contains_before waxes.grows live
      rw [(waxes.sorts b wasLive).blocks]
      exact charted.keyed e old b hOld keyedOld wasLive
    · exact hb
  · intro e d b h isKeyed
    rcases raises.key_of_wire hs h isKeyed with ⟨old, hOld, keyedOld⟩ | hb
    · exact (charted.known e old b hOld keyedOld).of_grows waxes.grows
    · exact inl (isLive_of_category hb)

theorem of_grown (charted : p.Charted) (hs : p.Sound) (grown : Grown pr p q) : q.Charted := by
  induction grown with
  | refl => exact charted
  | tail earlier last ih =>
    exact ih.of_raises (Grown.sound earlier hs) last

theorem of_adopts {write : InstId} {l : Link} (charted : p.Charted) (hs : p.Sound)
    (adopts : p.Adopts q i write l) : q.Charted := by
  have rea := adopts.relinked.restrings.rearranges
  refine ⟨charted.flowing.of_adopts hs adopts, charted.accounted.of_adopts adopts, ?_, ?_⟩
  · intro e d b h isKeyed live
    rw [rea.blocks]
    refine charted.keyed e d b (rea.wire? ▸ h) isKeyed ?_
    exact (charted.known e d b (rea.wire? ▸ h) isKeyed).contains_before adopts.grows live
  · intro e d b h isKeyed
    exact (charted.known e d b (rea.wire? ▸ h) isKeyed).of_grows adopts.grows

end Charted

/-- Entries stay entries for blocks when nodes go. -/
theorem Keyed.of_shrunk (keyed : p.Keyed) (hs : p.Sound) (shrunk : Shrunk pr p q) : q.Keyed := by
  intro e d b h isKeyed live
  have wanes := Shrunk.wanes shrunk
  rw [(wanes.sorts b live).blocks]
  rcases Shrunk.stems shrunk hs h with ⟨old, hOld, -, isSlot⟩ | ⟨-, keys⟩
  · exact keyed e old b hOld (isSlot.trans isKeyed) (wanes.isLive live)
  · exact keys b isKeyed

theorem Charted.of_shrunk {age : Nat} (charted : p.Charted) (hs : p.Sound)
    (young : p.values.Young age) (room : age + 1 < 2 ^ 32) (shrunk : Shrunk pr p q) :
    q.Charted := by
  refine ⟨Shrunk.flowing shrunk hs charted.flowing,
    charted.accounted.of_shrunk hs young room shrunk, charted.keyed.of_shrunk hs shrunk, ?_⟩
  intro e d b h isKeyed
  have known : p.values.Known b := by
    rcases Shrunk.stems shrunk hs h with ⟨old, hOld, -, isSlot⟩ | ⟨-, keys⟩
    · exact charted.known e old b hOld (isSlot.trans isKeyed)
    · exact inl (isLive_of_category (keys b isKeyed))
  exact known.of_shrinks young room (Shrunk.wanes shrunk).shrinks

/-- While no slot has come round to a generation that it had before, runs lead to programs
whose edges name what they were given out for. -/
theorem charted_of_runAll? {name : String} {cfg : Settings} {ops : List Operation}
    (run : (initial name cfg).runAll? ops = some s) (short : ops.length < 2 ^ 32) : s.Charted := by
  have counted := (runAll?_counted
    (fun count reached => count < 2 ^ 32 → reached.values.Young count ∧ reached.Charted)
    (fun hs holds _ leads room => ?_) (sound_initial name cfg)
    (fun _ => ⟨young_initial name cfg, flowing_initial name cfg, by simp [Accounted],
      by simp [Keyed], by simp [KeysKnown]⟩) (along_true _ ops) run).2
  · exact (counted short).2
  · obtain ⟨young, charted⟩ := holds (Nat.lt_of_succ_lt room)
    obtain ⟨m, hsm, grows, chartedMiddle, isShrunk⟩ :=
      leads.reaches.between hs Charted (fun isGrown => charted.of_grown hs isGrown)
        fun hsFirst adopts chartedFirst => chartedFirst.of_adopts hsFirst adopts
    exact ⟨leads.reaches.young hs young room,
      chartedMiddle.of_shrunk hsm (young.of_grows grows) room isShrunk⟩

end Program

/-! ### Readings -/

/-- The block that an edge is an entry for, with the value of the entry. -/
def Edge.entryFor? (data : Edge) : Option (BlockId × ValueId) :=
  match data.slot with
  | .keyed source => some (source, data.value)
  | _ => none

namespace Program

variable {src tgt : BlockId}

/-- The entries of an instruction, in operand order. -/
def entriesOf (program : Program) (phi : InstId) : List (BlockId × ValueId) :=
  (program.operandsOf phi).filterMap fun edge => (program.edges.get? edge).bind Edge.entryFor?

/-- Whether an instruction is a phi. -/
def isPhi (program : Program) (inst : InstId) : Bool :=
  program.kind? inst == some .phi

/-- The operands of a node can be read as long as it is there. -/
theorem operands_eq_ok_iff_of_live {u : ValueId} :
    s.operands u = .ok edges ↔ s.isLive u = true ∧ s.operandsOf u = edges := by
  rw [operands_eq_ok, isLive, Arena.contains_iff_get?]
  constructor
  · rintro ⟨n, found, rfl⟩
    exact ⟨⟨n, found⟩, operandsOf_eq found⟩
  · rintro ⟨⟨n, found⟩, rfl⟩
    exact ⟨n, found, (operandsOf_eq found).symm⟩

theorem usedBy_eq_ok_iff_of_live :
    s.usedBy value = .ok edges ↔ s.isLive value = true ∧ s.usesOf value = edges := by
  rw [usedBy_eq_ok, isLive, Arena.contains_iff_get?]
  constructor
  · rintro ⟨n, found, rfl⟩
    exact ⟨⟨n, found⟩, usesOf_eq found⟩
  · rintro ⟨⟨n, found⟩, rfl⟩
    exact ⟨n, found, (usesOf_eq found).symm⟩

theorem isBlock_of_instructions {insts : List InstId} (read : s.instructions b = .ok insts) :
    s.isBlock b = true := by
  simp only [Program.instructions, bind_eq_ok, block_eq_ok] at read
  obtain ⟨d, h, -⟩ := read
  exact isBlock_iff.mpr ⟨d, h⟩

theorem mapM_edge_eq_ok (there : ∀ e ∈ edges, ∃ d, s.edges.get? e = some d) :
    edges.mapM s.edge = .ok (edges.filterMap s.edges.get?) := by
  rw [mapM_eq_ok]
  induction edges with
  | nil => exact .nil
  | cons e rest ih =>
    obtain ⟨d, h⟩ := there e (by simp)
    rw [filterMap_cons_some h]
    exact .cons (edge_eq_ok.mpr h) (ih fun edge mem => there edge (by simp [mem]))

theorem incoming_eq_ok (wired : s.Wired) (live : s.isLive phi = true) :
    s.incoming phi = .ok (s.entriesOf phi) := by
  obtain ⟨n, found⟩ := Arena.contains_iff_get?.mp live
  have there : ∀ e ∈ n.operands, ∃ d, s.edges.get? e = some d := by
    intro e mem
    rw [← operandsOf_eq found] at mem
    obtain ⟨d, h, -⟩ := wired.edge_of_operand mem
    exact ⟨d, h⟩
  simp only [incoming, bind_eq_ok, operands_eq_ok, pure_eq_ok]
  refine ⟨n.operands, ⟨n, found, rfl⟩, _, mapM_edge_eq_ok there, ?_⟩
  rw [filterMap_filterMap, entriesOf, operandsOf_eq found]
  rfl

theorem Sound.phis_eq_ok (hs : s.Sound) (hb : s.isBlock b = true) :
    s.phis b = .ok ((s.threads b).filter s.isPhi) := by
  simp only [phis, bind_eq_ok, filterM_eq_ok]
  have reads : ∀ i ∈ s.threads b, ∃ kind, s.kind? i = some kind ∧ s.kind i = .ok kind := by
    intro i mem
    obtain ⟨d, h⟩ := exists_inst?_of_isInst (hs.isInst_of_mem_threads mem)
    exact ⟨d.kind, by rw [kind?, h, map_some], kind_eq_ok.mpr ⟨d, h, rfl⟩⟩
  refine ⟨s.threads b, hs.chains.instructions_eq_ok hb, fun i mem => ?_,
    filter_congr fun i mem => ?_⟩
  · obtain ⟨kind, -, read⟩ := reads i mem
    exact ⟨kind == .phi, kind, read, rfl⟩
  · obtain ⟨kind, h, read⟩ := reads i mem
    rw [isPhi, h, read]
    simp [Except.accepts, bind, Except.bind, pure, Except.pure]

/-- The blocks that an instruction has entries for are the keys of its operands. -/
theorem mem_keys_iff :
    b ∈ (s.entriesOf phi).map Prod.fst ↔ ∃ e ∈ s.operandsOf phi,
      ∃ d, s.edges.get? e = some d ∧ d.slot = .keyed b := by
  simp only [List.mem_map, entriesOf, List.mem_filterMap, Option.bind_eq_some_iff]
  constructor
  · rintro ⟨entry, ⟨e, mem, d, h, isEntry⟩, rfl⟩
    refine ⟨e, mem, d, h, ?_⟩
    unfold Edge.entryFor? at isEntry
    split at isEntry
    next keyed =>
      obtain rfl := Option.some.inj isEntry
      exact keyed
    next => simp at isEntry
  · rintro ⟨e, mem, d, h, keyed⟩
    exact ⟨(b, d.value), ⟨e, mem, d, h, by simp [Edge.entryFor?, keyed]⟩, rfl⟩

theorem Keyed.isBlock_of_mem_keys (keyed : s.Keyed) (mem : b ∈ (s.entriesOf phi).map Prod.fst)
    (live : s.isLive b = true) : s.isBlock b = true := by
  obtain ⟨e, -, d, h, isKeyed⟩ := mem_keys_iff.mp mem
  refine keyed e d.outline b (wire?_of_get? h) ?_ live
  rw [Edge.outline, isKeyed]
  rfl

/-- A block keeps another reachable: control goes on to it, or a phi has an entry for it. -/
def Touches (program : Program) (source target : BlockId) : Prop :=
  target ∈ program.outflow source ∨ (program.isBlock target = true ∧
    ∃ phi ∈ program.threads source, program.isPhi phi = true ∧
      target ∈ (program.entriesOf phi).map Prod.fst)

theorem Touches.isBlock (touches : s.Touches src tgt) (hs : s.Sound) : s.isBlock tgt = true := by
  rcases touches with leads | ⟨hb, -⟩
  · exact (hs.isBlock_of_mem_outflow leads).2
  · exact hb

theorem reachedFrom_eq_ok (hs : s.Sound) (flow : s.Flowing) (keyed : s.Keyed)
    (hb : s.isBlock src = true) :
    ∃ next, s.reachedFrom src = .ok next ∧ ∀ tgt, tgt ∈ next ↔ s.Touches src tgt := by
  obtain ⟨d, h⟩ := isBlock_iff.mp hb
  have phiIsInst : ∀ phi ∈ (s.threads src).filter s.isPhi, s.isLive phi = true := by
    intro phi mem
    exact isLive_of_category (hs.isInst_of_mem_threads (mem_of_mem_filter mem))
  obtain ⟨keys, readKeys, areKeys⟩ : ∃ keys, (((s.threads src).filter s.isPhi).mapM fun phi => do
        return (← s.incoming phi).map Prod.fst) = .ok keys ∧
      ∀ tgt, tgt ∈ keys.flatten ↔ ∃ phi ∈ (s.threads src).filter s.isPhi,
        tgt ∈ (s.entriesOf phi).map Prod.fst := by
    refine ⟨((s.threads src).filter s.isPhi).map fun phi =>
      (s.entriesOf phi).map Prod.fst, ?_, fun tgt => ?_⟩
    · rw [mapM_eq_ok, forall₂_map_right_iff, forall₂_same]
      intro phi mem
      rw [incoming_eq_ok hs.wired (phiIsInst phi mem)]
      rfl
    · rw [← flatMap_def, mem_flatMap]
  refine ⟨(d.jumpsTo.keys ++ keys.flatten).filter s.isLive, ?_, fun tgt => ?_⟩
  · simp only [reachedFrom, bind_eq_ok, pure_eq_ok, block_eq_ok]
    exact ⟨_, hs.phis_eq_ok hb, keys, readKeys, d, h, rfl⟩
  · rw [mem_filter, mem_append, flow.mem_jumpsTo_iff h, areKeys]
    constructor
    · rintro ⟨leads | ⟨phi, isPhi, hasKey⟩, live⟩
      · exact inl leads
      · obtain ⟨inThread, isPhi⟩ := mem_filter.mp isPhi
        exact inr ⟨keyed.isBlock_of_mem_keys hasKey live, phi, inThread, isPhi, hasKey⟩
    · intro touches
      refine ⟨?_, isLive_of_category (touches.isBlock hs)⟩
      rcases touches with leads | ⟨-, phi, inThread, isPhi, hasKey⟩
      · exact inl leads
      · exact inr ⟨phi, mem_filter.mpr ⟨inThread, isPhi⟩, hasKey⟩

/-! ### The reachable set -/

theorem Sound.isBlock_of_mem_blocks (hs : s.Sound) (h : s.function? f = some d)
    (mem : b ∈ d.blocks) : s.isBlock b = true := by
  obtain ⟨data, hBlock, -⟩ := map_eq_some_iff.mp ((hs.staffed f d h).blocks b mem)
  exact isBlock_iff.mpr ⟨data, hBlock⟩

theorem blocks_eq_ok_iff :
    s.blocks f = .ok blocks ↔ ∃ d, s.function? f = some d ∧ d.blocks = blocks := by
  simp only [Program.blocks, bind_eq_ok, pure_eq_ok, function_eq_ok]

theorem blocks_eq_ok (h : s.function? f = some d) : s.blocks f = .ok d.blocks :=
  blocks_eq_ok_iff.mpr ⟨d, h, rfl⟩

theorem entryBlock?_eq_ok (h : s.function? f = some d) : s.entryBlock? f = .ok d.blocks.head? := by
  simp only [entryBlock?, bind_eq_ok, pure_eq_ok]
  exact ⟨d.blocks, blocks_eq_ok h, rfl⟩

/-- Blocks are worked off as in `reachWithin`, but what a block touches is taken up in an
order that may depend on how far the work has come. -/
def reachInOrder (program : Program)
    (arrange : List BlockId → List BlockId → List BlockId → List BlockId) :
    Nat → List BlockId → List BlockId → Except Fault (List BlockId)
  | _, [], met => return met
  | 0, _ :: _, _ => throw .endless
  | fuel + 1, block :: work, met => do
      let next := arrange work met (← program.reachedFrom block)
      let fresh := next.eraseDups.filter (!met.contains ·)
      program.reachInOrder arrange fuel (fresh ++ work) (fresh ++ met)

theorem reachWithin_eq {work met : List BlockId} :
    s.reachWithin fuel work met = s.reachInOrder (fun _ _ next => next) fuel work met := by
  induction fuel generalizing work met with
  | zero => cases work <;> rfl
  | succ fuel ih =>
    cases work with
    | nil => rfl
    | cons b work => exact bind_congr fun next => ih

section Reached

variable (hs : s.Sound) (flowing : s.Flowing) (keyed : s.Keyed)
include hs flowing keyed

/-- Working off a list of blocks ends within the bound, with all that the blocks met so far
lead to step by step, whatever order they are taken up in. -/
theorem reachInOrder_spec {arrange : List BlockId → List BlockId → List BlockId → List BlockId}
    (same : ∀ work met next, (arrange work met next).Perm next)
    {work met : List BlockId} (nd : met.Nodup)
    (pending : ∀ b ∈ work, b ∈ met) (blocks : ∀ b ∈ met, s.isBlock b = true)
    (done : ∀ src ∈ met, src ∉ work → ∀ tgt, s.Touches src tgt → tgt ∈ met)
    (enough : s.values.slots.size + work.length < fuel + met.length) :
    ∃ set, s.reachInOrder arrange fuel work met = .ok set ∧ (∀ b ∈ met, b ∈ set) ∧
      (∀ src ∈ set, ∀ tgt, s.Touches src tgt → tgt ∈ set) ∧
      ∀ b ∈ set, ∃ start ∈ met, Relation.ReflTransGen s.Touches start b := by
  induction fuel generalizing work met with
  | zero =>
    -- more blocks would have been met than there are slots
    have few := Arena.length_le_of_contains nd fun b mem =>
      isLive_of_category (blocks b mem)
    omega
  | succ fuel ih =>
    cases work with
    | nil =>
      exact ⟨met, rfl, fun _ mem => mem, fun src mem => done src mem (by simp),
        fun b mem => ⟨b, mem, .refl⟩⟩
    | cons b work =>
      obtain ⟨next, read, touched⟩ := reachedFrom_eq_ok hs flowing keyed
        (blocks b (pending b (by simp)))
      obtain ⟨fresh, isFilter⟩ : ∃ fresh, fresh =
          (arrange work met next).eraseDups.filter (!met.contains ·) := ⟨_, rfl⟩
      have isFresh : ∀ tgt, tgt ∈ fresh ↔ s.Touches b tgt ∧ tgt ∉ met := by
        intro tgt
        simp [isFilter, mem_filter, mem_eraseDups, (same work met next).mem_iff, touched]
      have nodupMore : (fresh ++ met).Nodup := by
        refine nodup_append.mpr ⟨?_, nd, ?_⟩
        · rw [isFilter]
          exact (nodup_eraseDups _).filter _
        · rintro block isNew _ old rfl
          exact ((isFresh block).mp isNew).2 old
      have blocksMore : ∀ block ∈ fresh ++ met, s.isBlock block = true := by
        intro block mem
        rcases mem_append.mp mem with isNew | old
        · exact ((isFresh block).mp isNew).1.isBlock hs
        · exact blocks block old
      have pendingMore : ∀ block ∈ fresh ++ work, block ∈ fresh ++ met := by
        intro block mem
        rcases mem_append.mp mem with isNew | old
        · exact mem_append_left _ isNew
        · exact mem_append_right _ (pending block (by simp [old]))
      have doneMore : ∀ src ∈ fresh ++ met, src ∉ fresh ++ work →
          ∀ tgt, s.Touches src tgt → tgt ∈ fresh ++ met := by
        intro src mem off tgt touches
        simp only [mem_append, not_or] at mem off ⊢
        have inMet := mem.resolve_left off.1
        by_cases hb : src = b
        · subst hb
          by_cases old : tgt ∈ met
          · exact inr old
          · exact inl ((isFresh tgt).mpr ⟨touches, old⟩)
        · exact inr (done src inMet (by simp [hb, off.2]) tgt touches)
      obtain ⟨set, readSet, within, closed, reached⟩ := ih nodupMore pendingMore
        blocksMore doneMore (by simp only [length_append, length_cons] at *; omega)
      refine ⟨set, ?_, fun block mem => within block (by simp [mem]), closed, ?_⟩
      · simp only [reachInOrder, bind_eq_ok]
        exact ⟨next, read, isFilter ▸ readSet⟩
      · intro block mem
        obtain ⟨start, inMet, path⟩ := reached block mem
        rcases mem_append.mp inMet with isNew | old
        · exact ⟨b, pending b (by simp), .head ((isFresh start).mp isNew).1 path⟩
        · exact ⟨start, old, path⟩

/-- From a block all that it touches step by step is met. -/
theorem reachInOrder_from {arrange : List BlockId → List BlockId → List BlockId → List BlockId}
    (same : ∀ work met next, (arrange work met next).Perm next) {start : BlockId}
    (hb : s.isBlock start = true) :
    ∃ set, s.reachInOrder arrange s.chainBound [start] [start] = .ok set ∧
      ∀ b, b ∈ set ↔ Relation.ReflTransGen s.Touches start b := by
  obtain ⟨set, read, within, closed, reached⟩ : ∃ set,
      s.reachInOrder arrange s.chainBound [start] [start] = .ok set ∧ _ :=
    reachInOrder_spec hs flowing keyed same (nodup_singleton start) (by simp)
      (by simpa using hb) (by simp) (by simp [chainBound])
  refine ⟨set, read, fun b => ⟨fun mem => ?_, fun path => ?_⟩⟩
  · obtain ⟨first, isFirst, path⟩ := reached b mem
    exact mem_singleton.mp isFirst ▸ path
  · induction path with
    | refl => exact within start (by simp)
    | tail _ step ih => exact closed _ ih _ step

/-- A block is reached from a function: it is the entry, or it is touched step by step from
there. -/
theorem reachableSet_spec (h : s.function? f = some d) :
    ∃ set, s.reachableSet f = .ok set ∧ ∀ b, b ∈ set ↔
      ∃ start ∈ d.blocks.head?, Relation.ReflTransGen s.Touches start b := by
  cases entry : d.blocks.head? with
  | none =>
    refine ⟨[], ?_, by simp⟩
    simp only [reachableSet, bind_eq_ok]
    exact ⟨none, entry ▸ entryBlock?_eq_ok h, rfl⟩
  | some start =>
    obtain ⟨set, read, reached⟩ := reachInOrder_from hs flowing keyed (fun _ _ _ => .refl _)
      (hs.isBlock_of_mem_blocks h (mem_of_head? entry))
    refine ⟨set, ?_, by simpa using reached⟩
    simp only [reachableSet, bind_eq_ok]
    exact ⟨some start, entry ▸ entryBlock?_eq_ok h, reachWithin_eq.trans read⟩

end Reached

/-- The reachable blocks of a function are those of its blocks that can be reached. -/
theorem reachableBlocks_eq_ok {set : List BlockId} (h : s.function? f = some d)
    (read : s.reachableSet f = .ok set) :
    s.reachableBlocks f = .ok (d.blocks.filter (set.contains ·)) := by
  simp only [reachableBlocks, bind_eq_ok, pure_eq_ok]
  exact ⟨set, read, d.blocks, blocks_eq_ok h, rfl⟩

end Program

/-! ### Postorder

The loop over a trail of suspended blocks is told by recursion: what it does between the
beginning and the end of one block is one visit, which leaves the rest of the trail alone.
-/

/-- What a visit has seen are blocks, each once. -/
structure Visit.Regular (program : Program) (visit : Visit) : Prop where
  nodup : visit.seen.Nodup
  blocks : ∀ block ∈ visit.seen, program.isBlock block = true

namespace Program

/-- Visit a block, if it was not seen, and all that it leads to, to at most so many levels. -/
def visitWithin (program : Program) : Nat → Visit → BlockId → Except Fault Visit
  | 0, _, _ => throw .endless
  | fuel + 1, visit, block => do
      if visit.seen.contains block then
        return visit
      let successors ← program.successors block
      let visit ← successors.foldlM (program.visitWithin fuel)
        { visit with seen := block :: visit.seen }
      return { visit with order := visit.order ++ [block] }

/-- So many turns of the loop take the blocks that the last block of the trail has still to try,
and no more turns are needed than there are blocks to try and blocks seen on the way, each with a
number of successors below the width. -/
def LoopVisits (program : Program) (width : Nat) (blocks : List BlockId) (visit answer : Visit) :
    Prop :=
  ∃ turns, turns + width * visit.seen.length ≤ blocks.length + width * answer.seen.length ∧
    ∀ spare block others trail,
      program.visitLoop (turns + spare) ((block, blocks ++ others) :: trail) visit =
        program.visitLoop spare ((block, others) :: trail) answer

theorem LoopVisits.of_foldlM {width : Nat} {step : Visit → BlockId → Except Fault Visit}
    (each : ∀ b visit answer, step visit b = .ok answer → s.LoopVisits width [b] visit answer)
    {answer : Visit} (run : blocks.foldlM step visit = .ok answer) :
    s.LoopVisits width blocks visit answer := by
  induction blocks generalizing visit with
  | nil =>
    obtain rfl := pure_eq_ok.mp run
    exact ⟨0, by simp, by simp⟩
  | cons b rest inductionHypothesis =>
    rw [foldlM_cons] at run
    obtain ⟨middle, runFirst, runRest⟩ := bind_eq_ok.mp run
    obtain ⟨turnsFirst, boundFirst, first⟩ := each b visit middle runFirst
    obtain ⟨turnsRest, boundRest, later⟩ := inductionHypothesis runRest
    refine ⟨turnsFirst + turnsRest, ?_, fun spare block others trail => ?_⟩
    · simp only [length_cons, length_nil] at boundFirst ⊢
      omega
    · rw [Nat.add_assoc, ← later, ← first]
      simp

/-- One visit told by recursion is a stretch of the loop. -/
theorem visitWithin_loopVisits {width : Nat} {answer : Visit}
    (narrow : ∀ b successors, s.successors b = .ok successors → successors.length < width)
    (run : s.visitWithin fuel visit b = .ok answer) : s.LoopVisits width [b] visit answer := by
  induction fuel generalizing visit b answer with
  | zero => simp [visitWithin, throw_ne_ok] at run
  | succ fuel inductionHypothesis =>
    simp only [visitWithin, contains_iff_mem] at run
    split at run
    next seen =>
      obtain rfl := pure_eq_ok.mp run
      refine ⟨1, Nat.le_refl _, fun spare block others trail => ?_⟩
      rw [Nat.add_comm, cons_append, visitLoop, if_pos seen, nil_append]
    next unseen =>
      simp only [bind_eq_ok, pure_eq_ok] at run
      obtain ⟨successors, readSuccessors, below, runBelow, rfl⟩ := run
      obtain ⟨turns, bound, loop⟩ := LoopVisits.of_foldlM
        (fun _ _ _ => inductionHypothesis) runBelow
      refine ⟨turns + 2, ?_, fun spare block others trail => ?_⟩
      · have few := narrow b successors readSuccessors
        simp only [length_cons, Nat.mul_add, length_nil] at bound ⊢
        omega
      · have start := loop (spare + 1) b [] ((block, others) :: trail)
        rw [append_nil] at start
        rw [show turns + 2 + spare = turns + (spare + 1) + 1 by omega, cons_append, visitLoop,
          if_neg unseen, readSuccessors]
        exact start.trans (by rw [visitLoop])

theorem foldlM_visit_eq_ok {bound : Nat} {step : Visit → BlockId → Except Fault Visit}
    (each : ∀ b ∈ blocks, ∀ visit : Visit, visit.Regular s → bound ≤ visit.seen.length →
      ∃ a, step visit b = .ok a ∧ a.Regular s ∧
        visit.seen.length ≤ a.seen.length) (regular : visit.Regular s)
    (enough : bound ≤ visit.seen.length) :
    ∃ a, blocks.foldlM step visit = .ok a ∧ a.Regular s ∧ visit.seen.length ≤ a.seen.length := by
  induction blocks generalizing visit with
  | nil => exact ⟨visit, rfl, regular, Nat.le_refl _⟩
  | cons b rest ih =>
    obtain ⟨m, readFirst, regularMiddle, grown⟩ := each b (by simp) visit regular enough
    obtain ⟨a, readRest, regularAnswer, grownRest⟩ := ih
      (fun block mem => each block (by simp [mem])) regularMiddle (enough.trans grown)
    refine ⟨a, ?_, regularAnswer, grown.trans grownRest⟩
    rw [foldlM_cons, readFirst]
    exact readRest

theorem visitWithin_eq_ok (hs : s.Sound) (regular : visit.Regular s) (hb : s.isBlock b = true)
    (enough : s.values.slots.size < fuel + visit.seen.length) :
    ∃ a, s.visitWithin fuel visit b = .ok a ∧ a.Regular s ∧ visit.seen.length ≤ a.seen.length := by
  induction fuel generalizing visit b with
  | zero =>
    have few := Arena.length_le_of_contains regular.nodup fun value mem =>
      isLive_of_category (regular.blocks value mem)
    omega
  | succ fuel ih =>
    simp only [visitWithin, contains_iff_mem]
    split
    next => exact ⟨visit, rfl, regular, Nat.le_refl _⟩
    next unseen =>
      have regularHere : Visit.Regular s { visit with seen := b :: visit.seen } :=
        { nodup := nodup_cons.mpr ⟨unseen, regular.nodup⟩
          blocks := forall_mem_cons.mpr ⟨hb, regular.blocks⟩ }
      have each : ∀ next ∈ (s.outflow b).eraseDups, ∀ other : Visit,
          other.Regular s → visit.seen.length + 1 ≤ other.seen.length →
            ∃ a, s.visitWithin fuel other next = .ok a ∧
              a.Regular s ∧ other.seen.length ≤ a.seen.length := by
        intro next mem other regularOther longer
        have isNext := (hs.isBlock_of_mem_outflow (mem_eraseDups.mp mem)).2
        exact ih regularOther isNext (by omega)
      obtain ⟨a, read, regularAnswer, grown⟩ := foldlM_visit_eq_ok each regularHere (Nat.le_refl _)
      refine ⟨{ a with order := a.order ++ [b] }, ?_, ?_, ?_⟩
      · simp only [bind_eq_ok]
        exact ⟨_, hs.successors_eq_ok hb, a, read, rfl⟩
      · exact ⟨regularAnswer.nodup, regularAnswer.blocks⟩
      · exact (Nat.le_succ _).trans grown

/-- A block has fewer successors than there are slots. -/
theorem Sound.length_successors_lt (hs : s.Sound) {successors : List BlockId}
    (read : s.successors b = .ok successors) : successors.length < s.chainBound := by
  rw [hs.successors_eq_ok (isBlock_of_successors read)] at read
  obtain rfl := Except.ok.inj read
  refine Nat.lt_succ_of_le (Arena.length_le_of_contains (nodup_eraseDups _) fun next mem => ?_)
  exact isLive_of_category (hs.isBlock_of_mem_outflow (mem_eraseDups.mp mem)).2

/-- The loop ends, in the order that the recursion gives. -/
theorem Sound.postorder_eq_ok (hs : s.Sound) (h : s.function? f = some d) :
    ∃ order, s.postorder f = .ok order ∧ ∀ entry, d.blocks.head? = some entry →
      ∃ visit, s.visitWithin s.chainBound { seen := [], order := [] } entry = .ok visit ∧
        visit.order = order := by
  cases isHead : d.blocks.head? with
  | none =>
    refine ⟨[], ?_, by simp⟩
    simp only [postorder, bind_eq_ok]
    exact ⟨none, isHead ▸ entryBlock?_eq_ok h, rfl⟩
  | some entry =>
    have hb := hs.isBlock_of_mem_blocks h (mem_of_head? isHead)
    obtain ⟨visit, run, regular, -⟩ : ∃ visit,
        s.visitWithin s.chainBound { seen := [], order := [] } entry = .ok visit ∧ _ :=
      visitWithin_eq_ok hs ⟨nodup_nil, by simp⟩ hb (by simp [chainBound])
    refine ⟨visit.order, ?_, fun _ same => ⟨visit, Option.some.inj same ▸ run, rfl⟩⟩
    rw [chainBound, visitWithin, contains_nil, if_neg Bool.false_ne_true] at run
    simp only [bind_eq_ok, pure_eq_ok] at run
    obtain ⟨successors, readSuccessors, below, runBelow, rfl⟩ := run
    have narrow : ∀ b successors, s.successors b = .ok successors →
        successors.length < s.chainBound := fun _ _ => hs.length_successors_lt
    obtain ⟨turns, bound, loop⟩ :=
      LoopVisits.of_foldlM (fun _ _ _ => visitWithin_loopVisits narrow) runBelow
    -- every block that was seen takes its turns
    have few : below.seen.length ≤ s.values.slots.size :=
      Arena.length_le_of_contains regular.nodup fun b mem =>
        isLive_of_category (regular.blocks b mem)
    have enough : turns < s.chainBound * s.chainBound := by
      have most : s.chainBound * below.seen.length ≤ s.chainBound * s.values.slots.size :=
        Nat.mul_le_mul_left _ few
      have short := narrow entry successors readSuccessors
      simp only [length_singleton, Nat.mul_one] at bound
      rw [show s.chainBound * s.chainBound = s.chainBound * s.values.slots.size + s.chainBound from
        Nat.mul_succ _ _]
      omega
    obtain ⟨spare, isBound⟩ : ∃ spare, s.chainBound * s.chainBound = turns + (spare + 1) :=
      ⟨s.chainBound * s.chainBound - turns - 1, by omega⟩
    have ends := loop (spare + 1) entry [] []
    rw [append_nil, ← isBound] at ends
    simp only [postorder, bind_eq_ok]
    refine ⟨some entry, isHead ▸ entryBlock?_eq_ok h, ?_⟩
    simp only [bind_eq_ok]
    exact ⟨successors, readSuccessors, _, ends.trans (by rw [visitLoop, visitLoop]; rfl), rfl⟩

end Program

end ValueGraph
