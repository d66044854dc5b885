import Mathlib
import ValueGraph.Proofs.Attachment
import ValueGraph.Proofs.OperandRules

open Function

namespace ValueGraph

open Program List Option

/-!
# Nested instructions

An instruction can be nested under a register write that reads it.  Following
holders outwards always comes to an end, since a write is new when it takes
something in.  Whether the write goes on to read what is nested under it is up to
clients: edges can be made to read something else.
-/

variable {kind : InstKind} {k fuel : Nat} {v u : ValueId} {i write : InstId} {l : Link}
  {name : String} {cfg : Settings} {ops : List Operation} {s : Program} {e : EdgeId} {d : Edge}
  {passed : List InstId} {ty : TypeId}

theorem InstKind.shell_eq_regWrite_iff : kind.shell = .regWrite ↔ kind = .regWrite := by
  cases kind <;> simp [InstKind.shell]

theorem Slot.eq_fixed_of_outline {slot : Slot} (eq : slot.outline = .fixed k) :
    slot = .fixed k := by
  cases slot <;> simp_all [Slot.outline]

namespace Program

variable {p q : Program} {pr : Promise} {outer inner : InstId}

/-! ### Holders outwards -/

/-- Following holders outwards comes to an end. -/
def Rooted (program : Program) : Prop :=
  WellFounded program.Holds

theorem Rooted.mono (rooted : p.Rooted)
    (fewer : ∀ outer inner, q.Holds outer inner → p.Holds outer inner) : q.Rooted :=
  Subrelation.wf (fewer _ _) rooted

/-- What drifts is held by nothing else than before. -/
theorem Drifts.holds_before (drifts : p.Drifts q) (hsq : q.Sound) (holds : q.Holds outer inner) :
    p.Holds outer inner := by
  obtain ⟨l, h, isHolder⟩ := holds
  have nested := hsq.reparent_of_holder h isHolder
  obtain ⟨old, hOld, rfl | ⟨-, floats⟩ | fin⟩ := drifts inner l h
  · exact ⟨l, hOld, isHolder⟩
  · simp [Status.Floats, nested] at floats
  · simp [nested] at fin

theorem Added.holds_before {payload : Payload} (added : p.Added q v ty payload)
    (blank : payload.Blank)
    (holds : q.Holds outer inner) : p.Holds outer inner := by
  obtain ⟨l, h, isHolder⟩ := holds
  rw [added.exchanged.link?, update_apply] at h
  split at h
  · cases payload with
    | inst d =>
      obtain ⟨kind, rfl⟩ := blank
      obtain rfl : (Inst.fresh kind).link = l := by simpa [Payload.inst?] using h
      simp [Inst.link, Inst.fresh] at isHolder
    | _ => simp [Payload.inst?] at h
  · exact ⟨l, h, isHolder⟩

theorem Built.holds_before (built : p.Built q i ty kind) (holds : q.Holds outer inner) :
    p.Holds outer inner := by
  obtain ⟨started, added, joined⟩ := built.added
  refine added.holds_before ⟨kind, rfl⟩ ?_
  rwa [Holds, ← Joined.link? joined]

/-- The instruction that is nested is held by the write, all others as before. -/
theorem Adopts.holds (adopts : p.Adopts q i write l) (holds : q.Holds outer inner) :
    (inner = i ∧ outer = write) ∨ (inner ≠ i ∧ p.Holds outer inner) := by
  obtain ⟨link, h, isHolder⟩ := holds
  rw [adopts.relinked.links, update_apply] at h
  split at h
  next eq =>
    obtain rfl := some.inj h
    obtain rfl : write = outer := by simpa [Link.nested] using isHolder
    exact Or.inl ⟨eq, rfl⟩
  next ne => exact Or.inr ⟨ne, link, h, isHolder⟩

/-- The write is held by nothing, so no circle is closed. -/
theorem Adopts.rooted (adopts : p.Adopts q i write l) (rooted : p.Rooted) : q.Rooted := by
  have outermost : Acc q.Holds write := by
    refine ⟨write, fun outer holds => ?_⟩
    rcases adopts.holds holds with ⟨eq, -⟩ | ⟨-, link, h, isHolder⟩
    · exact absurd eq.symm adopts.apart
    · obtain rfl := mem_unique adopts.unplaced h
      simp [Inst.link, Inst.fresh] at isHolder
  refine ⟨fun inner => rooted.induction inner fun inner ih => ⟨inner, ?_⟩⟩
  intro outer holds
  rcases adopts.holds holds with ⟨-, rfl⟩ | ⟨-, hBefore⟩
  · exact outermost
  · exact ih outer hBefore

theorem kept_rooted (pr : Promise) : Kept pr Rooted where
  grow _ _ added blank _ rooted := rooted.mono fun _ _ => added.holds_before blank
  build _ built rooted := rooted.mono fun _ _ => built.holds_before
  adopt _ adopts rooted := adopts.rooted rooted
  shape sound shapes rooted := rooted.mono fun _ _ =>
    shapes.drifts.holds_before (shapes.sound sound)

theorem not_holds_initial (name : String) (cfg : Settings) :
    ¬ (initial name cfg).Holds outer inner := by
  rintro ⟨l, h, -⟩
  simp at h

/-- Whatever runs lead to, following holders comes to an end. -/
theorem rooted_of_runAll? (run : (initial name cfg).runAll? ops = some s) : s.Rooted := by
  refine (runAll?_invariant (fun hs rooted _ leads => ?_) (sound_initial name cfg) ?_
    (along_true _ ops) run).2
  · exact (kept_rooted _).reaches hs leads.reaches rooted
  · exact ⟨fun inner => ⟨inner, fun outer holds => absurd holds (not_holds_initial name cfg)⟩⟩

/-- No instruction holds itself, not even through others. -/
theorem Rooted.acyclic (rooted : s.Rooted) : ¬ Relation.TransGen s.Holds i i :=
  rooted.transGen.irrefl.irrefl i

/-- Different nodes that were passed on the way to an instruction. -/
structure Trail
    (program : Program)
    (step : InstId → InstId → Prop)
    (inst : InstId)
    (passed : List InstId) : Prop where
  nodup : passed.Nodup
  live : ∀ other ∈ passed, program.isLive other = true
  behind : ∀ other ∈ passed, Relation.TransGen step other inst

namespace Trail

variable {step : InstId → InstId → Prop} {next : InstId}

theorem nil (s : Program) (step : InstId → InstId → Prop) (i : InstId) : s.Trail step i [] :=
  ⟨.nil, by simp, by simp⟩

section

variable (trail : s.Trail step i passed) (acyclic : ¬ Relation.TransGen step i i)
  (hi : s.isInst i = true)
include trail acyclic hi

/-- Where steps never lead back an instruction is passed once. -/
theorem distinct : (i :: passed).Nodup ∧ ∀ inst ∈ i :: passed, s.isLive inst = true := by
  refine ⟨nodup_cons.mpr ⟨fun mem => acyclic (trail.behind i mem), trail.nodup⟩, ?_⟩
  intro inst mem
  rcases mem_cons.mp mem with rfl | isPassed
  · exact isLive_of_category hi
  · exact trail.live inst isPassed

theorem cons (follows : step i next) : s.Trail step next (i :: passed) where
  nodup := (trail.distinct acyclic hi).1
  live := (trail.distinct acyclic hi).2
  behind other mem := by
    rcases mem_cons.mp mem with rfl | isPassed
    · exact .single follows
    · exact (trail.behind other isPassed).tail follows

theorem length_lt : passed.length < s.values.slots.size := by
  obtain ⟨nd, live⟩ := trail.distinct acyclic hi
  exact Arena.length_le_of_contains nd live

end

end Trail

/-! ### Writes and what is nested under them -/

/-- A register write that is not finalized and reads an instruction. -/
structure Nests (program : Program) (outer inner : InstId) : Prop where
  isWrite : program.shell? outer = some .regWrite
  ongoing : program.Ongoing outer
  reads : ∃ edge data, (program.operandsOf outer)[1]? = some edge ∧
    program.wire? edge = some data ∧ data.value = inner

/-- Whatever is held is read by the register write that holds it. -/
def Nested (program : Program) : Prop :=
  ∀ outer inner, program.Holds outer inner → program.Nests outer inner

theorem Ongoing.of_links (ongoing : p.Ongoing i) (links : q.link? = p.link?) : q.Ongoing i := by
  rwa [Ongoing, links]

theorem Refloats.ongoing (refloats : p.Refloats q) (ongoing : p.Ongoing i) : q.Ongoing i := by
  obtain ⟨l, h, st⟩ := ongoing
  rcases refloats i with eq | ⟨-, new, -, hNew, -, floats⟩
  · exact ⟨l, eq.trans h, st⟩
  · refine ⟨new, hNew, fun fin => ?_⟩
    simp [Status.Floats, fin] at floats

/-- The place through which a register write reads what it writes. -/
theorem Nests.slot (nests : p.Nests outer inner) (hs : p.Sound)
    (found : (p.operandsOf outer)[1]? = some e) (h : p.wire? e = some d) : d.slot = .fixed 1 := by
  have admits := hs.laid outer .regWrite nests.isWrite
  have listed : (p.slotsOf outer)[1]? = some d.slot := by
    rw [slotsOf, getElem?_map, found, map_some, slotOf, h]
    rfl
  obtain ⟨rest, whole⟩ := admits
  have shown : (p.slotsOf outer ++ rest)[1]? = some d.slot := by
    rw [List.getElem?_append_left (List.getElem?_eq_some_iff.mp listed).1, listed]
  rw [whole] at shown
  exact (some.inj shown).symm

theorem Nests.mono (nests : p.Nests outer inner) (shells : q.shell? outer = p.shell? outer)
    (ongoing : q.Ongoing outer) (ops : q.operandsOf outer = p.operandsOf outer)
    (wires : ∀ e ∈ p.operandsOf outer, q.wire? e = p.wire? e) : q.Nests outer inner := by
  obtain ⟨e, d, listed, h, reads⟩ := nests.reads
  refine ⟨shells.trans nests.isWrite, ongoing, e, d, ops ▸ listed, ?_, reads⟩
  rw [wires e (mem_of_getElem? listed), h]

/-- Moves that leave links and operands alone leave what is nested. -/
theorem Nested.of_same (nested : p.Nested) (drifts : p.Drifts q) (hsq : q.Sound)
    (ongoing : ∀ i, p.Ongoing i → q.Ongoing i) (wanes : p.Wanes q)
    (ops : q.operandsOf = p.operandsOf) (edges : q.edges = p.edges) : q.Nested := by
  intro outer inner holds
  have nests := nested outer inner (drifts.holds_before hsq holds)
  have ongoingAfter := ongoing outer nests.ongoing
  refine nests.mono (wanes.sorts outer ongoingAfter.isLive).shells ongoingAfter
    (congrFun ops outer) fun e _ => ?_
  rw [wire?, wire?, edges]

/-- Below the skeleton it is enough to look at the operands of register writes. -/
theorem Nested.of_rewires (nested : p.Nested) (hsq : q.Sound) (rew : p.Rewires q)
    (kept : ∀ outer inner, p.Holds outer inner → p.Nests outer inner →
      q.operandsOf outer = p.operandsOf outer ∧ ∃ e d, (p.operandsOf outer)[1]? = some e ∧
          q.wire? e = some d ∧ d.value = inner) : q.Nested := by
  intro outer inner holds
  have links := rew.skeleton.link?
  have holdsBefore := (Drifts.of_same links).holds_before hsq holds
  have nests := nested outer inner holdsBefore
  obtain ⟨ops, reads⟩ := kept outer inner holdsBefore nests
  refine ⟨?_, nests.ongoing.of_links links, ops ▸ reads⟩
  rw [rew.skeleton.shell?]
  exact nests.isWrite

theorem Nested.of_joins (nested : p.Nested) (hs : p.Sound) (joins : p.Joins q e d)
    (noWrite : p.shell? d.user ≠ some .regWrite) : q.Nested := by
  refine nested.of_rewires (joins.sound hs) joins.added.rewires fun outer inner _ nests => ?_
  have ne : outer ≠ d.user := by
    rintro rfl
    exact noWrite nests.isWrite
  obtain ⟨edge, wire, listed, h, reads⟩ := nests.reads
  refine ⟨by rw [joins.added.operands, update_of_ne ne], edge, wire, listed, ?_, reads⟩
  have notNew : edge ≠ e := by
    rintro rfl
    simp [joins.added.fresh] at h
  rw [joins.added.wires, update_of_ne notNew, h]

/-- A write goes on to read what is nested under it as long as clients see to it. -/
theorem Nested.of_edgeMoved {new : ValueId} (nested : p.Nested) (hs : p.Sound) (hsq : q.Sound)
    (moved : p.EdgeMoved q e d new) (honours : p.Honours pr d new) (keeps : pr.keepsNested) :
    q.Nested := by
  refine nested.of_rewires hsq moved.rewires fun outer inner holds nests => ?_
  obtain ⟨other, wire, listed, h, reads⟩ := nests.reads
  refine ⟨by rw [moved.operands], other, wire, listed, ?_, reads⟩
  have isSlot := nests.slot hs listed h
  -- the edge to what is nested is not the one that is moved
  have notMoved : other ≠ e := by
    rintro rfl
    obtain rfl : d.user = outer := hs.wired.user_eq (mem_of_getElem? listed) moved.held
    rw [wire?, moved.held, map_some, some.injEq] at h
    subst h
    obtain ⟨l, hLink, isHolder⟩ := holds
    refine honours.nested keeps nests.isWrite (Slot.eq_fixed_of_outline isSlot) l ?_ isHolder
    rw [← hLink, ← reads]
    rfl
  rw [moved.wires, update_of_ne notMoved, h]

theorem Nested.of_operandsRemoved {kept gone : List EdgeId} {cut : Option (BlockId × BlockId)}
    (nested : p.Nested) (hs : p.Sound) (hsq : q.Sound) (rem : p.OperandsRemoved q u kept gone cut)
    (listed : ∀ e ∈ gone, e ∈ p.operandsOf u) (noWrite : p.shell? u ≠ some .regWrite) :
    q.Nested := by
  refine nested.of_rewires hsq rem.rewires fun outer inner _ nests => ?_
  have ne : outer ≠ u := by
    rintro rfl
    exact noWrite nests.isWrite
  obtain ⟨edge, wire, listedFound, h, reads⟩ := nests.reads
  refine ⟨by rw [rem.operands, update_of_ne ne], edge, wire, listedFound, ?_, reads⟩
  have remains : edge ∉ gone := fun isGone =>
    ne (hs.wired.user_unique (mem_of_getElem? listedFound) (listed edge isGone))
  rw [rem.wires, if_neg remains, h]

theorem shell?_ne_regWrite_of_optional (hs : p.Sound) (mem : (p.operandsOf u)[k]? = some e)
    (h : p.wire? e = some d)
    (optional : (∃ b, d.slot = .keyed b) ∨ (p.shell? u = some (.switch []) ∧ 1 ≤ k)) :
    p.shell? u ≠ some .regWrite := by
  intro isWrite
  rcases optional with ⟨b, keyed⟩ | ⟨hsw, -⟩
  · obtain ⟨rest, whole⟩ := hs.laid u .regWrite isWrite
    have isSlot : d.slot ∈ p.slotsOf u := by
      refine mem_map.mpr ⟨e, mem_of_getElem? mem, ?_⟩
      rw [slotOf, h]
      rfl
    have fixed : d.slot ∈ [Slot.fixed 0, .fixed 1] := whole ▸ mem_append_left rest isSlot
    simp [keyed] at fixed
  · simp [hsw] at isWrite

theorem Nested.of_razed (nested : p.Nested) (hs : p.Sound) (razed : p.Razed q) : q.Nested := by
  have hsq := Wrecked.sound razed.wrecked hs
  have wanes := Wrecked.wanes razed.wrecked
  intro outer inner holds
  have nests := nested outer inner ((Wrecked.drifts razed.wrecked).holds_before hsq holds)
  obtain ⟨l, h, isHolder⟩ := holds
  obtain ⟨e, d, listed, hWire, reads⟩ := nests.reads
  have ongoing := razed.spares.nested inner l outer h isHolder
    ⟨e, d, mem_of_getElem? listed, hWire, reads⟩ nests.ongoing
  have ops := razed.spares.kept outer ongoing
  refine nests.mono (wanes.sorts outer ongoing.isLive).shells ongoing ops fun edge mem => ?_
  obtain ⟨wire, hAfter, -⟩ := hsq.wired.own outer edge (ops ▸ mem)
  rw [hAfter, (razed.dwindles hs).wires edge wire hAfter]

/-- Only instructions that are finalized are given up. -/
theorem Dropped.ongoing {i : ValueId} (drop : p.Dropped q v) (bare : p.countOf v = 1 → p.Bare v)
    (ongoing : p.Ongoing i) : q.values.get? i = p.values.get? i := by
  rcases drop.outcome with ⟨-, nodes⟩ | ⟨last, -, -, nodes⟩
  · rw [nodes]
  · have ne : i ≠ v := by
      rintro rfl
      obtain ⟨l, h, st⟩ := ongoing
      obtain ⟨d, hInst, rfl⟩ := map_eq_some_iff.mp h
      exact st (bare last _ (inst?_eq_some_iff.mp hInst))
    rw [nodes, update_of_ne ne]

theorem Nested.of_dropped (nested : p.Nested) (hsq : q.Sound) (drop : p.Dropped q v)
    (bare : p.countOf v = 1 → p.Bare v) : q.Nested := by
  intro outer inner holds
  have nests := nested outer inner (drop.drifts.holds_before hsq holds)
  have n := drop.ongoing bare nests.ongoing
  have ongoing : q.Ongoing outer := by
    obtain ⟨l, h, st⟩ := nests.ongoing
    refine ⟨l, ?_, st⟩
    simpa only [link?, inst?, payload?, n] using h
  refine nests.mono (drop.wanes.sorts outer ongoing.isLive).shells ongoing ?_ fun e _ => ?_
  · rw [operandsOf, operandsOf, n]
  · rw [drop.wire?]

theorem Nested.of_shapes (nested : p.Nested) (hs : p.Sound) (shapes : p.Shapes pr q)
    (keeps : pr.keepsNested) : q.Nested := by
  have hsq := shapes.sound hs
  have eq := nested.of_same shapes.drifts hsq
  cases shapes with
  | raze razed => exact nested.of_razed hs razed
  | relabel lab cat =>
    exact eq (fun _ ongoing => ongoing.of_links lab.link?) lab.wanes lab.operands lab.edges
  | retain v retained =>
    refine eq (fun _ ongoing => ongoing.of_links ?_) retained.wanes retained.operandsOf
      retained.edges
    simp only [link?_eq_bind, retained.payload?]
  | drop v dropped bare => exact nested.of_dropped hsq dropped bare
  | redraw redraws =>
    cases redraws with
    | connect e d joins conf growing =>
      exact nested.of_joins hs joins fun isWrite => by simpa using growing .regWrite isWrite
    | rebind e d new moved leads agree honours =>
      exact nested.of_edgeMoved hs hsq moved honours keeps
    | unread u k e d mem h optional rem =>
      refine nested.of_operandsRemoved hs hsq rem (fun edge isEdge => ?_)
        (shell?_ne_regWrite_of_optional hs mem h optional)
      rw [mem_singleton.mp isEdge]
      exact mem_of_getElem? mem
    | clear g hg rem =>
      refine nested.of_operandsRemoved hs hsq rem (fun _ mem => mem) ?_
      simp [(shell?_of_isGlobal hg).1]
  | thread threads reth =>
    exact eq (fun _ => reth.refloats.ongoing) reth.wanes reth.operands reth.edges
  | resettle settle =>
    exact eq (fun _ ongoing => ongoing.of_links settle.links) settle.wanes
      settle.operands settle.edges

/-- New nodes leave what is nested. -/
theorem Nests.of_waxes (nests : p.Nests outer inner) (hs : p.Sound) (waxes : p.Waxes q)
    (ongoing : q.Ongoing outer) (ops : q.operandsOf outer = p.operandsOf outer)
    (wires : ∀ e d, p.wire? e = some d → q.wire? e = some d) : q.Nests outer inner := by
  refine nests.mono (waxes.sorts outer nests.ongoing.isLive).shells ongoing ops fun e mem => ?_
  obtain ⟨d, h, -⟩ := hs.wired.own outer e mem
  rw [h, wires e d h]

/-- Every move leaves what is nested under the writes that read it, if clients do. -/
theorem kept_nested (keeps : pr.keepsNested) : Kept pr Nested where
  grow := by
    intro p q v ty payload hs hsq added blank noInst nested outer inner holds
    have nests := nested outer inner (added.holds_before blank holds)
    obtain ⟨l, h, st⟩ := nests.ongoing
    exact nests.of_waxes hs added.waxes ⟨l, added.link?_of_held h, st⟩
      (congrFun added.operandsOf outer) fun e d hWire => by rw [added.wire?, hWire]
  build := by
    intro p q i ty kind hs built nested outer inner holds
    have nests := nested outer inner (built.holds_before holds)
    obtain ⟨started, added, joined⟩ := built.added
    have ne : outer ≠ i := by
      rintro rfl
      have live := nests.ongoing.isLive
      obtain ⟨n, found⟩ := Arena.contains_iff_get?.mp live
      simp [added.fresh] at found
    obtain ⟨l, h, st⟩ := nests.ongoing
    refine nests.of_waxes hs (built.waxes hs)
      ⟨l, by rw [Joined.link? joined, added.link?_of_held h], st⟩ ?_
      fun e d hWire => Joined.wires joined (by rw [added.wire?, hWire])
    rw [Joined.others joined ne, added.operandsOf]
  adopt := by
    intro p q i write l hs adopts nested outer inner holds
    have rea := adopts.relinked.restrings.rearranges
    have ongoing : ∀ inst, p.Ongoing inst → q.Ongoing inst := by
      rintro inst ⟨link, h, st⟩
      by_cases eq : inst = i
      · refine ⟨l.nested write, ?_, by simp [Link.nested]⟩
        rw [adopts.relinked.links, eq, update_self]
      · exact ⟨link, by rw [adopts.relinked.links, update_of_ne eq, h], st⟩
    have nests : p.Nests outer inner := by
      rcases adopts.holds holds with ⟨rfl, rfl⟩ | ⟨-, holdsBefore⟩
      · exact ⟨adopts.isWrite, ⟨_, adopts.unplaced, by simp [Inst.link, Inst.fresh]⟩, adopts.reads⟩
      · exact nested outer inner holdsBefore
    refine nests.mono (congrFun rea.shells outer) (ongoing outer nests.ongoing)
      (congrFun rea.operands outer) fun e _ => ?_
    rw [rea.wire?]
  shape := fun hs shapes nested => nested.of_shapes hs shapes keeps

/-- Whatever runs lead to in which no write is made to read something else in the place
of what is nested under it, writes read what is nested under them. -/
theorem nested_of_runAll? (run : (initial name cfg).runAll? ops = some s)
    (along : (initial name cfg).Along (fun p op _ => op.KeepsNested p) ops) : s.Nested := by
  refine (runAll?_invariant (fun hs nested keeps leads => ?_) (sound_initial name cfg) ?_
    along run).2
  · exact (kept_nested keeps).reaches hs leads.reaches nested
  · exact fun outer inner holds => absurd holds (not_holds_initial name cfg)

/-! ### Living and dying together -/

/-- What is nested keeps its link as long as its write is not finalized. -/
theorem Shapes.link?_of_nests (shapes : p.Shapes pr q) (hs : p.Sound)
    (nests : p.Nests outer inner) (h : p.link? inner = some l)
    (isHolder : l.holder = some (.inst outer)) (ongoing : q.Ongoing outer) :
    q.link? inner = some l := by
  have nested := hs.reparent_of_holder h isHolder
  have apart : ¬ l.status.Floats := by simp [Status.Floats, nested]
  have passed : p.Refloats q → q.link? inner = some l := by
    intro refloats
    rcases refloats inner with eq | ⟨old, _, hOld, -, floats, -⟩
    · exact eq.trans h
    · obtain rfl := mem_unique h hOld
      exact absurd floats apart
  cases shapes with
  | raze razed =>
    obtain ⟨e, d, listed, hWire, reads⟩ := nests.reads
    exact razed.spares.whole inner l outer h isHolder
      ⟨e, d, mem_of_getElem? listed, hWire, reads⟩ ongoing
  | relabel lab => rw [lab.link?, h]
  | retain v retained => simpa only [link?_eq_bind, retained.payload?] using h
  | drop v dropped bare =>
    have n := dropped.ongoing bare ⟨l, h, by simp [nested]⟩
    simpa only [link?, inst?, payload?, n] using h
  | redraw redraws => rw [redraws.rewires.skeleton.link?, h]
  | thread threads reth => exact passed reth.refloats
  | resettle settle => rw [settle.links, h]

theorem Grown.link?_of_nests (grown : Grown pr p q) (hs : p.Sound) (keeps : pr.keepsNested)
    (nested : p.Nested) (h : p.link? inner = some l) (isHolder : l.holder = some (.inst outer))
    (ongoing : q.Ongoing outer) : q.link? inner = some l := by
  obtain ⟨outerLink, hOuter, -⟩ := (nested outer inner ⟨l, h, isHolder⟩).ongoing
  induction grown with
  | refl => exact h
  | @tail m final earlier last ih =>
    -- the write was there all along, so it was not finalized in between
    obtain ⟨_, hMiddle, -⟩ := Grown.link? earlier hOuter
    obtain ⟨new, hFinal, drifts⟩ := last.link? hMiddle
    have ongoingMiddle : m.Ongoing outer := by
      obtain ⟨_, h', st⟩ := ongoing
      obtain rfl := mem_unique hFinal h'
      exact ⟨_, hMiddle, drifts.ongoing st⟩
    have hInner := ih ongoingMiddle
    have hsm := Grown.sound earlier hs
    have nests := (kept_nested keeps).grown hs earlier nested outer inner ⟨l, hInner, isHolder⟩
    cases last with
    | grow v ty payload added => exact added.link?_of_held hInner
    | build i ty kind built =>
      obtain ⟨started, added, joined⟩ := built.added
      rw [Joined.link? joined, added.link?_of_held hInner]
    | shape shapes => exact shapes.link?_of_nests hsm nests hInner isHolder ongoing

theorem Shrunk.link?_of_nests (shrunk : Shrunk pr p q) (hs : p.Sound) (keeps : pr.keepsNested)
    (nested : p.Nested) (h : p.link? inner = some l) (isHolder : l.holder = some (.inst outer))
    (ongoing : q.Ongoing outer) : q.link? inner = some l := by
  induction shrunk with
  | refl => exact h
  | tail earlier last ih =>
    have hInner := ih (last.drifts.ongoing ongoing)
    have nests := (kept_nested keeps).shrunk hs earlier nested outer inner ⟨l, hInner, isHolder⟩
    exact last.link?_of_nests (Shrunk.sound earlier hs) nests hInner isHolder ongoing

/-- What is nested under a write stays nested as long as the write is not finalized, and
no longer. -/
theorem Reaches.ongoing_iff (reaches : p.Reaches pr q) (hs : p.Sound) (keeps : pr.keepsNested)
    (nested : p.Nested) (h : p.link? inner = some l) (isHolder : l.holder = some (.inst outer)) :
    q.Ongoing inner ↔ q.Ongoing outer := by
  have isNested := hs.reparent_of_holder h isHolder
  constructor
  · rintro ⟨new, hNew, st⟩
    have eq : new = l := by
      rcases reaches.drifts h hNew with drifts | ⟨disconnected, -⟩
      · exact (drifts.of_reparent isNested).resolve_right st
      · simp [isNested] at disconnected
    have nestedAfter := (kept_nested keeps).reaches hs reaches nested
    exact (nestedAfter outer inner ⟨new, hNew, eq ▸ isHolder⟩).ongoing
  · intro ongoing
    refine ⟨l, ?_, by simp [isNested]⟩
    obtain ⟨grown, adopted, grow, adopt, shrink⟩ := reaches
    have hsGrown := Grown.sound grow hs
    have nestedGrown := (kept_nested keeps).grown hs grow nested
    have ongoingAdopted := (Shrunk.drifts shrink).ongoing ongoing
    rcases adopt with rfl | ⟨i, write, free, adopts, wasDisconnected⟩
    · have hGrown := Grown.link?_of_nests grow hs keeps nested h isHolder ongoingAdopted
      exact Shrunk.link?_of_nests shrink hsGrown keeps nestedGrown hGrown isHolder ongoing
    · have ongoingGrown : grown.Ongoing outer := by
        obtain ⟨link, hOuter, st⟩ := ongoingAdopted
        rw [adopts.relinked.links, update_apply] at hOuter
        split at hOuter
        next eq => exact ⟨free, eq ▸ adopts.relinked.held, by simp [adopts.status]⟩
        next => exact ⟨link, hOuter, st⟩
      have hGrown := Grown.link?_of_nests grow hs keeps nested h isHolder ongoingGrown
      have ne : inner ≠ i := by
        rintro rfl
        simp [status?, h, isNested] at wasDisconnected
      refine Shrunk.link?_of_nests shrink (adopts.sound hsGrown) keeps
        ((kept_nested keeps).adopt hsGrown adopts nestedGrown) ?_ isHolder ongoing
      rw [adopts.relinked.links, update_of_ne ne, hGrown]

/-! ### Reading what is nested -/

theorem nestingParent?_eq_ok : s.nestingParent? i = .ok (some outer) ↔ s.Holds outer i := by
  simp only [nestingParent?, bind_eq_ok, inst_eq_ok]
  constructor
  · rintro ⟨d, h, read⟩
    refine ⟨d.link, link?_of_inst? h, ?_⟩
    split at read
    next isHolder =>
      obtain rfl := some.inj (pure_eq_ok.mp read)
      exact isHolder
    next => simp [pure_eq_ok] at read
  · rintro ⟨l, h, isHolder⟩
    obtain ⟨d, hInst, rfl⟩ := map_eq_some_iff.mp h
    refine ⟨d, hInst, ?_⟩
    rw [show d.holder = _ from isHolder]
    rfl

theorem nestedValue?_eq_ok :
    s.nestedValue? write = .ok (some inner) ↔
      s.operand? write 1 = .ok (some inner) ∧ s.Holds write inner := by
  unfold nestedValue?
  simp only [bind_eq_ok]
  constructor
  · rintro ⟨operand, readOperand, a⟩
    cases operand with
    | none => simp [pure_eq_ok] at a
    | some v =>
      dsimp only at a
      split at a
      · simp only [bind_eq_ok, pure_eq_ok] at a
        obtain ⟨parent, readParent, isAnswer⟩ := a
        split at isAnswer
        next isWrite =>
          obtain rfl := some.inj isAnswer
          subst isWrite
          exact ⟨readOperand, nestingParent?_eq_ok.mp readParent⟩
        next => cases isAnswer
      · simp [pure_eq_ok] at a
  · rintro ⟨readOperand, holds⟩
    refine ⟨some inner, readOperand, ?_⟩
    simp only [holds.isInst, if_true, bind_eq_ok, pure_eq_ok]
    exact ⟨some write, nestingParent?_eq_ok.mpr holds, if_pos rfl⟩

/-- A register write reads what is nested under it as its written value. -/
theorem Nests.nestedValue? (nests : s.Nests outer inner) (holds : s.Holds outer inner) :
    s.nestedValue? outer = .ok (some inner) := by
  obtain ⟨e, d, listed, h, reads⟩ := nests.reads
  obtain ⟨whole, hWhole, rfl⟩ := map_eq_some_iff.mp h
  exact nestedValue?_eq_ok.mpr ⟨operand?_eq_some_iff.mpr ⟨e, whole, listed, hWhole, reads⟩, holds⟩

/-- Following holders outwards gives an answer before the bound is met, if all of them are
there. -/
theorem enclosingBlockWithin_of_path (rooted : s.Rooted)
    (out : ∀ outer, Relation.TransGen s.Holds outer i → s.isInst outer = true)
    (hi : s.isInst i = true) (trail : s.Trail (swap s.Holds) i passed)
    (enough : s.values.slots.size ≤ passed.length + fuel) :
    ∃ a, s.enclosingBlockWithin (fuel + 1) i = .ok a := by
  have acyclic : ∀ other, ¬ Relation.TransGen (swap s.Holds) other other :=
    fun other circle => rooted.acyclic (Relation.transGen_swap.mp circle)
  induction fuel generalizing i passed with
  | zero => exact absurd (trail.length_lt (acyclic i) hi) (by omega)
  | succ fuel ih =>
    obtain ⟨d, hInst⟩ := exists_inst?_of_isInst hi
    rw [enclosingBlockWithin]
    simp only [bind_eq_ok, inst_eq_ok]
    cases holder : d.holder with
    | none => exact ⟨none, d, hInst, by rw [holder]; rfl⟩
    | some owner =>
      cases owner with
      | block b => exact ⟨some b, d, hInst, by rw [holder]; rfl⟩
      | inst outer =>
        have holds : s.Holds outer i := ⟨d.link, link?_of_inst? hInst, holder⟩
        obtain ⟨a, reads⟩ := ih (fun other path => out other (path.tail holds))
          (out outer (.single holds))
          (trail.cons (acyclic i) hi holds) (by simp; omega)
        exact ⟨a, d, hInst, by rw [holder]; exact reads⟩

theorem enclosingBlockWithin_eq_ok (rooted : s.Rooted)
    (out : ∀ outer inner, s.Holds outer inner → s.isInst outer = true) (hi : s.isInst i = true)
    (trail : s.Trail (swap s.Holds) i passed)
    (enough : s.values.slots.size ≤ passed.length + fuel) :
    ∃ a, s.enclosingBlockWithin (fuel + 1) i = .ok a := by
  refine enclosingBlockWithin_of_path rooted (fun outer path => ?_) hi trail enough
  obtain ⟨inner, holds, -⟩ := Relation.TransGen.head'_iff.mp path
  exact out outer inner holds

end Program

/-- In a run in which no register write is made to read something else in the place of
what is nested under it, the instructions that are nested are those that a register write
holds and reads.  Following holders outwards gives an answer, and under every operation
what is nested goes exactly when its write does. -/
theorem nested_instructions_follow_writes {name : String} {settings : Settings}
    {operations : List Operation} {program : Program}
    (run : (Program.initial name settings).runAll? operations = some program)
    (along : (Program.initial name settings).Along
      (fun before operation _ => operation.KeepsNested before) operations) :
    (∀ inst, program.status inst = .ok .reparent ↔ ∃ write, program.kind write = .ok .regWrite ∧
        program.nestingParent? inst = .ok (some write) ∧
        program.nestedValue? write = .ok (some inst)) ∧
    (∀ inst, program.isInst inst = true → ∃ answer, program.enclosingBlock? inst = .ok answer) ∧
    ∀ operation after, operation.KeepsNested program →
      (Operation.run operation program).after? = some after →
        ∀ inst write, program.nestingParent? inst = .ok (some write) →
          (after.Ongoing inst ↔ after.Ongoing write) := by
  have sound := sound_of_runAll? run
  have rooted := rooted_of_runAll? run
  have nested := nested_of_runAll? run along
  refine ⟨fun inst => ⟨fun isNested => ?_, ?_⟩, fun inst isInst => ?_,
    fun operation after keeps runs inst write isParent => ?_⟩
  · obtain ⟨data, held, status⟩ := status_eq_ok.mp isNested
    have heldLink := link?_of_inst? held
    have apart : data.link.status ≠ .connected := by simp [Inst.link, status]
    obtain ⟨-, -, ⟨outside, -⟩ | ⟨-, write, holder⟩⟩ :=
      sound.chains.unchained inst data.link heldLink apart
    · simp [Inst.link, status] at outside
    · have holds : program.Holds write inst := ⟨data.link, heldLink, holder⟩
      have nests := nested write inst holds
      refine ⟨write, ?_, nestingParent?_eq_ok.mpr holds, nests.nestedValue? holds⟩
      obtain ⟨found, heldWrite, isShell⟩ := Option.map_eq_some_iff.mp nests.isWrite
      exact kind_eq_ok.mpr ⟨found, heldWrite, InstKind.shell_eq_regWrite_iff.mp isShell⟩
  · rintro ⟨write, -, isParent, -⟩
    obtain ⟨link, held, holder⟩ := nestingParent?_eq_ok.mp isParent
    obtain ⟨data, heldInst, rfl⟩ := Option.map_eq_some_iff.mp held
    exact status_eq_ok.mpr ⟨data, heldInst, sound.reparent_of_holder held holder⟩
  · refine enclosingBlockWithin_eq_ok rooted (fun outer inner holds => ?_) isInst
      (.nil _ _ _) (by simp)
    obtain ⟨link, held, -⟩ := (nested outer inner holds).ongoing
    exact isInst_of_link? held
  · obtain ⟨link, held, holder⟩ := nestingParent?_eq_ok.mp isParent
    have leads := Operation.leads_of_run sound runs
    exact leads.reaches.ongoing_iff sound keeps nested held holder

/-- A sum is nested under a register write, made to read something else, and goes when
the write does. -/
theorem nested_sum_follows_write :
    ∃ program, (Program.initial "m" .standard).runAll?
        ([.requestType (.function ⟨.void, [], false⟩), .addFunction "f" ⟨13⟩,
          .enableRegisters ⟨0, 0⟩, .allocateRegister ⟨0, 0⟩ ⟨5⟩, .constSigned ⟨5⟩ 1,
          .constSigned ⟨5⟩ 2, .buildBinary .add ⟨2, 0⟩ ⟨2, 0⟩, .buildRegWrite ⟨1, 0⟩ ⟨4, 0⟩] ++
          [.setUse ⟨0, 0⟩ (some ⟨3, 0⟩)]) = some program ∧
      program.status ⟨4, 0⟩ = .ok .reparent ∧
      (∃ write, program.kind write = .ok .regWrite ∧
        program.nestingParent? ⟨4, 0⟩ = .ok (some write) ∧
        program.nestedValue? write = .ok (some ⟨4, 0⟩)) ∧
      (∃ answer, program.enclosingBlock? ⟨4, 0⟩ = .ok answer) ∧
      ∃ after, (Operation.run (.eraseInstruction ⟨5, 0⟩) program).after? = some after ∧
        (after.Ongoing ⟨4, 0⟩ ↔ after.Ongoing ⟨5, 0⟩) := by
  refine exists_runAll? fun program run => ?_
  obtain ⟨nested, encloses, together⟩ := nested_instructions_follow_writes run
    (.append (along_of_forall (by simp [Operation.KeepsNested, Operation.Rebinds]) _)
      fun middle runFirst after _ => ⟨fun data new rebinds _ isSlot => by
        have held : middle.edges.get? ⟨0, 0⟩ = some ⟨⟨4, 0⟩, ⟨2, 0⟩, .fixed 0⟩ := by
          apply holds_of_runAll? runFirst
        obtain rfl := mem_unique held rebinds.2.1
        simp at isSlot, trivial⟩)
  obtain ⟨status, parent, isInst, erases⟩ : program.status ⟨4, 0⟩ = .ok .reparent ∧
      program.nestingParent? ⟨4, 0⟩ = .ok (some ⟨5, 0⟩) ∧ program.isInst ⟨4, 0⟩ = true ∧
      ((Operation.run (.eraseInstruction ⟨5, 0⟩) program).after?).isSome = true := by
    apply holds_of_runAll? run
  obtain ⟨after, runs⟩ := Option.isSome_iff_exists.mp erases
  exact ⟨status, (nested _).mp status, encloses _ isInst, after, runs,
    together _ after (by simp [Operation.KeepsNested, Operation.Rebinds]) runs _ _ parent⟩

/-- A register write can be made to read something else in the place of what is nested
under it.  The write then goes alone, and what was nested under it is left behind without
a way to any block. -/
theorem nested_sum_left_behind :
    (∃ program, (Program.initial "m" .standard).runAll?
        [.requestType (.function ⟨.void, [], false⟩), .addFunction "f" ⟨13⟩,
          .enableRegisters ⟨0, 0⟩, .allocateRegister ⟨0, 0⟩ ⟨5⟩, .constSigned ⟨5⟩ 1,
          .buildBinary .add ⟨2, 0⟩ ⟨2, 0⟩, .buildRegWrite ⟨1, 0⟩ ⟨3, 0⟩,
          .setUse ⟨3, 0⟩ (some ⟨2, 0⟩)] = some program ∧
      program.status ⟨3, 0⟩ = .ok .reparent ∧
      program.nestingParent? ⟨3, 0⟩ = .ok (some ⟨4, 0⟩) ∧
      program.nestedValue? ⟨4, 0⟩ = .ok none) ∧
    ∃ program, (Program.initial "m" .standard).runAll?
        [.requestType (.function ⟨.void, [], false⟩), .addFunction "f" ⟨13⟩,
          .enableRegisters ⟨0, 0⟩, .allocateRegister ⟨0, 0⟩ ⟨5⟩, .constSigned ⟨5⟩ 1,
          .buildBinary .add ⟨2, 0⟩ ⟨2, 0⟩, .buildRegWrite ⟨1, 0⟩ ⟨3, 0⟩,
          .setUse ⟨3, 0⟩ (some ⟨2, 0⟩), .eraseInstruction ⟨4, 0⟩] = some program ∧
      program.isLive ⟨4, 0⟩ = false ∧ program.status ⟨3, 0⟩ = .ok .reparent ∧
      program.enclosingBlock? ⟨3, 0⟩ = .error (.stale 4 0) := by
  refine ⟨exists_runAll? fun program run => ?_,
    exists_runAll? fun program run => ?_⟩
  · apply holds_of_runAll? run
  · apply holds_of_runAll? run

end ValueGraph
