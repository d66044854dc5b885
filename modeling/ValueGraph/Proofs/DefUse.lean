import Mathlib
import ValueGraph.Proofs.Runs

open Function

namespace ValueGraph

open Program List Option

/-!
# Edges and the two lists that mention them

Every edge is a use of what it reads.  It is an operand of the node that reads
through it as well, for as long as nothing is added to the operands of finalized
instructions: these are given up without a look at what they read.
-/

variable {s : Program} {i : InstId} {e : EdgeId} {d : Edge} {u v : ValueId}

namespace Program

variable {p q : Program} {pr : Promise}

/-- Finalized instructions read nothing, and every edge is an operand of its user. -/
structure Tidy (program : Program) : Prop where
  stripped : ∀ inst, program.status? inst = some .finalized → program.operandsOf inst = []
  claimed : ∀ edge data, program.wire? edge = some data → edge ∈ program.operandsOf data.user

theorem status?_eq_some_iff {st : Status} :
    s.status? i = some st ↔ ∃ l, s.link? i = some l ∧ l.status = st := by
  rw [status?, map_eq_some_iff]

theorem Refloats.finalized_before (refloats : p.Refloats q) (fin : q.status? i = some .finalized) :
    p.status? i = some .finalized := by
  rcases refloats i with eq | ⟨old, new, -, h, -, floats⟩
  · rwa [status?, ← eq]
  · obtain ⟨_, h', isFinalized⟩ := status?_eq_some_iff.mp fin
    obtain rfl := mem_unique h h'
    rw [Status.Floats, isFinalized] at floats
    simp at floats

namespace Tidy

section

variable (tidy : p.Tidy)
include tidy

theorem of_same (ops : q.operandsOf = p.operandsOf) (wires : q.wire? = p.wire?)
    (fin : ∀ i, q.status? i = some .finalized → p.status? i = some .finalized) : q.Tidy where
  stripped i isFinalized := by
    rw [ops]
    exact tidy.stripped i (fin i isFinalized)
  claimed := by
    rw [ops, wires]
    exact tidy.claimed

theorem of_joins (joins : p.Joins q e d)
    (spares : ∀ l, p.link? d.user = some l → l.status ≠ .finalized) : q.Tidy where
  stripped i fin := by
    rw [status?, joins.added.rewires.skeleton.link?] at fin
    have ne : i ≠ d.user := by
      rintro rfl
      obtain ⟨l, h, isFinalized⟩ := status?_eq_some_iff.mp fin
      exact spares l h isFinalized
    rw [joins.added.operands, update_of_ne ne]
    exact tidy.stripped i fin
  claimed edge data h := by
    rw [joins.added.wires, update_apply] at h
    rw [joins.added.operands, update_apply]
    split at h
    next isNew =>
      obtain rfl := some.inj h
      simp [isNew, Edge.outline]
    next =>
      have mem := tidy.claimed edge data h
      split
      next eq => exact mem_append_left _ (eq ▸ mem)
      next => exact mem

theorem of_joined (joined : Joined u p q)
    (spares : ∀ l, p.link? u = some l → l.status ≠ .finalized) :
    q.Tidy ∧ q.link? u = p.link? u := by
  induction joined with
  | refl => exact ⟨tidy, rfl⟩
  | tail _ last ih =>
    obtain ⟨tidyMiddle, sameLink⟩ := ih
    obtain ⟨e, d, joins, rfl⟩ := last
    refine ⟨tidyMiddle.of_joins joins fun l h => spares l (sameLink ▸ h), ?_⟩
    rw [joins.added.rewires.skeleton.link?, sameLink]

theorem of_edgeMoved {new : ValueId} (moved : p.EdgeMoved q e d new) : q.Tidy where
  stripped i finalized := by
    rw [status?, moved.rewires.skeleton.link?] at finalized
    rw [moved.operands]
    exact tidy.stripped i finalized
  claimed edge data h := by
    rw [moved.operands]
    rw [moved.wires, update_apply] at h
    split at h
    next isEdge =>
      obtain rfl := some.inj h
      have hBefore : p.wire? e = some d.outline := by
        rw [wire?, moved.held, map_some]
      have mem : e ∈ p.operandsOf d.user := tidy.claimed e d.outline hBefore
      exact isEdge ▸ mem
    next => exact tidy.claimed edge data h

theorem of_operandsRemoved {kept gone : List EdgeId} {cut : Option (BlockId × BlockId)}
    (rem : p.OperandsRemoved q u kept gone cut) (fewer : kept.Sublist (p.operandsOf u))
    (covers : ∀ e ∈ p.operandsOf u, e ∈ kept ∨ e ∈ gone) : q.Tidy where
  stripped i fin := by
    rw [status?, rem.rewires.skeleton.link?] at fin
    have none := tidy.stripped i fin
    exact sublist_nil.mp (none ▸ (rem.sheds fewer).operands i)
  claimed e d h := by
    rw [rem.wires] at h
    split at h
    · cases h
    next remains =>
      have mem := tidy.claimed e d h
      rw [rem.operands, update_apply]
      split
      next eq => exact (covers e (eq ▸ mem)).resolve_right remains
      next => exact mem

/-- All operands of a node are removed. -/
theorem of_cleared (rem : p.OperandsRemoved q u [] (p.operandsOf u) none) : q.Tidy :=
  tidy.of_operandsRemoved rem (nil_sublist _) fun _ mem => Or.inr mem

/-- A node that is given up reads nothing. -/
theorem of_dropped (drop : p.Dropped q v) (reads : p.countOf v = 1 → p.operandsOf v = []) :
    q.Tidy := by
  have ops : q.operandsOf = p.operandsOf := by
    rcases drop.exchanged_or with ⟨-, -, eq⟩ | ⟨last, -, -, cleared⟩
    · exact eq
    · rw [cleared, ← reads last, update_eq_self]
  refine tidy.of_same ops drop.wire? fun i fin => ?_
  obtain ⟨l, h, isFinalized⟩ := status?_eq_some_iff.mp fin
  exact status?_eq_some_iff.mpr ⟨l, drop.link?_before h, isFinalized⟩

theorem operandsOf_of_bare (hs : p.Sound) (bare : p.Bare v) : p.operandsOf v = [] := by
  by_contra reads
  rcases hs.wired.placid v reads with hi | hg
  · obtain ⟨d, h⟩ := exists_inst?_of_isInst hi
    have fin := bare _ (inst?_eq_some_iff.mp h)
    exact reads (tidy.stripped v (status?_eq_some_iff.mpr ⟨_, link?_of_inst? h, fin⟩))
  · rw [isGlobal_eq, isSome_iff_exists] at hg
    obtain ⟨d, h⟩ := hg
    exact reads (bare _ (global?_eq_some_iff.mp h)).1

theorem of_wrecks (wrecks : p.Wrecks q) : q.Tidy := by
  cases wrecks with
  | detach i reth =>
    exact tidy.of_same reth.operands reth.wire? fun _ =>
      reth.refloats.finalized_before
  | strip i l h st rem => exact tidy.of_cleared rem
  | mark i l st stripped relink =>
    -- the mark is set on an instruction that reads nothing any more
    have rea := relink.restrings.rearranges
    refine ⟨fun inst fin => ?_, ?_⟩
    · rw [rea.operands]
      by_cases eq : inst = i
      · rw [eq, stripped]
      · refine tidy.stripped inst ?_
        rwa [status?, relink.links, update_of_ne eq] at fin
    · rw [rea.operands, rea.wire?]
      exact tidy.claimed
  | drop i l h fin dropped =>
    exact tidy.of_dropped dropped fun _ =>
      tidy.stripped i (status?_eq_some_iff.mpr ⟨l, h, fin⟩)

theorem of_wrecked (wrecked : Wrecked p q) : q.Tidy := by
  induction wrecked with
  | refl => exact tidy
  | tail _ last ih => exact ih.of_wrecks last

theorem of_redraws (redraws : p.Redraws pr q) (spares : pr.sparesFinalized) : q.Tidy := by
  cases redraws with
  | connect e d joins conf growing rules sparesUser =>
    exact tidy.of_joins joins (sparesUser spares)
  | rebind e d new moved => exact tidy.of_edgeMoved moved
  | unread u k e d mem h optional rem =>
    refine tidy.of_operandsRemoved rem (eraseIdx_sublist _ _) fun edge listed => ?_
    by_cases eq : edge = e
    · exact Or.inr (by simp [eq])
    · obtain ⟨pos, found⟩ := mem_iff_getElem?.mp listed
      refine Or.inl (mem_eraseIdx_iff_getElem?.mpr ⟨pos, ?_, found⟩)
      rintro rfl
      exact eq (mem_unique found mem)
  | clear g hg rem => exact tidy.of_cleared rem

theorem of_shapes (hs : p.Sound) (shapes : p.Shapes pr q) (spares : pr.sparesFinalized) :
    q.Tidy := by
  have eq : ∀ {s : Program}, s.link? = p.link? → ∀ i,
      s.status? i = some .finalized → p.status? i = some .finalized :=
    fun links i fin => by rwa [status?, ← links]
  cases shapes with
  | raze razed => exact tidy.of_wrecked razed.wrecked
  | relabel lab => exact tidy.of_same lab.operands lab.wire? (eq lab.link?)
  | retain v retained =>
    refine tidy.of_same retained.operandsOf ?_ (eq ?_)
    · funext e
      simp only [wire?, retained.edges]
    · simp only [link?_eq_bind, retained.payload?]
  | drop v dropped bare =>
    exact tidy.of_dropped dropped fun last => tidy.operandsOf_of_bare hs (bare last)
  | redraw redraws => exact tidy.of_redraws redraws spares
  | thread threads reth =>
    exact tidy.of_same reth.operands reth.wire? fun _ =>
      reth.refloats.finalized_before
  | resettle settle =>
    refine tidy.of_same settle.operands ?_ (eq settle.links)
    funext e
    simp only [wire?, settle.edges]

end

end Tidy

theorem kept_tidy (spares : pr.sparesFinalized) : Kept pr Tidy where
  grow := by
    intro p q v ty payload hs hsq added blank noInst tidy
    refine tidy.of_same added.operandsOf added.wire? fun i fin => ?_
    rw [status?, added.exchanged.link?, update_apply] at fin
    split at fin
    · cases payload <;> simp_all [Payload.category, Payload.inst?]
    · exact fin
  build := by
    intro p q i ty kind hs built tidy
    obtain ⟨started, added, joined⟩ := built.added
    have isNew : started.link? i = some (Inst.fresh kind).link := by
      rw [added.exchanged.link?, update_self]
      rfl
    refine (Tidy.of_joined (tidy.of_same added.operandsOf added.wire? fun inst fin => ?_)
      joined fun l h => ?_).1
    · rw [status?, added.exchanged.link?, update_apply] at fin
      split at fin
      · simp [Payload.inst?, Inst.link, Inst.fresh] at fin
      · exact fin
    · obtain rfl := mem_unique isNew h
      simp [Inst.link, Inst.fresh]
  adopt := by
    intro p q i write l hs adopts tidy
    have rea := adopts.relinked.restrings.rearranges
    refine tidy.of_same rea.operands rea.wire? fun inst fin => ?_
    rw [status?, adopts.relinked.links, update_apply] at fin
    split at fin
    · simp [Link.nested] at fin
    · exact fin
  shape := fun hs shapes tidy => tidy.of_shapes hs shapes spares

/-- Whatever runs lead to that add nothing to finalized instructions, edges are tidy. -/
theorem tidy_of_runAll? {name : String} {cfg : Settings} {ops : List Operation}
    (run : (initial name cfg).runAll? ops = some s)
    (along : (initial name cfg).Along (fun p op _ => op.SparesFinalized p) ops) : s.Tidy := by
  refine (runAll?_invariant (fun hs tidy spares leads => ?_) (sound_initial name cfg) ?_
    along run).2
  · exact (kept_tidy spares).reaches hs leads.reaches tidy
  · exact ⟨by simp, by simp⟩

theorem Tidy.operand_count (tidy : s.Tidy) (hs : s.Sound) (h : s.edges.get? e = some d) :
    ∃ n, s.values.get? d.user = some n ∧ n.operands.count e = 1 := by
  have hWire := wire?_of_get? h
  have mem : e ∈ s.operandsOf d.user := tidy.claimed e d.outline hWire
  obtain ⟨n, found⟩ := Arena.contains_iff_get?.mp (isLive_of_mem_operandsOf mem)
  refine ⟨n, found, ?_⟩
  rw [← operandsOf_eq found]
  exact count_eq_one_of_mem (hs.wired.nodup d.user) mem

theorem Wired.use_count (wired : s.Wired) (h : s.edges.get? e = some d) :
    ∃ n, s.values.get? d.value = some n ∧ n.usedBy.count e = 1 := by
  have hWire := wire?_of_get? h
  have mem : e ∈ s.usesOf d.value := (wired.uses.mem_iff d.value e).mpr ⟨_, hWire, rfl⟩
  have live : s.isLive d.outline.value = true := wired.value_live hWire
  obtain ⟨n, found⟩ : ∃ n, s.values.get? d.value = some n := Arena.contains_iff_get?.mp live
  refine ⟨n, found, ?_⟩
  rw [← usesOf_eq found]
  exact count_eq_one_of_mem (wired.uses.nodup d.value) mem

theorem Wired.edge_of_operand (wired : s.Wired) (mem : e ∈ s.operandsOf u) :
    ∃ d, s.edges.get? e = some d ∧ d.user = u := by
  obtain ⟨_, h, rfl⟩ := wired.own u e mem
  obtain ⟨d, found, rfl⟩ := map_eq_some_iff.mp h
  exact ⟨d, found, rfl⟩

theorem Wired.edge_of_use (wired : s.Wired) (mem : e ∈ s.usesOf v) :
    ∃ d, s.edges.get? e = some d ∧ d.value = v := by
  obtain ⟨_, h, rfl⟩ := (wired.uses.mem_iff v e).mp mem
  obtain ⟨d, found, rfl⟩ := map_eq_some_iff.mp h
  exact ⟨d, found, rfl⟩

end Program

/-- Edges and the lists of nodes mirror each other: the user and the value of an edge are
there and each lists the edge once, whatever a node lists is an edge of that node, and no
edge mentions a node that is gone. -/
theorem edges_mirror_lists {name : String} {settings : Settings} {operations : List Operation}
    {program : Program} (run : (Program.initial name settings).runAll? operations = some program)
    (along : (Program.initial name settings).Along
      (fun before operation _ => operation.SparesFinalized before) operations) :
    (∀ edge data, program.edges.get? edge = some data →
      (∃ user, program.values.get? data.user = some user ∧ user.operands.count edge = 1) ∧
      ∃ value, program.values.get? data.value = some value ∧ value.usedBy.count edge = 1) ∧
    (∀ handle node, program.values.get? handle = some node → (∀ edge ∈ node.operands,
        ∃ data, program.edges.get? edge = some data ∧ data.user = handle) ∧
      ∀ edge ∈ node.usedBy, ∃ data, program.edges.get? edge = some data ∧ data.value = handle) ∧
    ∀ handle, program.values.get? handle = none → ∀ edge data, program.edges.get? edge = some data →
        data.user ≠ handle ∧ data.value ≠ handle := by
  have sound := sound_of_runAll? run
  have tidy := tidy_of_runAll? run along
  refine ⟨fun edge data held => ⟨tidy.operand_count sound held, sound.wired.use_count held⟩,
    fun handle node found => ⟨fun edge member => ?_, fun edge member => ?_⟩,
    fun handle gone edge data held => ⟨?_, ?_⟩⟩
  · exact sound.wired.edge_of_operand (by rwa [operandsOf_eq found])
  · exact sound.wired.edge_of_use (by rwa [usesOf_eq found])
  · rintro rfl
    obtain ⟨node, found, -⟩ := tidy.operand_count sound held
    simp [gone] at found
  · rintro rfl
    obtain ⟨node, found, -⟩ := sound.wired.use_count held
    simp [gone] at found

/-- The edge of a case that is added to a switch, after the client gave up the condition. -/
theorem edges_mirror_lists_of_switch :
    ∃ program, (Program.initial "m" .standard).runAll?
        ([.createBlock, .constSigned ⟨5⟩ 1, .buildSwitch ⟨1, 0⟩ ⟨0, 0⟩] ++
          [.addCase ⟨2, 0⟩ 7 ⟨0, 0⟩, .release ⟨1, 0⟩]) = some program ∧
      program.edges.get? ⟨2, 0⟩ = some ⟨⟨2, 0⟩, ⟨0, 0⟩, .indexed 0⟩ ∧
      (∃ user, program.values.get? ⟨2, 0⟩ = some user ∧ user.operands.count ⟨2, 0⟩ = 1) ∧
      ∃ value, program.values.get? ⟨0, 0⟩ = some value ∧ value.usedBy.count ⟨2, 0⟩ = 1 := by
  refine exists_runAll? fun program run => ?_
  have held : program.edges.get? ⟨2, 0⟩ = some ⟨⟨2, 0⟩, ⟨0, 0⟩, .indexed 0⟩ := by
    apply holds_of_runAll? run
  refine ⟨held, (edges_mirror_lists run ?_).1 _ _ held⟩
  refine .append (along_of_forall ?_ _) fun middle runFirst after _ =>
    ⟨?_, fun _ _ => ⟨?_, trivial⟩⟩
  · simp [Operation.SparesFinalized]
  · have status : middle.status? ⟨2, 0⟩ = some .disconnected := by
      apply holds_of_runAll? runFirst
    simp [Operation.SparesFinalized, status]
  · simp [Operation.SparesFinalized]

/-- A finalized instruction reads nothing, and no edge names it as its user, so none is
left behind when it is given up; this is so as long as nothing is added to the operands of
instructions that are finalized. -/
theorem finalized_reads_nothing {name : String} {settings : Settings}
    {operations : List Operation} {program : Program}
    (run : (Program.initial name settings).runAll? operations = some program)
    (along : (Program.initial name settings).Along
      (fun before operation _ => operation.SparesFinalized before) operations) {inst : InstId}
    (finalized : program.status inst = .ok .finalized) :
    program.operands inst = .ok [] ∧
      ∀ edge data, program.edges.get? edge = some data → data.user ≠ inst := by
  have sound := sound_of_runAll? run
  have tidy := tidy_of_runAll? run along
  obtain ⟨data, held, isFinalized⟩ := status_eq_ok.mp finalized
  have heldLink := link?_of_inst? held
  have none := tidy.stripped inst (status?_eq_some_iff.mpr ⟨data.link, heldLink, isFinalized⟩)
  obtain ⟨node, found, -⟩ := payload?_eq_some_iff.mp (inst?_eq_some_iff.mp held)
  rw [operandsOf_eq found] at none
  refine ⟨operands_eq_ok.mpr ⟨node, found, none⟩, ?_⟩
  rintro edge wire heldEdge rfl
  obtain ⟨_, foundAgain, listed⟩ := tidy.operand_count sound heldEdge
  obtain rfl := mem_unique found foundAgain
  simp [none] at listed

/-- A switch with a case that is finalized while the client holds it. -/
theorem finalized_switch_reads_nothing :
    ∃ program, (Program.initial "m" .standard).runAll?
        ([.createBlock, .constSigned ⟨5⟩ 1, .buildSwitch ⟨1, 0⟩ ⟨0, 0⟩] ++
          [.addCase ⟨2, 0⟩ 7 ⟨0, 0⟩, .finalize ⟨2, 0⟩]) = some program ∧
      program.status ⟨2, 0⟩ = .ok .finalized ∧ program.operands ⟨2, 0⟩ = .ok [] ∧
      ∀ edge data, program.edges.get? edge = some data → data.user ≠ ⟨2, 0⟩ := by
  refine exists_runAll? fun program run => ?_
  have finalized : program.status ⟨2, 0⟩ = .ok .finalized := by
    apply holds_of_runAll? run
  refine ⟨finalized, finalized_reads_nothing run ?_ finalized⟩
  refine .append (along_of_forall ?_ _) fun middle runFirst after _ =>
    ⟨?_, fun _ _ => ⟨?_, trivial⟩⟩
  · simp [Operation.SparesFinalized]
  · have status : middle.status? ⟨2, 0⟩ = some .disconnected := by
      apply holds_of_runAll? runFirst
    simp [Operation.SparesFinalized, status]
  · simp [Operation.SparesFinalized]

/-- A case can be added to a switch that is finalized; the edge stays behind when the
switch is given up. -/
theorem finalized_switch_reads_added_case :
    (∃ program, (Program.initial "m" .standard).runAll?
        [.createBlock, .constSigned ⟨5⟩ 1, .buildSwitch ⟨1, 0⟩ ⟨0, 0⟩, .finalize ⟨2, 0⟩,
          .addCase ⟨2, 0⟩ 7 ⟨0, 0⟩] = some program ∧
      program.status ⟨2, 0⟩ = .ok .finalized ∧ program.operands ⟨2, 0⟩ = .ok [⟨1, 1⟩]) ∧
    ∃ program, (Program.initial "m" .standard).runAll?
        [.createBlock, .constSigned ⟨5⟩ 1, .buildSwitch ⟨1, 0⟩ ⟨0, 0⟩, .finalize ⟨2, 0⟩,
          .addCase ⟨2, 0⟩ 7 ⟨0, 0⟩, .release ⟨2, 0⟩] = some program ∧
      program.isLive ⟨2, 0⟩ = false ∧
      program.edges.get? ⟨1, 1⟩ = some ⟨⟨2, 0⟩, ⟨0, 0⟩, .indexed 0⟩ := by
  refine ⟨exists_runAll? fun program run => ?_,
    exists_runAll? fun program run => ?_⟩
  · apply holds_of_runAll? run
  · apply holds_of_runAll? run

end ValueGraph
