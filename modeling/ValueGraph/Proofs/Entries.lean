import Mathlib
import ValueGraph.Proofs.Releasing

namespace ValueGraph

open Program List Option

/-!
# Entries for a block that goes

Before a block is erased, the entries for it are dropped from the phis of the blocks that it
leads to and of the others in its function.  A phi has at most one entry for a block, so
all its other entries are left, in their order.
-/

variable {k : Nat} {v : ValueId} {p q : Program} {src b : BlockId} {phi : InstId}
  {phis : List InstId} {e : EdgeId} {d : Edge}

theorem eraseIdx_eq_filter {α : Type} {items : List α} {item : α} {stays : α → Bool}
    (nd : items.Nodup) (found : items[k]? = some item)
    (only : ∀ other ∈ items, stays other = false ↔ other = item) :
    items.eraseIdx k = items.filter stays := by
  classical
  obtain ⟨lt, rfl⟩ := List.getElem?_eq_some_iff.mp found
  rw [← nd.erase_getElem k lt, nd.erase_eq_filter]
  refine filter_congr fun other mem => ?_
  have one := only other mem
  cases shown : stays other with
  | false => simpa using one.mp shown
  | true =>
    rw [shown] at one
    simpa using one

namespace Program

variable {m s : Program} {more : List InstId}

/-- Whether an edge is an entry for a block. -/
def isEntry (program : Program) (source : BlockId) (edge : EdgeId) : Bool :=
  (program.edges.get? edge).any (·.slot == .keyed source)

theorem isEntry_of_edge (h : s.edges.get? e = some d) :
    s.isEntry src e = (d.slot == .keyed src) := by
  rw [isEntry, h, any_some]

/-- The phis in the thread of a block. -/
def phisOf (program : Program) (block : BlockId) : List InstId :=
  (program.threads block).filter program.isPhi

theorem Sound.phis_eq (hs : s.Sound) (read : s.phis b = .ok phis) : s.phisOf b = phis := by
  have hb : s.isBlock b = true := by
    simp only [Program.phis, bind_eq_ok] at read
    obtain ⟨_, readInsts, -⟩ := read
    exact isBlock_of_instructions readInsts
  exact Except.ok.inj ((hs.phis_eq_ok hb).symm.trans read)

/-- An instruction has at most one entry for a block. -/
def EntersOnce (program : Program) (source : BlockId) (phi : InstId) : Prop :=
  ∀ first ∈ program.operandsOf phi, ∀ second ∈ program.operandsOf phi,
    program.isEntry source first = true → program.isEntry source second = true → first = second

/-- A phi that conforms has at most one entry for a block. -/
theorem Conforms.entersOnce (conf : s.Conforms phi) (wired : s.Wired) (isPhi : s.isPhi phi = true) :
    s.EntersOnce src phi := by
  obtain ⟨kind, own, facets, isKind, -, readFacets, accepts⟩ := conf
  rw [Program.isPhi, isKind, beq_iff_eq, some.injEq] at isPhi
  subst isPhi
  obtain ⟨keys, nd, places⟩ := accepts.lays
  -- the place of an entry among the operands is the place of its key
  have atKey : ∀ e ∈ s.operandsOf phi, s.isEntry src e = true →
      (s.operandsOf phi)[keys.idxOf src]? = some e := by
    intro e listed isEntry
    obtain ⟨k, mem⟩ := mem_iff_getElem?.mp listed
    obtain ⟨d, h, -⟩ := wired.edge_of_operand listed
    rw [isEntry_of_edge h, beq_iff_eq] at isEntry
    have slot := slot_of_edgeFacets mem h readFacets
    rw [places, getElem?_map, isEntry] at slot
    obtain ⟨_, found, eq⟩ := map_eq_some_iff.mp slot
    obtain rfl := Slot.keyed.inj eq
    obtain ⟨lt, rfl⟩ := List.getElem?_eq_some_iff.mp found
    rw [nd.idxOf_getElem, mem]
  intro first listedFirst second listedSecond isFirst isSecond
  exact some.inj ((atKey first listedFirst isFirst).symm.trans (atKey second listedSecond isSecond))

/-- Entries for a block go from some phis, and nothing else goes but constants that the
entries owned. -/
structure Sweeps
    (before after : Program)
    (source : BlockId)
    (phis : List InstId) : Prop where
  prunes : before.Prunes default after
  payloads : before.KeepsPayloads after
  operands : ∀ user, after.operandsOf user =
    if user ∈ phis then (before.operandsOf user).filter (!before.isEntry source ·)
    else before.operandsOf user
  edges : ∀ edge data, after.edges.get? edge = some data ↔
    before.edges.get? edge = some data ∧
      ¬ (edge ∈ before.operandsOf data.user ∧ data.user ∈ phis ∧ data.slot = .keyed source)

namespace Sweeps

theorem refl (s : Program) (src : BlockId) : s.Sweeps s src [] where
  prunes := .refl _
  payloads := .of_eq rfl
  operands := by simp
  edges := by simp

theorem operands_sublist (sweeps : p.Sweeps q src phis) (u : ValueId) :
    (q.operandsOf u).Sublist (p.operandsOf u) := by
  rw [sweeps.operands]
  split
  · exact filter_sublist
  · exact .refl _

theorem isEntry_eq (sweeps : p.Sweeps q src phis) (hs : p.Sound) {u : ValueId}
    (listed : e ∈ q.operandsOf u) : q.isEntry src e = p.isEntry src e := by
  obtain ⟨d, h, -⟩ := (sweeps.prunes.sound hs).wired.edge_of_operand listed
  rw [isEntry_of_edge h, isEntry_of_edge ((sweeps.edges e d).mp h).1]

theorem trans (earlier : p.Sweeps m src phis) (later : m.Sweeps q src more) (hs : p.Sound) :
    p.Sweeps q src (phis ++ more) where
  prunes := earlier.prunes.trans later.prunes
  payloads := earlier.payloads.trans later.payloads
  operands u := by
    rw [later.operands]
    have eq : (m.operandsOf u).filter (!m.isEntry src ·) =
        (m.operandsOf u).filter (!p.isEntry src ·) :=
      filter_congr fun e listed => by rw [earlier.isEntry_eq hs listed]
    rw [eq, earlier.operands]
    by_cases inFirst : u ∈ phis <;> by_cases inMore : u ∈ more <;>
      simp [inFirst, inMore, List.filter_filter]
  edges e d := by
    rw [later.edges, earlier.edges, and_assoc]
    refine and_congr_right fun _ => ?_
    constructor
    · rintro ⟨notFirst, notMore⟩ ⟨listed, inBoth, keyed⟩
      have out : d.user ∉ phis := fun inFirst => notFirst ⟨listed, inFirst, keyed⟩
      refine notMore ⟨?_, (mem_append.mp inBoth).resolve_left out, keyed⟩
      rwa [earlier.operands, if_neg out]
    · intro stays
      refine ⟨fun ⟨listed, inFirst, keyed⟩ => stays ⟨listed, by simp [inFirst], keyed⟩,
        fun ⟨listed, inMore, keyed⟩ =>
          stays ⟨(earlier.operands_sublist _).subset listed, by simp [inMore], keyed⟩⟩

section

variable (sweeps : p.Sweeps q src phis) (hs : p.Sound)
include sweeps hs

theorem phisOf_eq : q.phisOf = p.phisOf := by
  funext b
  have phi : q.isPhi = p.isPhi := by
    funext inst
    rw [isPhi, isPhi, sweeps.payloads.kind?]
  rw [phisOf, phisOf, phi, sweeps.prunes.rewires.threads_eq hs]

/-- Entries that are left are for their blocks alone. -/
theorem entersOnce {inst : InstId} (once : p.EntersOnce src inst) : q.EntersOnce src inst := by
  intro first listedFirst second listedSecond isFirst isSecond
  rw [sweeps.isEntry_eq hs listedFirst] at isFirst
  rw [sweeps.isEntry_eq hs listedSecond] at isSecond
  exact once first ((sweeps.operands_sublist inst).subset listedFirst) second
    ((sweeps.operands_sublist inst).subset listedSecond) isFirst isSecond

theorem entriesOf_eq (u : InstId) :
    q.entriesOf u = if u ∈ phis then (p.entriesOf u).filter (·.1 != src) else p.entriesOf u := by
  have stays : q.entriesOf u = (q.operandsOf u).filterMap fun e =>
      (p.edges.get? e).bind Edge.entryFor? := by
    refine filterMap_congr fun e listed => ?_
    obtain ⟨d, h, -⟩ := (sweeps.prunes.sound hs).wired.edge_of_operand listed
    rw [h, ((sweeps.edges e d).mp h).1]
  rw [stays, sweeps.operands]
  split
  · rw [entriesOf, List.filterMap_filter, List.filter_filterMap]
    refine List.filterMap_congr fun e listed => ?_
    obtain ⟨d, h, -⟩ := hs.wired.edge_of_operand listed
    rw [isEntry_of_edge h, h, Option.bind_some, Edge.entryFor?]
    cases d.slot <;> simp [Option.filter]
  · rfl

end

/-! ### What stays -/

section

variable (sweeps : p.Sweeps q src phis)
include sweeps

theorem isConstant_eq_false (noConstant : p.isConstant v = false) : q.isConstant v = false := by
  obtain eq | ⟨c, -⟩ := sweeps.payloads v
  · rwa [isConstant, eq]
  · simp [noConstant] at c

/-- What is not a constant keeps its owners. -/
theorem countOf_eq (neat : p.Neat) (noConstant : p.isConstant v = false) :
    q.countOf v = p.countOf v := by
  exact sweeps.prunes.settles.countOf_eq neat (by rw [sweeps.prunes.rewires.owned_eq]) noConstant
    (sweeps.isConstant_eq_false noConstant)

theorem flowing (hs : p.Sound) (flow : p.Flowing) : q.Flowing :=
  Shrunk.flowing (Redrawn.shrunk sweeps.prunes.redrawn) hs flow

theorem carries_iff {outer inner : InstId} (hs : p.Sound) (writes : p.Writes)
    (isPhi : ∀ phi ∈ phis, p.isPhi phi = true) : q.Carries outer inner ↔ p.Carries outer inner := by
  have holds : q.Holds outer inner ↔ p.Holds outer inner := by
    rw [Holds, Holds, sweeps.prunes.rewires.skeleton.link?]
  constructor
  · rintro ⟨isHeld, e, _, listed, h, isValue⟩
    obtain ⟨d, hEdge, rfl⟩ := map_eq_some_iff.mp h
    refine ⟨holds.mp isHeld, e, _, (sweeps.operands_sublist outer).subset listed, ?_, isValue⟩
    rw [wire?, ((sweeps.edges e d).mp hEdge).1, map_some]
  · rintro ⟨isHeld, e, _, listed, h, isValue⟩
    obtain ⟨d, hEdge, rfl⟩ := map_eq_some_iff.mp h
    have isWrite := writes outer inner isHeld (isLive_of_mem_operandsOf listed)
    have apart : outer ∉ phis := by
      intro inside
      have isPhi := isPhi outer inside
      rw [Program.isPhi, beq_iff_eq] at isPhi
      simp [shell?_of_kind? isPhi, InstKind.shell] at isWrite
    refine ⟨holds.mpr isHeld, e, d.outline, ?_, ?_, isValue⟩
    · rwa [sweeps.operands, if_neg apart]
    · obtain ⟨_, h', isUser⟩ := hs.wired.edge_of_operand listed
      obtain rfl := mem_unique hEdge h'
      rw [wire?, (sweeps.edges e d).mpr ⟨hEdge, fun goes => apart (isUser ▸ goes.2.1)⟩, map_some]

end

end Sweeps

end Program

namespace Step

variable {a : Unit}

theorem removeEntry_sweeps (hs : p.Sound) (once : p.EntersOnce src phi)
    (mem : (p.operandsOf phi)[k]? = some e) (h : p.edges.get? e = some d)
    (keyed : d.slot = .keyed src) (run : (removeOperandAt phi k).run p = .ok (a, q)) :
    p.Sweeps q src [phi] := by
  have nd := hs.wired.nodup phi
  have listed := mem_of_getElem? mem
  have only : ∀ edge ∈ p.operandsOf phi, (!p.isEntry src edge) = false ↔ edge = e := by
    intro edge listedOther
    have isEntry : p.isEntry src e = true := by simp [isEntry_of_edge h, keyed]
    rw [Bool.not_eq_false']
    exact ⟨fun isOther => once edge listedOther e listed isOther isEntry, fun eq => eq ▸ isEntry⟩
  obtain ⟨_, _, memberAgain, h', rem, places, kept⟩ := removeOperandAt_spec hs.stored
    hs.wired.placid hs.wired.uses nd run
  obtain rfl := mem_unique mem memberAgain
  obtain rfl := mem_unique h h'
  have shorter := eraseIdx_eq_filter nd mem only
  have edges : ∀ edge, q.edges.get? edge =
      if edge = e then none else p.edges.get? edge := by
    intro edge
    by_cases stays : edge ∈ (p.operandsOf phi).eraseIdx k
    · have ne : edge ≠ e := by
        rintro rfl
        rw [shorter, mem_filter, (only edge listed).mpr rfl] at stays
        simp at stays
      have unmoved : Edge.closing d.slot = id := by
        funext place
        rw [keyed]
        rfl
      simpa [ne, unmoved] using places edge stays
    · simpa using rem.edges edge stays
  refine ⟨removeEntry_prunes hs mem h keyed run, kept, fun u => ?_, fun edge data => ?_⟩
  · rw [rem.operands, shorter, Function.update_apply]
    simp only [mem_singleton]
    split
    next eq => rw [eq]
    next => rfl
  · obtain ⟨_, hOnce, isUser⟩ := hs.wired.edge_of_operand listed
    obtain rfl := mem_unique h hOnce
    rw [edges]
    split
    next eq =>
      subst eq
      refine iff_of_false nofun fun ⟨again, stays⟩ => stays ?_
      obtain rfl := mem_unique h again
      exact ⟨isUser ▸ listed, by simp [isUser], keyed⟩
    next ne =>
      refine (and_iff_left_of_imp fun hOther => ?_).symm
      rintro ⟨listedOther, isPhi, keyedOther⟩
      rw [mem_singleton.mp isPhi] at listedOther
      refine ne ((only edge listedOther).mp ?_)
      simp [isEntry_of_edge hOther, keyedOther]

theorem dropEntry_sweeps {flag : Bool} (hs : p.Sound) (once : p.EntersOnce src phi)
    (run : (dropEntry phi src).run p = .ok (flag, q)) : p.Sweeps q src [phi] := by
  obtain ⟨entry, read, run⟩ := run_look.mp run
  simp only [entryFor?, bind_eq_ok, operands_eq_ok] at read
  obtain ⟨_, ⟨n, isNode, rfl⟩, readEntry⟩ := read
  rw [← operandsOf_eq isNode] at readEntry
  cases entry with
  | none =>
    obtain ⟨-, rfl⟩ := run_pure.mp run
    have absent := entryAmong?_eq_none readEntry
    refine ⟨.refl _, .of_eq rfl, fun u => ?_, fun e d => ?_⟩
    · split
      next isPhi =>
        obtain rfl := mem_singleton.mp isPhi
        refine (filter_eq_self.mpr fun e listed => ?_).symm
        obtain ⟨d, h, -⟩ := hs.wired.edge_of_operand listed
        simpa [isEntry_of_edge h] using absent e listed d h
      next => rfl
    · refine (and_iff_left_of_imp fun h => ?_).symm
      rintro ⟨listed, isPhi, keyed⟩
      rw [mem_singleton.mp isPhi] at listed
      exact absent e listed d h keyed
  | some e =>
    simp only [run_bind, run_lift, run_pure] at run
    obtain ⟨k, _, ⟨readIndex, rfl⟩, _, _, runRemove, -, rfl⟩ := run
    obtain ⟨-, d, h, keyed⟩ := entryAmong?_eq_some readEntry
    exact removeEntry_sweeps hs once (operandIndex_eq_ok readIndex) h keyed runRemove

theorem dropEntries_sweeps (hs : p.Sound) (once : ∀ phi ∈ phis, p.EntersOnce src phi)
    (run : (phis.forM fun phi => do let _ ← dropEntry phi src).run p = .ok (a, q)) :
    p.Sweeps q src phis := by
  induction phis generalizing p with
  | nil =>
    obtain rfl := run_forM_nil.mp run
    exact .refl _ _
  | cons phi rest ih =>
    obtain ⟨m, runPhi, run'⟩ := run_forM_cons.mp run
    obtain ⟨_, _, runEntry, runPure⟩ := run_bind.mp runPhi
    obtain ⟨-, rfl⟩ := run_pure.mp runPure
    have first := dropEntry_sweeps hs (once phi (by simp)) runEntry
    refine first.trans (ih (first.prunes.sound hs) (fun inst mem => ?_) run') hs
    exact first.entersOnce hs (once inst (by simp [mem]))

theorem dropEntriesFrom_sweeps {holders : List BlockId} (hs : p.Sound)
    (once : ∀ phi ∈ holders.flatMap p.phisOf, p.EntersOnce src phi)
    (run : (holders.forM fun holder => dropEntriesFrom holder src).run p = .ok (a, q)) :
    p.Sweeps q src (holders.flatMap p.phisOf) := by
  induction holders generalizing p with
  | nil =>
    obtain rfl := run_forM_nil.mp run
    exact .refl _ _
  | cons holder rest ih =>
    obtain ⟨m, runHolder, run'⟩ := run_forM_cons.mp run
    obtain ⟨phis, read, runPhis⟩ := run_look.mp runHolder
    obtain rfl := hs.phis_eq read
    have first : p.Sweeps m src (p.phisOf holder) :=
      dropEntries_sweeps hs (fun phi mem => once phi (by simp [mem])) runPhis
    have others := ih (first.prunes.sound hs) (fun phi mem => ?_) run'
    · rw [first.phisOf_eq hs] at others
      exact first.trans others hs
    · rw [first.phisOf_eq hs] at mem
      exact first.entersOnce hs (once phi (by
        rw [flatMap_cons, mem_append]
        exact .inr mem))

end Step

end ValueGraph
