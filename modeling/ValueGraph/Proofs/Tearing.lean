import Mathlib
import ValueGraph.Proofs.CollectionProgress

namespace ValueGraph

open Program List Option Payload

/-!
# What goes with the instructions of some blocks

When the instructions of some blocks are taken apart, what they carry goes with them, step
by step.  Whatever is not carried keeps its operands and its place, and its owners unless
it is a constant.  An edge goes exactly if its user does.
-/

variable {d : Edge} {e : EdgeId} {write i : InstId} {p q : Program} {blocks : List BlockId}
  {v : ValueId}

/-! ### Nodes apart from edges -/

/-- What a payload says apart from the flow graph. -/
def Payload.core : Payload → Payload
  | .block data => .block { data with jumpsTo := .empty, comesFrom := .empty }
  | payload => payload

/-- The type, the name and the payload of a node, apart from the flow graph. -/
def Node.core (node : Node) : (TypeId × Option Name) × Payload :=
  (node.label, node.payload.core)

namespace Program

variable {s : Program}

/-- What the node behind a handle is, apart from edges, owners and the flow graph. -/
def core? (program : Program) (value : ValueId) : Option ((TypeId × Option Name) × Payload) :=
  (program.values.get? value).map Node.core

theorem isBlock_eq_seat? (s : Program) : s.isBlock = fun b => (s.seat? b).isSome := by
  rw [isBlock_eq_ends?]
  funext b
  simp [ends?, seat?]

theorem isBlock_eq_false_of_isInst (hi : p.isInst v = true) : p.isBlock v = false := by
  rw [Program.isInst, beq_iff_eq] at hi
  simp [isBlock, hi]

theorem Sound.user_of_operand {u : ValueId} (hs : p.Sound) (listed : e ∈ p.operandsOf u)
    (h : p.edges.get? e = some d) : d.user = u := by
  obtain ⟨data, again, isUser⟩ := hs.wired.edge_of_operand listed
  obtain rfl := mem_unique h again
  exact isUser

/-- What stands in a block that stays is not within the blocks that go. -/
theorem Sound.not_within {b : BlockId} (hs : p.Sound) (stays : b ∉ blocks)
    (inThread : i ∈ p.threads b) :
    ¬ p.Within (blocks.flatMap p.threads) i := by
  obtain ⟨l, h, -, holder⟩ := hs.chains.link_of_mem inThread
  rintro ⟨root, mem, path⟩
  rcases path.cases_tail with rfl | ⟨outer, -, again, h', nested⟩
  · obtain ⟨block, goes, inOther⟩ := mem_flatMap.mp mem
    exact stays (hs.chains.block_unique inThread inOther ▸ goes)
  · obtain rfl := mem_unique h h'
    simp [holder] at nested

theorem inst?_congr (links : q.link? i = p.link? i) (kinds : q.kind? i = p.kind? i) :
    q.inst? i = p.inst? i := by
  rw [link?, link?] at links
  rw [kind?, kind?] at kinds
  cases old : p.inst? i with
  | none => simpa [old] using kinds
  | some d =>
    rw [old, map_some, map_eq_some_iff] at links kinds
    obtain ⟨new, h, sameLink⟩ := links
    obtain ⟨again, h', sameKind⟩ := kinds
    obtain rfl := mem_unique h h'
    cases new
    cases d
    simp_all [Inst.link]

theorem isTerminator_congr {old new : Link} (kinds : q.kind? i = p.kind? i)
    (h : p.link? i = some old) (hNew : q.link? i = some new) :
    new.isTerminator = old.isTerminator := by
  obtain ⟨d, hData, rfl⟩ := map_eq_some_iff.mp h
  obtain ⟨now, hNow, rfl⟩ := map_eq_some_iff.mp hNew
  rw [kind?, kind?, hData, hNow, map_some, map_some, some.injEq] at kinds
  rw [Inst.link, Inst.link, kinds]

/-- A block is what its seat and the ends of its chain say, apart from the flow graph. -/
theorem block?_congr {d : Block} (seats : q.seat? v = p.seat? v) (ends : q.ends? v = p.ends? v)
    (h : p.block? v = some d) :
    ∃ new, q.block? v = some new ∧ (Payload.block new).core = (Payload.block d).core := by
  rw [seat?, seat?, h, map_some, map_eq_some_iff] at seats
  rw [ends?, ends?, h, map_some, map_eq_some_iff] at ends
  obtain ⟨new, hNew, sameSeat⟩ := seats
  obtain ⟨again, h', sameEnds⟩ := ends
  obtain rfl := mem_unique hNew h'
  refine ⟨new, hNew, ?_⟩
  cases new
  cases d
  simp_all [Block.ends, core]

theorem core?_congr (labels : q.label? v = p.label? v)
    (constants : q.constantOf? v = p.constantOf? v) (insts : q.inst? v = p.inst? v)
    (seats : q.seat? v = p.seat? v) (ends : q.ends? v = p.ends? v)
    (fns : q.function? v = p.function? v) (globals : q.global? v = p.global? v)
    (args : q.argument? v = p.argument? v) (regs : q.register? v = p.register? v) :
    q.core? v = p.core? v := by
  cases absent : p.values.get? v with
  | none =>
    rw [label?, label?, absent, map_none, map_eq_none_iff] at labels
    rw [core?, core?, absent, labels]
  | some n =>
    rw [label?, label?, absent, map_some, map_eq_some_iff] at labels
    obtain ⟨new, foundNew, sameLabel⟩ := labels
    rw [core?, core?, absent, foundNew, map_some, map_some, some.injEq, Node.core, Node.core,
      sameLabel]
    congr 1
    have h : p.payload? v = some n.payload := by rw [payload?, absent]; rfl
    have hNew : q.payload? v = some new.payload := by rw [payload?, foundNew]; rfl
    have determined : ∀ contents, q.payload? v = some contents → new.payload = contents :=
      fun contents again => mem_unique hNew again
    -- the view that shows the old payload shows the new one as well
    cases shape : n.payload with
    | constant content =>
      simp only [constantOf?_eq_bind, h, hNew, shape] at constants
      cases shapeNew : new.payload <;> simp_all [Payload.constant?]
    | inst d =>
      rw [determined _ (inst?_eq_some_iff.mp (insts.trans (inst?_eq_some_iff.mpr (shape ▸ h))))]
    | block d =>
      obtain ⟨now, hNow, eq⟩ := block?_congr seats ends (block?_eq_some_iff.mpr (shape ▸ h))
      rw [determined _ (block?_eq_some_iff.mp hNow), eq]
    | function d =>
      rw [determined _ (function?_eq_some_iff.mp
        (fns.trans (function?_eq_some_iff.mpr (shape ▸ h))))]
    | global d =>
      rw [determined _ (global?_eq_some_iff.mp
        (globals.trans (global?_eq_some_iff.mpr (shape ▸ h))))]
    | argument d =>
      rw [determined _ (argument?_eq_some_iff.mp
        (args.trans (argument?_eq_some_iff.mpr (shape ▸ h))))]
    | register d =>
      rw [determined _ (register?_eq_some_iff.mp
        (regs.trans (register?_eq_some_iff.mpr (shape ▸ h))))]

theorem block?_of_core? {d : Block} (eq : q.core? v = p.core? v) (h : p.block? v = some d) :
    ∃ new, q.block? v = some new ∧ new.parent = d.parent ∧ new.ends = d.ends := by
  obtain ⟨n, found, shape⟩ := payload?_eq_some_iff.mp (block?_eq_some_iff.mp h)
  rw [core?, core?, found, map_some, map_eq_some_iff] at eq
  obtain ⟨new, foundNew, sameCore⟩ := eq
  rw [Node.core, Node.core, shape, Prod.mk.injEq] at sameCore
  cases shapeNew : new.payload with
  | block now =>
    rw [shapeNew] at sameCore
    refine ⟨now, block?_eq_some_iff.mpr (payload?_eq_some_iff.mpr ⟨new, foundNew, shapeNew⟩), ?_⟩
    cases now
    cases d
    simp_all [core, Block.ends]
  | _ =>
    rw [shapeNew] at sameCore
    cases sameCore.2

/-- Labels stay while instructions are taken apart. -/
theorem Wrecks.labels (wrecks : p.Wrecks q) (live : q.isLive v = true) :
    q.label? v = p.label? v := by
  cases wrecks with
  | detach _ reth => exact congrFun reth.labels v
  | strip _ _ _ _ rem => exact rem.rewires.labels v live
  | mark _ _ _ _ relink => exact congrFun relink.restrings.labels v
  | drop gone _ _ _ dropped =>
    obtain ⟨-, nodes⟩ | ⟨-, -, -, nodes⟩ := dropped.outcome
    · rw [label?, label?, nodes]
    · have ne : v ≠ gone := by
        rintro rfl
        obtain ⟨n, found⟩ := Arena.contains_iff_get?.mp live
        simp [nodes] at found
      rw [label?, label?, nodes, Function.update_of_ne ne]

theorem Wrecked.labels (wrecked : Wrecked p q) (live : q.isLive v = true) :
    q.label? v = p.label? v := by
  induction wrecked with
  | refl => rfl
  | tail earlier last ih =>
    rw [last.labels live, ih (last.wanes.isLive live)]

/-- An edge stays while instructions are taken apart, or its user is stripped. -/
theorem Wrecks.edge_kept (wrecks : p.Wrecks q) (h : p.edges.get? e = some d) :
    q.edges.get? e = some d ∨ ∃ u, e ∈ p.operandsOf u ∧ q.operandsOf u = [] := by
  cases wrecks with
  | detach _ reth => exact Or.inl (by rw [reth.edges, h])
  | strip u _ _ _ rem =>
    by_cases listed : e ∈ p.operandsOf u
    · exact Or.inr ⟨u, listed, by rw [rem.operands, Function.update_self]⟩
    · exact Or.inl (by rw [rem.edges e (by simp), if_neg listed, h])
  | mark _ _ _ _ relink => exact Or.inl (by rw [relink.restrings.edges, h])
  | drop _ _ _ _ dropped => exact Or.inl (by rw [dropped.others]; exact h)

theorem Wrecked.edge_kept (wrecked : Wrecked p q) (hs : p.Sound) (h : p.edges.get? e = some d) :
    q.edges.get? e = some d ∨ ∃ u, e ∈ p.operandsOf u ∧ q.operandsOf u = [] := by
  induction wrecked with
  | refl => exact Or.inl h
  | tail earlier last ih =>
    have hsm := Wrecked.sound earlier hs
    obtain hMiddle | ⟨u, listed, stripped⟩ := ih
    · refine (last.edge_kept hMiddle).imp_right fun ⟨u, listed, stripped⟩ => ?_
      exact ⟨u, ((Wrecked.dwindles earlier hs).operands u).subset listed, stripped⟩
    · exact Or.inr ⟨u, listed, (last.dwindles hsm).operandsOf_eq_nil stripped⟩

/-! ### Nested values -/

/-- Every register write writes to a register. -/
def WritesRegisters (program : Program) : Prop :=
  ∀ write target, program.kind write = .ok .regWrite →
    program.operand? write 0 = .ok (some target) → program.isRegister target = true

theorem kind_of_write (isWrite : s.shell? write = some .regWrite) :
    s.kind write = .ok .regWrite := by
  obtain ⟨d, h, isShell⟩ := map_eq_some_iff.mp isWrite
  refine kind_eq_ok.mpr ⟨d, h, ?_⟩
  cases kind : d.kind <;> simp_all [InstKind.shell]

/-- A register write has its register and its value as operands, in this order. -/
theorem Sound.slot_of_write {k : Nat} (hs : s.Sound) (isWrite : s.shell? write = some .regWrite)
    (listed : (s.operandsOf write)[k]? = some e) (h : s.edges.get? e = some d) :
    k < 2 ∧ d.slot.outline = .fixed k := by
  have places : s.slotsOf write <+: [.fixed 0, .fixed 1] := hs.laid write .regWrite isWrite
  have isSlot : (s.slotsOf write)[k]? = some d.slot.outline := by
    rw [slotsOf, getElem?_map, listed, map_some, slotOf, wire?, h]
    rfl
  obtain ⟨rest, whole⟩ := places
  have found : ([.fixed 0, .fixed 1] : List Slot)[k]? = some d.slot.outline := by
    rw [← whole, List.getElem?_append_left (List.getElem?_eq_some_iff.mp isSlot).1, isSlot]
  rcases k with _ | _ | k
  · exact ⟨by decide, (some.inj found).symm⟩
  · exact ⟨by decide, (some.inj found).symm⟩
  · simp at found

theorem WritesRegisters.obeys (regs : s.WritesRegisters) (hs : s.Sound) : s.Obeys .register := by
  intro u e d listed h asks
  obtain ⟨whole, hWhole, rfl⟩ := map_eq_some_iff.mp h
  obtain ⟨k, listed⟩ := mem_iff_getElem?.mp listed
  rw [rule?] at asks
  split at asks
  · cases asks
  obtain ⟨kind, isKind, asks⟩ := bind_eq_some_iff.mp asks
  unfold InstKind.rule? at asks
  split at asks
  next slot =>
    obtain ⟨-, isIndex⟩ := hs.slot_of_write isKind listed hWhole
    obtain rfl : k = 0 := (Slot.fixed.inj (isIndex.symm.trans slot))
    exact regs u whole.value (kind_of_write isKind)
      (operand?_eq_some_iff.mpr ⟨e, whole, listed, hWhole, rfl⟩)
  next => cases asks
  next => cases asks

theorem carries_iff {outer inner : InstId} (hs : s.Sound) (writes : s.Writes)
    (regs : s.WritesRegisters) :
    s.Carries outer inner ↔ s.nestedValue? outer = .ok (some inner) := by
  rw [nestedValue?_eq_ok, operand?_eq_some_iff]
  constructor
  · rintro ⟨holds, e, _, listed, h, rfl⟩
    obtain ⟨d, hEdge, rfl⟩ := map_eq_some_iff.mp h
    obtain ⟨k, listedAt⟩ := mem_iff_getElem?.mp listed
    have isWrite := writes outer _ holds (isLive_of_mem_operandsOf listed)
    obtain ⟨small, -⟩ := hs.slot_of_write isWrite listedAt hEdge
    match k, small with
    | 0, _ =>
      have isRegister := regs outer d.value (kind_of_write isWrite)
        (operand?_eq_some_iff.mpr ⟨e, d, listedAt, hEdge, rfl⟩)
      obtain ⟨l, hLink, -⟩ := holds
      have hi : s.isInst d.value = true := by
        rw [isInst_eq]
        exact isSome_of_mem hLink
      rw [Program.isInst, beq_iff_eq] at hi
      simp [Program.isRegister, hi] at isRegister
    | 1, _ => exact ⟨⟨e, d, listedAt, hEdge, rfl⟩, holds⟩
  · rintro ⟨⟨e, d, listed, h, rfl⟩, holds⟩
    exact ⟨holds, e, d.outline, mem_of_getElem? listed, by rw [wire?, h]; rfl, rfl⟩

/-- An instruction is one of some or nested, step by step, under one of them. -/
def GoesWith (program : Program) (insts : List InstId) (inst : InstId) : Prop :=
  ∃ root ∈ insts,
    Relation.ReflTransGen (fun outer inner =>
      program.nestedValue? outer = .ok (some inner)) root inst

/-! ### What goes -/

/-- An instruction stands in one of some blocks or is carried, step by step, by one that
does. -/
def Torn (program : Program) (blocks : List BlockId) (inst : InstId) : Prop :=
  ∃ root ∈ blocks.flatMap program.threads, Relation.ReflTransGen program.Carries root inst

theorem torn_iff (hs : s.Sound) (writes : s.Writes) (regs : s.WritesRegisters) :
    s.Torn blocks i ↔ s.GoesWith (blocks.flatMap s.threads) i := by
  have eq : s.Carries = fun outer inner => s.nestedValue? outer = .ok (some inner) := by
    funext outer inner
    exact propext (carries_iff hs writes regs)
  rw [Torn, GoesWith, eq]

theorem Torn.within (torn : s.Torn blocks i) : s.Within (blocks.flatMap s.threads) i := by
  obtain ⟨root, mem, path⟩ := torn
  refine ⟨root, mem, ?_⟩
  induction path with
  | refl => exact .refl
  | tail _ carries ih => exact ih.tail carries.holds

theorem closed_torn (s : Program) (blocks : List BlockId) : s.Closed (s.Torn blocks) := by
  rintro outer inner carries ⟨root, mem, path⟩
  exact ⟨root, mem, path.tail carries⟩

theorem torn_of_mem (mem : i ∈ blocks.flatMap s.threads) : s.Torn blocks i :=
  ⟨i, mem, .refl⟩

theorem Sound.owned_of_torn (hs : s.Sound) (torn : s.Torn blocks i) : s.owned i = 1 := by
  obtain ⟨root, mem, path⟩ := torn
  cases path with
  | refl => simp [owned_of_status? (hs.status?_of_mem_flatMap mem)]
  | tail _ carries =>
    obtain ⟨l, h, holder⟩ := carries.holds
    rw [owned, isOwned_of_link h, Link.isOwned, hs.reparent_of_holder h holder]
    rfl

theorem Sound.ongoing_of_torn (hs : s.Sound) (torn : s.Torn blocks i) : s.Ongoing i :=
  hs.ongoing_of_within torn.within

theorem Ongoing.isInst (ongoing : s.Ongoing i) : s.isInst i = true := by
  obtain ⟨l, h, -⟩ := ongoing
  exact isInst_of_link? h

theorem Sound.isLive_of_torn (hs : s.Sound) (torn : s.Torn blocks i) : s.isLive i = true :=
  isLive_of_category (hs.ongoing_of_torn torn).isInst

theorem isConstant_eq_false_of_isInst (hi : s.isInst i = true) : s.isConstant i = false := by
  rw [Program.isInst, beq_iff_eq] at hi
  simp [isConstant, hi]

theorem spare_of_other (noConstant : s.isConstant v = false) : s.spare v = s.countOf v := by
  simp [spare, noConstant]

/-- A node that is not a constant has as many owners as before if its container keeps it. -/
theorem Settles.countOf_eq (settles : p.Settles q 0) (neat : p.Neat)
    (owned : q.owned v = p.owned v) (noConstant : p.isConstant v = false)
    (otherAfter : q.isConstant v = false) : q.countOf v = p.countOf v := by
  have balances := settles.tally neat v
  rw [balance, balance, owned, spare_of_other noConstant, spare_of_other otherAfter,
    Pi.zero_apply] at balances
  omega

theorem owned_of_constant (c : s.isConstant v = true) : s.owned v = 0 := by
  rw [isConstant_eq_constantOf?, constantOf?_eq_bind, Option.isSome_iff_exists] at c
  obtain ⟨content, shown⟩ := c
  obtain ⟨payload, h, shape⟩ := Option.bind_eq_some_iff.mp shown
  cases payload <;> simp_all [owned, isOwned, Payload.constant?]

/-- The instructions of some blocks are taken apart with what they carry; all else stays. -/
structure Tears (before after : Program) (blocks : List BlockId) : Prop where
  razed : before.Razed after
  confined : Confined (before.Torn blocks) before after
  finalized : ∀ inst, before.Torn blocks inst → ¬ after.Ongoing inst
  threads : after.threads = fun block => if block ∈ blocks then [] else before.threads block
  settles : before.Settles after 0

end Program

namespace Step

variable {a : Unit} {insts : List InstId}

theorem dropInstructions_settled (hs : p.Sound) (ranked : p.Ranked insts)
    (run : (dropInstructions insts).run p = .ok (a, q)) : ∀ i ∈ insts, q.Settled i := by
  obtain ⟨_, cleared, runFin, runDrop⟩ := run_bind.mp run
  obtain ⟨razed, -, settled, -⟩ := finalizeAll_razed hs ranked.ordered ranked.shielded runFin
  have hsCleared := razed.sound hs
  obtain ⟨razedDrop, -⟩ := dropAll_razed hsCleared settled runDrop
  exact fun i mem => (razedDrop.dwindles hsCleared).settled i (settled i mem)

theorem dropInstructions_tears (hs : p.Sound) (nd : blocks.Nodup)
    (run : (dropInstructions (blocks.flatMap p.threads)).run p = .ok (a, q)) :
    p.Tears q blocks := by
  have ranked := hs.ranked blocks
  obtain ⟨razed, threads, settles⟩ := dropInstructions_razed hs ranked.ordered ranked.connected run
  refine
    { razed := razed
      confined := dropInstructions_confined hs ranked (p.closed_torn blocks)
        (fun i => torn_of_mem) run
      finalized := ?_
      threads := ?_
      settles := settles (hs.nodup_flatMap nd) }
  · rintro i ⟨root, mem, path⟩
    induction path with
    | refl => exact (dropInstructions_settled hs ranked run root mem).not_ongoing
    | tail earlier carries ih =>
      exact razed.carried hs carries (hs.ongoing_of_torn ⟨root, mem, earlier⟩) ih
  · rw [threads]
    funext b
    split
    next goes => exact filter_threads_eq_nil goes
    next stays =>
      refine filter_eq_self.mpr fun i inThread => ?_
      simp only [mem_flatMap, decide_eq_true_eq, not_exists, not_and]
      exact fun block goes inOther =>
        stays (hs.chains.block_unique inThread inOther ▸ goes)

end Step

namespace Program.Tears

variable {b : BlockId} {u : ValueId} (tears : p.Tears q blocks) (hs : p.Sound)

include tears hs

theorem soundAfter : q.Sound :=
  tears.razed.sound hs

theorem dwindles : p.Dwindles q :=
  tears.razed.dwindles hs

/-! ### What goes -/

theorem operands_of_torn (torn : p.Torn blocks i) : q.operandsOf i = [] := by
  refine eq_nil_iff_forall_not_mem.mpr fun e listed => tears.finalized i torn ?_
  obtain ⟨d, h, -⟩ := (tears.soundAfter hs).wired.own i e listed
  exact (Wrecked.listed tears.razed.wrecked hs (hs.ongoing_of_torn torn)
    (((tears.dwindles hs).operands i).subset listed) h).1

theorem status?_of_torn (torn : p.Torn blocks i) (live : q.isLive i = true) :
    q.status? i = some .finalized := by
  obtain ⟨_, h, -⟩ := hs.ongoing_of_torn torn
  obtain ⟨old, hOld, -⟩ := map_eq_some_iff.mp h
  have shell : q.shell? i = some old.kind.shell := by
    rw [(Wrecked.wanes tears.razed.wrecked |>.sorts i live).shells, shell?, hOld]
    rfl
  obtain ⟨d, hData, -⟩ := map_eq_some_iff.mp shell
  have hLink : q.link? i = some d.link := by rw [link?, hData]; rfl
  by_contra unfinished
  refine tears.finalized i torn ⟨d.link, hLink, fun fin => unfinished ?_⟩
  rw [status?, hLink, map_some, fin]

omit hs in
/-- No node becomes a constant. -/
theorem isConstant_eq_false (noConstant : p.isConstant v = false) : q.isConstant v = false := by
  by_contra c
  rw [Bool.not_eq_false] at c
  have live := (isConstant_iff.mp c).1
  rw [(Wrecked.wanes tears.razed.wrecked |>.sorts v live).constants, noConstant] at c
  cases c

/-- What goes loses the owner that it had in its block or in what carried it. -/
theorem countOf_of_torn (neat : p.Neat) (torn : p.Torn blocks i) :
    q.countOf i + 1 = p.countOf i := by
  have released : q.owned i = 0 := by
    by_cases live : q.isLive i = true
    · simp [owned_of_status? (tears.status?_of_torn hs torn live)]
    · exact owned_eq_zero (by simpa [isLive_iff] using live)
  have noConstant := isConstant_eq_false_of_isInst (hs.ongoing_of_torn torn).isInst
  have balances := tears.settles.tally neat i
  rw [balance, balance, released, hs.owned_of_torn torn, spare_of_other noConstant,
    spare_of_other (tears.isConstant_eq_false noConstant), Pi.zero_apply] at balances
  omega

/-! ### What stays -/

omit hs in
theorem threads_of_outside (stays : b ∉ blocks) : q.threads b = p.threads b := by
  rw [tears.threads]
  exact if_neg stays

theorem kind?_eq (out : ¬ p.Torn blocks i) : q.kind? i = p.kind? i := by
  have statuses := tears.confined.status i out
  cases h : q.kind? i with
  | some kind => exact ((tears.dwindles hs).kinds i kind h).symm
  | none =>
    rw [kind?, map_eq_none_iff] at h
    rw [status?, link?, h, map_none, map_none, status?, link?, eq_comm,
      map_eq_none_iff, map_eq_none_iff] at statuses
    rw [kind?, statuses, map_none]

/-- An instruction keeps its link: its place in its thread, or what it is nested under. -/
theorem link?_eq (out : ¬ p.Torn blocks i) : q.link? i = p.link? i := by
  have statuses := tears.confined.status i out
  have kinds := tears.kind?_eq hs out
  have chainsAfter := (tears.soundAfter hs).chains
  rw [status?, status?] at statuses
  cases h : p.link? i with
  | none => simpa [h] using statuses
  | some l =>
    rw [h, map_some, map_eq_some_iff] at statuses
    obtain ⟨new, hNew, sameStatus⟩ := statuses
    rw [hNew]
    by_cases conn : l.status = .connected
    · obtain ⟨b, -, mem⟩ := hs.chains.attached i l h conn
      have stays : b ∉ blocks := fun goes =>
        out (torn_of_mem (mem_flatMap.mpr ⟨b, goes, mem⟩))
      obtain ⟨front, rest, split⟩ := append_of_mem mem
      have linked := hs.chains.linked b front i rest split
      have linkedNew := chainsAfter.linked b front i rest
        ((tears.threads_of_outside stays).trans split)
      rw [← h, ← hNew, linked, linkedNew]
    · obtain ⟨prev, next, holder⟩ := hs.chains.unchained i l h conn
      obtain ⟨prevNew, nextNew, holderNew⟩ := chainsAfter.unchained i new hNew (sameStatus ▸ conn)
      obtain ⟨floats, none⟩ | ⟨-, outer, some⟩ := holderNew
      · have unheld : l.holder = Option.none := by
          obtain ⟨-, unheld⟩ | ⟨reparent, -⟩ := holder
          · exact unheld
          · simp [sameStatus, reparent] at floats
        have terminators := isTerminator_congr kinds h hNew
        cases new
        cases l
        simp_all
      · rw [← h, (tears.dwindles hs).nested i new outer hNew some]

theorem ends?_eq (stays : b ∉ blocks) : q.ends? b = p.ends? b := by
  have chainsAfter := (tears.soundAfter hs).chains
  have seats := congrFun (tears.dwindles hs).seats b
  have threads := tears.threads_of_outside stays
  cases h : p.ends? b with
  | none =>
    rw [ends?, map_eq_none_iff] at h
    rw [seat?, seat?, h, map_none, map_eq_none_iff] at seats
    rw [ends?, seats, map_none]
  | some ends =>
    obtain ⟨d, hData, -⟩ := map_eq_some_iff.mp h
    rw [seat?, seat?, hData, map_some, map_eq_some_iff] at seats
    obtain ⟨new, hNew, -⟩ := seats
    have hEnds : q.ends? b = some new.ends := by rw [ends?, hNew]; rfl
    rw [hEnds, chainsAfter.ends b _ hEnds, hs.chains.ends b _ h, threads]

/-- Whatever stays is what it was, apart from edges, owners and the flow graph. -/
theorem core?_eq (out : ¬ p.Torn blocks v) (stays : v ∉ blocks) (live : q.isLive v = true) :
    q.core? v = p.core? v := by
  have dw := tears.dwindles hs
  exact core?_congr (Wrecked.labels tears.razed.wrecked live)
    (Wrecked.wanes tears.razed.wrecked |>.sorts v live).contents
    (inst?_congr (tears.link?_eq hs out) (tears.kind?_eq hs out))
    (congrFun dw.seats v) (tears.ends?_eq hs stays) (congrFun dw.bodies v)
    (congrFun dw.globals v) (congrFun dw.arguments v)
    (congrFun dw.registers v)

/-- What stays keeps its owners, unless it is a constant. -/
theorem countOf_eq (neat : p.Neat) (out : ¬ p.Torn blocks v) (noConstant : p.isConstant v = false) :
    q.countOf v = p.countOf v := by
  have dw := tears.dwindles hs
  have owned : q.owned v = p.owned v := by
    rw [owned, owned, isOwned_congr (tears.link?_eq hs out)
      (congrFun dw.seats v) (congrFun dw.arguments v)
      (congrFun dw.registers v) dw.bodies
      (by rw [isGlobal_eq, isGlobal_eq, dw.globals]) dw.surroundings]
  exact tears.settles.countOf_eq neat owned noConstant (tears.isConstant_eq_false noConstant)

/-- An edge goes exactly if its user does. -/
theorem edge_iff (flow : p.Flowing) :
    q.edges.get? e = some d ↔ p.edges.get? e = some d ∧ ¬ p.Torn blocks d.user := by
  constructor
  · intro h
    have hBefore := (tears.dwindles hs).edges e d h
    refine ⟨hBefore, fun torn => tears.finalized d.user torn ?_⟩
    have wire : ∀ {s : Program}, s.edges.get? e = some d →
        s.wire? e = some d.outline := fun found => by rw [wire?, found]; rfl
    have listed := flow.listed e d.outline (wire hBefore) (hs.isLive_of_torn torn)
    exact (Wrecked.listed tears.razed.wrecked hs (hs.ongoing_of_torn torn) listed (wire h)).1
  · rintro ⟨h, out⟩
    refine (Wrecked.edge_kept tears.razed.wrecked hs h).resolve_right ?_
    rintro ⟨u, listed, stripped⟩
    obtain rfl := hs.user_of_operand listed h
    rw [tears.confined.operands _ out] at stripped
    simp [stripped] at listed

omit hs in
theorem countOf_of_constant (neat : p.Neat) (c : p.isConstant v = true)
    (gone : q.isLive v = false) : p.countOf v = (p.usesOf v).length := by
  have absent : q.values.lookup? v = none := by
    simpa [isLive, Arena.contains] using gone
  have balances := tears.settles.tally neat v
  rw [balance_of_absent (Arena.get?_eq_none_iff.mpr absent), balance, spare, if_pos c,
    owned_of_constant c, Pi.zero_apply] at balances
  omega

theorem torn_of_use (flow : p.Flowing) (gone : q.isLive v = false) (isUse : e ∈ p.usesOf v) :
    ∃ d, p.edges.get? e = some d ∧ p.Torn blocks d.user := by
  obtain ⟨d, h, rfl⟩ := hs.wired.edge_of_use isUse
  refine ⟨d, h, by_contra fun out => ?_⟩
  have kept := (tears.edge_iff hs flow).mpr ⟨h, out⟩
  simp [(tears.soundAfter hs).wired.uses.isLive kept] at gone

end Program.Tears

end ValueGraph
