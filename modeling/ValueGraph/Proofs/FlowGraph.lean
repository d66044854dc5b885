import Mathlib
import ValueGraph.Proofs.DefUse
import ValueGraph.Proofs.Generations

open Function

namespace ValueGraph

open List Option Or

/-!
# The flow graph along runs

Each block leads where the targets of its terminator are, and the counts at both ends
of an edge of the flow graph agree.  Every move keeps this.  Moving an edge needs
that the node which reads through it lists it, so edges are followed beyond the life
of their users: none of them is ever taken for an edge of a later node.
-/

variable {kind : InstKind} {slot : Slot} {i write : InstId} {src : BlockId}
  {kept gone : List EdgeId} {cut : Option (BlockId × BlockId)} {v : ValueId} {new : Option Payload}
  {l : Link} {age : Nat} {name : String} {cfg : Settings} {ops : List Operation} {s : Program}

theorem InstKind.isTerminator_of_isTargetSlot (ht : kind.isTargetSlot slot = true) :
    kind.isTerminator = true := by
  cases kind <;> simp_all [InstKind.isTargetSlot, InstKind.isTerminator]

theorem Slot.keyed_of_outline {b : BlockId} (outlined : slot.outline = .keyed b) :
    slot = .keyed b := by
  cases slot <;> simp_all [Slot.outline]

namespace Program

variable {p q : Program} {pr : Promise} {u : ValueId} {e : EdgeId} {d : Edge}

/-! ### Targets -/

theorem leadsTo?_congr (wires : q.wire? e = p.wire? e)
    (blocks : ∀ d, p.wire? e = some d → q.isBlock d.value = p.isBlock d.value) :
    q.leadsTo? kind e = p.leadsTo? kind e := by
  rw [leadsTo?, leadsTo?, wires]
  cases h : p.wire? e with
  | none => rfl
  | some d => rw [bind_some, bind_some, blocks d h]

/-- Where an instruction leads is seen from its kind and its operands. -/
theorem targetsOf_congr (shells : q.shell? i = p.shell? i) (ops : q.operandsOf i = p.operandsOf i)
    (wires : ∀ e ∈ p.operandsOf i, q.wire? e = p.wire? e)
    (blocks : ∀ e d, p.wire? e = some d → q.isBlock d.value = p.isBlock d.value) :
    q.targetsOf i = p.targetsOf i := by
  rw [targetsOf, targetsOf, shells, ops]
  cases p.shell? i with
  | none => rfl
  | some kind =>
    exact filterMap_congr fun e mem => leadsTo?_congr (wires e mem) (blocks e)

/-- An edge leads away from the block whose last instruction reads through it. -/
theorem Sound.flowSource?_eq_some_iff (hs : p.Sound) :
    p.flowSource? u slot = some src ↔ (p.threads src).getLast? = some u ∧
        ∃ kind, p.shell? u = some kind ∧ kind.isTargetSlot slot = true := by
  rw [flowSource?, bind_eq_some_iff]
  constructor
  · rintro ⟨kind, hKind, home⟩
    split at home
    next ht =>
      obtain ⟨l, h, isHome⟩ := bind_eq_some_iff.mp home
      have conn : l.status = .connected := by
        by_contra outside
        obtain ⟨-, -, ⟨-, noHolder⟩ | ⟨-, outer, isOuter⟩⟩ := hs.chains.unchained u l h outside
        · simp [noHolder, Holder.home?] at isHome
        · simp [isOuter, Holder.home?] at isHome
      obtain ⟨front, rest, split⟩ := append_of_mem (hs.mem_threads h conn home)
      have isLast : rest = [] := by
        obtain ⟨i, hInst, rfl⟩ := map_eq_some_iff.mp h
        rw [shell?, hInst, map_some, some.injEq] at hKind
        have ends := InstKind.isTerminator_of_isTargetSlot ht
        rw [← hKind, InstKind.isTerminator_shell] at ends
        have asLinked := hs.chains.linked src front u rest split
        rw [h, some.injEq] at asLinked
        have ending := congrArg Link.isTerminator asLinked
        simpa [Inst.link, ends] using ending
      subst isLast
      exact ⟨by rw [split]; simp, kind, hKind, ht⟩
    next => cases home
  · rintro ⟨isLast, kind, hKind, ht⟩
    refine ⟨kind, hKind, ?_⟩
    obtain ⟨l, h, -, holder⟩ := hs.chains.link_of_mem (mem_of_getLast? isLast)
    rw [if_pos ht, home?, h, bind_some, holder]
    rfl

/-! ### The invariant -/

/-- The counts of the flow graph are as the terminators say, and every edge of a node that
is there is one of its operands. -/
structure Flowing (program : Program) : Prop where
  exact : program.FlowExact
  mirrored : program.FlowMirrored
  listed : ∀ edge data, program.wire? edge = some data → program.isLive data.user = true →
    edge ∈ program.operandsOf data.user

/-- The user of every edge has been given out. -/
def Accounted (program : Program) : Prop :=
  ∀ edge data, program.wire? edge = some data → program.values.Known data.user

theorem Tidy.accounted (tidy : p.Tidy) : p.Accounted :=
  fun e d h => inl (isLive_of_mem_operandsOf (tidy.claimed e d h))

namespace Flowing

section

variable (flow : p.Flowing)
include flow

theorem of_same (jumps : q.jumps = p.jumps) (arrivals : q.arrivals = p.arrivals)
    (threads : q.threads = p.threads) (targets : q.targetsOf = p.targetsOf)
    (ops : q.operandsOf = p.operandsOf) (wires : q.wire? = p.wire?)
    (lives : ∀ v, q.isLive v = true → p.isLive v = true) : q.Flowing where
  exact src target := by
    rw [jumps, threads, targets]
    exact flow.exact src target
  mirrored src target := by
    rw [arrivals, jumps]
    exact flow.mirrored src target
  listed e d held live := by
    rw [ops]
    exact flow.listed e d (wires ▸ held) (lives _ live)

/-- Programs with the same nodes and edges have the same flow graph. -/
theorem of_nodes (hs : p.Sound) (nodes : q.values.get? = p.values.get?)
    (edges : q.edges = p.edges) : q.Flowing := by
  have pls : q.payload? = p.payload? := by
    funext other
    rw [payload?, payload?, nodes]
  have ops : q.operandsOf = p.operandsOf := by
    funext other
    rw [operandsOf, operandsOf, nodes]
  have wires : q.wire? = p.wire? := by
    funext e
    rw [wire?, wire?, edges]
  refine flow.of_same ?_ ?_ ?_ ?_ ops wires fun v live => ?_
  · funext src target
    rw [jumps_eq_bind, jumps_eq_bind, pls]
  · funext src target
    rw [arrivals_eq_bind, arrivals_eq_bind, pls]
  · refine (hs.chains.of_same ?_ ?_).threads_eq
    · simp only [link?_eq_bind, pls]
    · simp only [ends?_eq_bind, pls]
  · funext i
    refine targetsOf_congr ?_ (congrFun ops i) (fun e _ => congrFun wires e) fun e d _ => ?_
    · simp only [shell?_eq_bind, pls]
    · rw [isBlock, isBlock, pls]
  · rwa [isLive_iff, pls, ← isLive_iff] at live

theorem of_reshapes (reshapes : p.Reshapes q) (threads : q.threads = p.threads) : q.Flowing :=
  flow.of_same reshapes.jumps reshapes.arrivals threads reshapes.targetsOf reshapes.operands
    reshapes.wire? fun _ => reshapes.wanes.isLive

theorem of_relinked {old new : Link} (hs : p.Sound) (relink : p.Relinked q i old new)
    (wasOutside : old.status ≠ .connected) (out : new.Unchained) : q.Flowing :=
  flow.of_reshapes relink.restrings.toReshapes (relink.threads_eq hs wasOutside out)

theorem of_rethreads {threads : BlockId → List InstId} (reth : p.Rethreads q threads) :
    q.Flowing where
  exact := reth.exact flow.exact
  mirrored := reth.mirrored flow.mirrored
  listed e d held live := by
    rw [reth.wire?] at held
    rw [reth.operands]
    exact flow.listed e d held (by rwa [reth.isLive] at live)

theorem listed_of_operandsRemoved (rem : p.OperandsRemoved q u kept gone cut)
    (covers : ∀ e ∈ p.operandsOf u, e ∈ kept ∨ e ∈ gone) :
    ∀ e d, q.wire? e = some d → q.isLive d.user = true → e ∈ q.operandsOf d.user := by
  intro e d h live
  rw [rem.wires] at h
  split at h
  · cases h
  next remains =>
    have mem := flow.listed e d h (rem.rewires.isLive live)
    rw [rem.operands, update_apply]
    split
    next eq => exact (covers e (eq ▸ mem)).resolve_right remains
    next => exact mem

end

end Flowing

theorem FlowExact.jumps_of_last (exact : p.FlowExact) (last : (p.threads src).getLast? = some u)
    (tgt : BlockId) : p.jumps src tgt = (p.targetsOf u).count tgt := by
  rw [exact src tgt, last, elim_some]

/-- When one node comes to lead elsewhere, only the block that ends in it is looked at. -/
theorem FlowExact.of_user (exact : p.FlowExact) (u : ValueId) (threads : q.threads = p.threads)
    (targets : ∀ i, i ≠ u → q.targetsOf i = p.targetsOf i)
    (elsewhere : ∀ src tgt, (p.threads src).getLast? ≠ some u → q.jumps src tgt = p.jumps src tgt)
    (here : ∀ src tgt, (p.threads src).getLast? = some u →
      q.jumps src tgt = (q.targetsOf u).count tgt) : q.FlowExact := by
  intro src tgt
  rw [threads]
  by_cases last : (p.threads src).getLast? = some u
  · rw [here src tgt last, last, elim_some]
  · rw [elsewhere src tgt last, exact src tgt]
    cases final : (p.threads src).getLast? with
    | none => rfl
    | some i =>
      have ne : i ≠ u := by
        rintro rfl
        exact last final
      rw [elim_some, elim_some, targets i ne]

theorem OperandsRemoved.targetsOf_of_ne (rem : p.OperandsRemoved q u kept gone cut) (hs : p.Sound)
    (listed : ∀ e ∈ gone, e ∈ p.operandsOf u) (ne : i ≠ u) : q.targetsOf i = p.targetsOf i := by
  refine targetsOf_congr (congrFun rem.rewires.skeleton.shell? i) ?_ (fun e mem => ?_)
    fun e d _ => congrFun rem.rewires.skeleton.isBlock d.value
  · rw [rem.operands, update_of_ne ne]
  · rw [rem.wires, if_neg]
    intro isGone
    obtain ⟨d, h, hi⟩ := hs.wired.own i e mem
    obtain ⟨again, h', isUser⟩ := hs.wired.own u e (listed e isGone)
    obtain rfl := mem_unique h h'
    exact ne (hi.symm.trans isUser)

namespace Flowing

/-- What stands in no block loses all its operands. -/
theorem of_cleared (flow : p.Flowing) (hs : p.Sound)
    (rem : p.OperandsRemoved q u [] (p.operandsOf u) none) (out : ∀ b, u ∉ p.threads b) :
    q.Flowing where
  exact := by
    refine flow.exact.of_user u (rem.rewires.threads_eq hs)
      (fun i => rem.targetsOf_of_ne hs fun _ mem => mem)
      (fun src tgt _ => by rw [rem.jumps]; simp) fun src tgt last => ?_
    exact absurd (mem_of_getLast? last) (out src)
  mirrored := rem.mirrored flow.mirrored
  listed := flow.listed_of_operandsRemoved rem fun _ mem => inr mem

end Flowing

/-! ### One edge -/

theorem leadsTo?_eq_some_iff {tgt : BlockId} (h : p.wire? e = some d) :
    p.leadsTo? kind e = some tgt ↔ kind.isTargetSlot d.slot = true ∧ p.isBlock d.value = true ∧
        tgt = d.value := by
  rw [leadsTo?, h, bind_some]
  split
  next leads => simp [leads, eq_comm]
  next stays =>
    simp only [reduceCtorEq, false_iff]
    rintro ⟨ht, hb, -⟩
    exact stays ⟨ht, hb⟩

/-- The targets of an instruction are the target of one operand and those of all others. -/
theorem count_targetsOf (hKind : p.shell? u = some kind) (mem : e ∈ p.operandsOf u)
    (tgt : BlockId) :
    (p.targetsOf u).count tgt = (if p.leadsTo? kind e = some tgt then 1 else 0) +
        (((p.operandsOf u).erase e).filterMap (p.leadsTo? kind)).count tgt := by
  rw [targetsOf, hKind, elim_some, ((perm_cons_erase mem).filterMap (p.leadsTo? kind)).count_eq tgt,
    filterMap_cons]
  cases leads : p.leadsTo? kind e with
  | none => simp
  | some block =>
    rw [count_cons, Nat.add_comm]
    simp

/-- The last instruction of a thread has a kind. -/
theorem Sound.shell?_of_last (hs : p.Sound) (last : (p.threads src).getLast? = some u) :
    ∃ kind, p.shell? u = some kind := by
  obtain ⟨l, h, -⟩ := hs.chains.link_of_mem (mem_of_getLast? last)
  obtain ⟨i, hInst, -⟩ := map_eq_some_iff.mp h
  exact ⟨i.kind.shell, by rw [shell?, hInst, map_some]⟩

theorem isLive_of_shell? (h : p.shell? u = some kind) : p.isLive u = true := by
  obtain ⟨i, hInst, -⟩ := map_eq_some_iff.mp h
  exact isLive_of_inst? hInst

/-- Among the flow edges of a block an edge counts if the last instruction reads it. -/
theorem Sound.flowSource?_of_last (hs : p.Sound) (last : (p.threads src).getLast? = some u)
    (hKind : p.shell? u = some kind) :
    p.flowSource? u slot = some src ↔ kind.isTargetSlot slot = true := by
  rw [hs.flowSource?_eq_some_iff, hKind]
  simp [last]

theorem Sound.flowSource?_ne (hs : p.Sound) (ne : (p.threads src).getLast? ≠ some u) :
    p.flowSource? u slot ≠ some src :=
  fun isSource => ne (hs.flowSource?_eq_some_iff.mp isSource).1

namespace Flowing

theorem of_unread {k : Nat} (flow : p.Flowing) (hs : p.Sound)
    (found : (p.operandsOf u)[k]? = some e)
    (h : p.wire? e = some d)
    (rem : p.OperandsRemoved q u ((p.operandsOf u).eraseIdx k) [e] (if p.isBlock d.value = true then
        (p.flowSource? u d.slot).map (·, d.value) else none)) : q.Flowing := by
  have mem := mem_of_getElem? found
  have nd := hs.wired.nodup u
  have erased : (p.operandsOf u).eraseIdx k = (p.operandsOf u).erase e := by
    obtain ⟨lt, rfl⟩ := List.getElem?_eq_some_iff.mp found
    exact (nd.erase_getElem k lt).symm
  rw [erased] at rem
  have cut : ∀ src tgt, (if p.isBlock d.value = true then
        (p.flowSource? u d.slot).map (·, d.value) else none) = some (src, tgt) ↔
      p.flowSource? u d.slot = some src ∧ p.isBlock d.value = true ∧ tgt = d.value := by
    intro src tgt
    split
    next hb =>
      simp only [map_eq_some_iff, Prod.mk.injEq, hb, true_and]
      constructor
      · rintro ⟨_, isSource, rfl, rfl⟩
        exact ⟨isSource, rfl⟩
      · rintro ⟨isSource, rfl⟩
        exact ⟨src, isSource, rfl, rfl⟩
    next noBlock => simp [noBlock]
  refine ⟨flow.exact.of_user u (rem.rewires.threads_eq hs)
      (fun i => rem.targetsOf_of_ne hs (by simp [mem]))
      (fun src tgt last => ?_) fun src tgt last => ?_,
    rem.mirrored flow.mirrored,
    flow.listed_of_operandsRemoved rem fun edge listed => ?_⟩
  · rw [rem.jumps, if_neg, Nat.sub_zero]
    rw [cut]
    exact fun ⟨isSource, _⟩ => hs.flowSource?_ne last isSource
  · obtain ⟨kind, hKind⟩ := hs.shell?_of_last last
    have rest : q.targetsOf u = ((p.operandsOf u).erase e).filterMap (p.leadsTo? kind) := by
      rw [targetsOf, rem.rewires.skeleton.shell?, hKind, rem.operands, update_self]
      refine filterMap_congr fun edge isOther => leadsTo?_congr ?_ fun data _ =>
        congrFun rem.rewires.skeleton.isBlock data.value
      rw [rem.wires, if_neg]
      intro eq
      rw [mem_singleton.mp eq] at isOther
      exact nd.not_mem_erase isOther
    rw [rem.jumps, flow.exact.jumps_of_last last, count_targetsOf hKind mem, rest]
    simp only [cut, hs.flowSource?_of_last last hKind, leadsTo?_eq_some_iff h]
    omega
  · by_cases eq : edge = e
    · exact inr (by simp [eq])
    · exact inl ((mem_erase_of_ne eq).mpr listed)

theorem of_joins (flow : p.Flowing) (hs : p.Sound) (joins : p.Joins q e d) : q.Flowing := by
  have added := joins.added
  have wire : q.wire? e = some d.outline := by
    rw [added.wires, update_self]
  have others : ∀ edge, edge ≠ e → q.wire? edge = p.wire? edge := by
    intro edge ne
    rw [added.wires, update_of_ne ne]
  have fresh : ∀ i, e ∉ p.operandsOf i := by
    intro i mem
    obtain ⟨_, h, -⟩ := hs.wired.own i e mem
    simp [added.fresh] at h
  have hb := added.rewires.skeleton.isBlock
  refine ⟨flow.exact.of_user d.user (added.rewires.threads_eq hs)
      (fun i ne => ?_) (fun src tgt last => ?_) fun src tgt last => ?_,
    added.mirrored flow.mirrored, fun edge data h live => ?_⟩
  · refine targetsOf_congr (congrFun added.rewires.skeleton.shell? i) ?_
      (fun edge mem => others edge ?_) fun _ data _ => congrFun hb data.value
    · rw [added.operands, update_of_ne ne]
    · rintro rfl
      exact fresh i mem
  · rw [added.jumps, if_neg, Nat.add_zero]
    exact fun ⟨isSource, _⟩ => hs.flowSource?_ne last isSource
  · obtain ⟨kind, hKind⟩ := hs.shell?_of_last last
    have hAfter : q.shell? d.user = some kind := by
      rw [added.rewires.skeleton.shell?, hKind]
    have mem : e ∈ q.operandsOf d.user := by
      rw [added.operands, update_self]
      simp
    have rest : ((q.operandsOf d.user).erase e).filterMap (q.leadsTo? kind) =
        p.targetsOf d.user := by
      rw [added.operands, update_self, erase_append_right _ (fresh _),
        erase_cons_head, append_nil, targetsOf, hKind, elim_some]
      refine filterMap_congr fun edge isOther => leadsTo?_congr (others edge ?_)
        fun data _ => congrFun hb data.value
      rintro rfl
      exact fresh d.user isOther
    have ht : p.flowSource? d.user d.slot = some src ↔
        kind.isTargetSlot d.slot = true := hs.flowSource?_of_last last hKind
    rw [added.jumps, flow.exact.jumps_of_last last, count_targetsOf hAfter mem, rest]
    simp only [ht, leadsTo?_eq_some_iff wire, hb, Edge.outline, InstKind.isTargetSlot_outline]
    by_cases tgt : kind.isTargetSlot d.slot = true
    · have toBlock := joins.leads (by rw [ht.mpr tgt]; simp)
      simp [tgt, toBlock, Nat.add_comm]
    · simp [tgt]
  · rw [added.operands, update_apply]
    by_cases isNew : edge = e
    · subst isNew
      obtain rfl := mem_unique wire h
      simp [Edge.outline]
    · rw [others edge isNew] at h
      have mem := flow.listed edge data h (added.rewires.isLive live)
      split
      next eq => exact mem_append_left _ (eq ▸ mem)
      next => exact mem

theorem of_edgeMoved {new : ValueId} (flow : p.Flowing) (hs : p.Sound)
    (moved : p.EdgeMoved q e d new) (toBlock : p.isBlock d.value = true → p.isBlock new = true) :
    q.Flowing := by
  have wire : p.wire? e = some d.outline := by rw [wire?, moved.held, map_some]
  have wireAfter : q.wire? e = some { d with value := new }.outline := by
    rw [moved.wires, update_self]
  have others : ∀ edge, edge ≠ e → q.wire? edge = p.wire? edge := by
    intro edge ne
    rw [moved.wires, update_of_ne ne]
  have hb := moved.rewires.skeleton.isBlock
  refine ⟨flow.exact.of_user d.user (moved.rewires.threads_eq hs)
      (fun i ne => ?_) (fun src tgt last => ?_) fun src tgt last => ?_,
    moved.mirrored flow.mirrored, fun edge data h live => ?_⟩
  · refine targetsOf_congr (congrFun moved.rewires.skeleton.shell? i)
      (congrFun moved.operands i) (fun edge mem => others edge ?_)
      fun _ data _ => congrFun hb data.value
    rintro rfl
    obtain ⟨data, h, hi⟩ := hs.wired.own i edge mem
    obtain rfl := mem_unique wire h
    exact ne hi.symm
  · simp only [moved.jumps, hs.flowSource?_ne last, false_and, if_false, Nat.sub_zero, Nat.add_zero]
  · obtain ⟨kind, hKind⟩ := hs.shell?_of_last last
    have hAfter : q.shell? d.user = some kind := by
      rw [moved.rewires.skeleton.shell?, hKind]
    have mem : e ∈ p.operandsOf d.user := flow.listed e d.outline wire (isLive_of_shell? hKind)
    have memberAfter : e ∈ q.operandsOf d.user := by rwa [moved.operands]
    have rest : ((q.operandsOf d.user).erase e).filterMap (q.leadsTo? kind) =
        ((p.operandsOf d.user).erase e).filterMap (p.leadsTo? kind) := by
      rw [moved.operands]
      refine filterMap_congr fun edge isOther => leadsTo?_congr (others edge ?_)
        fun data _ => congrFun hb data.value
      rintro rfl
      exact (hs.wired.nodup d.user).not_mem_erase isOther
    rw [moved.jumps, flow.exact.jumps_of_last last, count_targetsOf hKind mem,
      count_targetsOf hAfter memberAfter, rest]
    simp only [hs.flowSource?_of_last last hKind, leadsTo?_eq_some_iff wire,
      leadsTo?_eq_some_iff wireAfter, hb, Edge.outline, InstKind.isTargetSlot_outline]
    by_cases ht : kind.isTargetSlot d.slot = true
    · by_cases wasBlock : p.isBlock d.value = true
      · simp only [ht, wasBlock, toBlock wasBlock, true_and]
        omega
      · simp [ht, wasBlock, Nat.add_comm]
    · simp [ht]
  · rw [moved.operands]
    by_cases isEdge : edge = e
    · subst isEdge
      obtain rfl := mem_unique wireAfter h
      exact flow.listed edge d.outline wire (moved.rewires.isLive live)
    · rw [others edge isEdge] at h
      exact flow.listed edge data h (moved.rewires.isLive live)

end Flowing

/-! ### One node -/

/-- Bags that are kept at one block are kept everywhere when only that block changes. -/
theorem Exchanged.jumps (exch : p.Exchanged q v new) (eq : ∀ tgt, q.jumps v tgt = p.jumps v tgt) :
    q.jumps = p.jumps := by
  funext src tgt
  by_cases isValue : src = v
  · rw [isValue, eq]
  · rw [jumps_eq_bind, jumps_eq_bind, show q.payload? = _ from exch, update_of_ne isValue]

theorem Exchanged.arrivals (exch : p.Exchanged q v new)
    (eq : ∀ src, q.arrivals src v = p.arrivals src v) : q.arrivals = p.arrivals := by
  funext src tgt
  by_cases isValue : tgt = v
  · rw [isValue, eq]
  · rw [arrivals_eq_bind, arrivals_eq_bind, show q.payload? = _ from exch, update_of_ne isValue]

namespace Flowing

/-- A node comes or goes that stands in no block, that nothing reads, and that leads
nowhere. -/
theorem of_exchanged (flow : p.Flowing) (exch : p.Exchanged q v new)
    (threads : q.threads = p.threads) (out : ∀ b, v ∉ p.threads b)
    (ops : ∀ u, u ≠ v → q.operandsOf u = p.operandsOf u) (wires : q.wire? = p.wire?)
    (unread : ∀ e d, p.wire? e = some d → d.value ≠ v)
    (jumps : ∀ tgt, q.jumps v tgt = p.jumps v tgt)
    (arrivals : ∀ src, q.arrivals src v = p.arrivals src v)
    (users : ∀ e d, p.wire? e = some d → q.isLive d.user = true →
      p.isLive d.user = true ∧ d.user ≠ v) : q.Flowing := by
  have sameJumps := exch.jumps jumps
  refine ⟨flow.exact.of_user v threads (fun i ne => ?_) (fun _ _ _ => ?_)
    fun src tgt last => ?_, ?_, fun e d h live => ?_⟩
  · refine targetsOf_congr ?_ (ops i ne) (fun e _ => congrFun wires e) fun e d h => ?_
    · rw [exch.shell?, update_of_ne ne]
    · rw [isBlock, isBlock, exch.category_of_ne (unread e d h)]
  · rw [sameJumps]
  · exact absurd (mem_of_getLast? last) (out src)
  · intro src tgt
    rw [exch.arrivals arrivals, sameJumps]
    exact flow.mirrored src tgt
  · rw [wires] at h
    obtain ⟨liveBefore, ne⟩ := users e d h live
    rw [ops d.user ne]
    exact flow.listed e d h liveBefore

theorem of_added {ty : TypeId} {payload : Payload} (flow : p.Flowing) (hs : p.Sound)
    (accounted : p.Accounted) (added : p.Added q v ty payload) (blank : payload.Blank) :
    q.Flowing := by
  have absent := added.payload?_eq_none
  have dead : p.isLive v ≠ true := by
    rw [isLive_iff, absent]
    simp
  refine flow.of_exchanged added.exchanged (added.chains hs.chains blank).threads_eq ?_
    (fun u _ => congrFun added.operandsOf u) added.wire? ?_ ?_ ?_ ?_
  · intro b mem
    obtain ⟨l, h, -⟩ := hs.chains.link_of_mem mem
    simp [link?_eq_bind, absent] at h
  · rintro e d h rfl
    exact dead (hs.wired.value_live h)
  · intro tgt
    rw [jumps_eq_bind, jumps_eq_bind, absent, show q.payload? = _ from added.exchanged, update_self]
    cases payload with
    | block d =>
      obtain rfl : d = Block.detached := blank
      simp [Payload.block?, Block.detached]
    | _ => simp [Payload.block?]
  · intro src
    rw [arrivals_eq_bind, arrivals_eq_bind, absent, show q.payload? = _ from added.exchanged,
      update_self]
    cases payload with
    | block d =>
      obtain rfl : d = Block.detached := blank
      simp [Payload.block?, Block.detached]
    | _ => simp [Payload.block?]
  · intro e d h live
    -- the handle of the new node was not given out before
    have liveBefore := (accounted e d h).contains_before added.grows live
    exact ⟨liveBefore, fun eq => dead (eq ▸ liveBefore)⟩

theorem jumps_eq_zero (flow : p.Flowing) (unread : ∀ e d, p.wire? e = some d → d.value ≠ v)
    (src : BlockId) : p.jumps src v = 0 := by
  rw [flow.exact src v]
  cases (p.threads src).getLast? with
  | none => rfl
  | some i =>
    rw [elim_some, count_eq_zero, targetsOf]
    cases p.shell? i with
    | none => simp
    | some kind =>
      intro mem
      obtain ⟨e, -, leads⟩ := mem_filterMap.mp mem
      obtain ⟨d, h, -⟩ := bind_eq_some_iff.mp leads
      exact unread e d h ((leadsTo?_eq_some_iff h).mp leads).2.2.symm

theorem of_dropped (flow : p.Flowing) (hs : p.Sound) (drop : p.Dropped q v)
    (bare : p.countOf v = 1 → p.Bare v) : q.Flowing := by
  rcases drop.outcome with ⟨-, nodes⟩ | ⟨last, -, noUses, -⟩
  · exact flow.of_nodes hs nodes drop.edges
  · obtain ⟨-, -, exch, ops⟩ := drop.exchanged_or.resolve_left (by omega)
    have isBare := bare last
    have noThread := isBare.threads_eq_nil hs.chains
    have gone : q.payload? v = none := by
      rw [show q.payload? = _ from exch, update_self]
    have unread : ∀ e d, p.wire? e = some d → d.value ≠ v := by
      rintro e d h rfl
      have mem := (hs.wired.uses.mem_iff d.value e).mpr ⟨d, h, rfl⟩
      simp [noUses] at mem
    refine flow.of_exchanged exch ?_ ?_ ?_ drop.wire? unread ?_ ?_ ?_
    · exact drop.threads_eq_of_bare hs bare
    · intro b mem
      obtain ⟨l, h, conn, -⟩ := hs.chains.link_of_mem mem
      exact isBare.status_ne_connected h conn
    · intro u ne
      rw [ops, update_of_ne ne]
    · intro tgt
      rw [flow.exact v tgt, noThread, jumps_eq_bind, gone]
      rfl
    · intro src
      rw [flow.mirrored, flow.jumps_eq_zero unread, arrivals_eq_bind, gone]
      rfl
    · intro e d h live
      refine ⟨drop.wanes.isLive live, ?_⟩
      rintro rfl
      rw [isLive_iff, gone] at live
      simp at live

/-! ### Moves -/

section

variable (flow : p.Flowing) (hs : p.Sound)
include flow hs

theorem of_wrecks (wrecks : p.Wrecks q) : q.Flowing := by
  cases wrecks with
  | detach i reth => exact flow.of_rethreads reth
  | strip i l h st rem =>
    exact flow.of_cleared hs rem (hs.chains.not_mem_of_status h st)
  | mark i l st stripped relink =>
    exact flow.of_relinked hs relink st l.unchained_finalized
  | drop i l h fin dropped =>
    exact flow.of_dropped hs dropped fun _ => p.bare_of_finalized h fin

theorem of_wrecked (wrecked : Wrecked p q) : q.Flowing := by
  induction wrecked with
  | refl => exact flow
  | tail earlier last ih =>
    exact ih.of_wrecks (Wrecked.sound earlier hs) last

theorem of_redraws (redraws : p.Redraws pr q) : q.Flowing := by
  cases redraws with
  | connect e d joins => exact flow.of_joins hs joins
  | rebind e d new moved leads => exact flow.of_edgeMoved hs moved leads
  | unread u k e d mem h optional rem =>
    exact flow.of_unread hs mem h rem
  | clear g hg rem =>
    refine flow.of_cleared hs rem fun b mem => ?_
    obtain ⟨l, h, -⟩ := hs.chains.link_of_mem mem
    simp [(shell?_of_isGlobal hg).2.1] at h

theorem of_shapes (shapes : p.Shapes pr q) : q.Flowing := by
  cases shapes with
  | raze razed => exact flow.of_wrecked hs razed.wrecked
  | relabel lab =>
    refine flow.of_same (jumps_eq_of_block? lab.blocks) (arrivals_eq_of_block? lab.blocks)
      (hs.chains.of_same lab.link? lab.ends?).threads_eq ?_ lab.operands
      lab.wire? fun _ => lab.wanes.isLive
    funext i
    exact targetsOf_congr (congrFun lab.shell? i) (congrFun lab.operands i)
      (fun e _ => congrFun lab.wire? e)
      fun _ d _ => congrFun lab.isBlock d.value
  | retain v retained => exact flow.of_nodes hs retained.nodes retained.edges
  | drop v dropped bare => exact flow.of_dropped hs dropped bare
  | redraw redraws => exact flow.of_redraws hs redraws
  | thread threads reth => exact flow.of_rethreads reth
  | resettle settle =>
    exact flow.of_reshapes settle.toReshapes (settle.threads_eq hs)

theorem of_joined (joined : Joined u p q) : q.Flowing := by
  induction joined with
  | refl => exact flow
  | tail earlier last ih =>
    obtain ⟨e, d, joins, -⟩ := last
    exact ih.of_joins (Joined.sound earlier hs) joins

theorem of_raises (accounted : p.Accounted) (raises : p.Raises pr q) : q.Flowing := by
  cases raises with
  | grow v ty payload added blank => exact flow.of_added hs accounted added blank
  | build i ty kind built =>
    obtain ⟨started, added, joined⟩ := built.added
    exact (flow.of_added hs accounted added ⟨kind, rfl⟩).of_joined
      (built.sound_started added hs) joined
  | shape shapes => exact flow.of_shapes hs shapes

end

end Flowing

/-! ### Where edges stem from -/

/-- An edge was there with its user and its place, or it is new: then a node that is there reads
through it, and if it is an entry of a phi, it is for a block. -/
def Stems (program : Program) (edge : EdgeId) (data : Edge) : Prop :=
  (∃ old, program.wire? edge = some old ∧ old.user = data.user ∧ old.slot = data.slot) ∨
    (program.isLive data.user = true ∧
      ∀ block, data.slot = .keyed block → program.isBlock block = true)

theorem Shapes.stems (shapes : p.Shapes pr q) (hs : p.Sound) (h : q.wire? e = some d) :
    p.Stems e d := by
  rcases shapes.sheds_or_redraws hs with sheds | redraws
  · exact inl ⟨d, sheds.wires e d h, rfl, rfl⟩
  cases redraws with
  | connect new added joins =>
    rw [joins.added.wires, update_apply] at h
    split at h
    · obtain rfl := some.inj h
      exact inr ⟨joins.added.user, fun b keyed => joins.keyed b (Slot.keyed_of_outline keyed)⟩
    · exact inl ⟨d, h, rfl, rfl⟩
  | rebind moving old new moved =>
    rw [moved.wires, update_apply] at h
    split at h
    next eq =>
      obtain rfl := some.inj h
      exact inl ⟨old.outline, by rw [eq, wire?, moved.held, map_some], rfl, rfl⟩
    · exact inl ⟨d, h, rfl, rfl⟩
  | unread u k gone data mem hGone optional rem =>
    exact inl ⟨d, (rem.sheds (eraseIdx_sublist _ _)).wires e d h, rfl, rfl⟩
  | clear g hg rem =>
    exact inl ⟨d, (rem.sheds (nil_sublist _)).wires e d h, rfl, rfl⟩

theorem Shrunk.stems (shrunk : Shrunk pr p q) (hs : p.Sound) (h : q.wire? e = some d) :
    p.Stems e d := by
  induction shrunk generalizing d with
  | refl => exact inl ⟨d, h, rfl, rfl⟩
  | tail earlier last ih =>
    have wanes := Shrunk.wanes earlier
    rcases last.stems (Shrunk.sound earlier hs) h with ⟨old, hOld, isUser, isSlot⟩ | ⟨live, keys⟩
    · rw [Stems, ← isUser, ← isSlot]
      exact ih hOld
    · refine inr ⟨wanes.isLive live, fun b keyed => ?_⟩
      rw [← (wanes.sorts b (isLive_of_category (keys b keyed))).blocks]
      exact keys b keyed

theorem Joined.stems (joined : Joined u p q) (h : q.wire? e = some d) :
    p.wire? e = some d ∨ (d.user = u ∧ ∀ b, d.slot = .keyed b → q.isBlock b = true) := by
  induction joined with
  | refl => exact inl h
  | tail earlier last ih =>
    obtain ⟨new, added, joins, isUser⟩ := last
    rw [joins.added.rewires.skeleton.isBlock]
    rw [joins.added.wires, update_apply] at h
    split at h
    · obtain rfl := some.inj h
      exact inr ⟨isUser, fun b keyed => joins.keyed b (Slot.keyed_of_outline keyed)⟩
    · exact ih h

namespace Accounted

theorem of_raises (accounted : p.Accounted) (hs : p.Sound) (raises : p.Raises pr q) :
    q.Accounted := by
  intro e d h
  have grows := (raises.waxes hs).grows
  cases raises with
  | grow v ty payload added =>
    exact (accounted e d (added.wire? ▸ h)).of_grows grows
  | build i ty kind built =>
    obtain ⟨started, added, joined⟩ := built.added
    rcases Joined.stems joined h with hBefore | ⟨rfl, -⟩
    · exact (accounted e d (added.wire? ▸ hBefore)).of_grows grows
    · have live : started.isLive d.user = true := by
        rw [isLive_iff, show started.payload? = _ from added.exchanged, update_self]
        rfl
      exact inl ((Joined.waxes joined (built.sound_started added hs)).isLive live)
  | shape shapes =>
    rcases shapes.stems hs h with ⟨old, hOld, eq, -⟩ | ⟨live, -⟩
    · exact eq ▸ (accounted e old hOld).of_grows grows
    · exact inl (grows.contains _ live)

theorem of_adopts (accounted : p.Accounted) (adopts : p.Adopts q i write l) : q.Accounted := by
  intro e d h
  rw [adopts.relinked.restrings.rearranges.wire?] at h
  exact (accounted e d h).of_grows adopts.grows

theorem of_shrunk (accounted : p.Accounted) (hs : p.Sound) (young : p.values.Young age)
    (room : age + 1 < 2 ^ 32) (shrunk : Shrunk pr p q) : q.Accounted := by
  intro e d h
  have known : p.values.Known d.user := by
    rcases Shrunk.stems shrunk hs h with ⟨old, hOld, eq, -⟩ | ⟨live, -⟩
    · exact eq ▸ accounted e old hOld
    · exact inl live
  exact known.of_shrinks young room (Shrunk.wanes shrunk).shrinks

end Accounted

/-! ### Runs -/

theorem Grown.accounted (grown : Grown pr p q) (hs : p.Sound) (accounted : p.Accounted) :
    q.Accounted := by
  induction grown with
  | refl => exact accounted
  | tail earlier last ih =>
    exact ih.of_raises (Grown.sound earlier hs) last

theorem Grown.flowing (grown : Grown pr p q) (hs : p.Sound) (accounted : p.Accounted)
    (flow : p.Flowing) : q.Flowing := by
  induction grown with
  | refl => exact flow
  | tail earlier last ih =>
    exact ih.of_raises (Grown.sound earlier hs) (Grown.accounted earlier hs accounted) last

theorem Shrunk.flowing (shrunk : Shrunk pr p q) (hs : p.Sound) (flow : p.Flowing) : q.Flowing := by
  induction shrunk with
  | refl => exact flow
  | tail earlier last ih =>
    exact ih.of_shapes (Shrunk.sound earlier hs) last

theorem Flowing.of_adopts (flow : p.Flowing) (hs : p.Sound) (adopts : p.Adopts q i write l) :
    q.Flowing := by
  have out : l.status ≠ .connected := by simp [adopts.status]
  obtain ⟨noPrev, noNext, -⟩ := hs.chains.unchained i l adopts.relinked.held out
  exact flow.of_relinked hs adopts.relinked out ⟨noPrev, noNext, inr ⟨rfl, write, rfl⟩⟩

/-- An operation keeps the flow graph exact. -/
theorem Reaches.flowing (reaches : p.Reaches pr q) (hs : p.Sound) (accounted : p.Accounted)
    (flow : p.Flowing) : q.Flowing := by
  obtain ⟨m, hsm, -, flowm, isShrunk⟩ := reaches.between hs Flowing
    (fun isGrown => Grown.flowing isGrown hs accounted flow)
    fun hsFirst adopts flowingFirst => flowingFirst.of_adopts hsFirst adopts
  exact Shrunk.flowing isShrunk hsm flowm

/-- An operation lets no edge be taken for one of a later node, as long as slots are young. -/
theorem Reaches.accounted (reaches : p.Reaches pr q) (hs : p.Sound) (young : p.values.Young age)
    (room : age + 1 < 2 ^ 32) (accounted : p.Accounted) : q.Accounted := by
  obtain ⟨m, hsm, grows, accountedMiddle, isShrunk⟩ := reaches.between hs Accounted
    (fun isGrown => Grown.accounted isGrown hs accounted)
    fun _ adopts accountedFirst => accountedFirst.of_adopts adopts
  exact accountedMiddle.of_shrunk hsm (young.of_grows grows) room isShrunk

theorem flowing_initial (name : String) (cfg : Settings) : (initial name cfg).Flowing where
  exact src target := by simp [jumps, block?, threads_initial]
  mirrored src target := by simp [jumps, arrivals, block?]
  listed := by simp

section

variable (run : (initial name cfg).runAll? ops = some s)
  (apart : ops.length < 2 ^ 32 ∨ (initial name cfg).Along (fun p op _ => op.SparesFinalized p) ops)
include run apart

/-- Whatever runs lead to, the flow graph is exact and no edge is taken for one of a later
node: while no slot has come round to a generation that it had before, and for as long as
nothing is added to finalized instructions. -/
theorem accounted_flowing_of_runAll? : s.Accounted ∧ s.Flowing := by
  have start := flowing_initial name cfg
  rcases apart with short | along
  · have counted := (runAll?_counted (fun count reached => count < 2 ^ 32 →
        reached.values.Young count ∧ reached.Accounted ∧ reached.Flowing)
      (fun hs holds _ leads room => ?_) (sound_initial name cfg)
      (fun _ => ⟨young_initial name cfg, by simp [Accounted], start⟩)
      (along_true _ ops) run).2
    · exact (counted short).2
    · obtain ⟨young, accounted, flow⟩ := holds (Nat.lt_of_succ_lt room)
      exact ⟨leads.reaches.young hs young room, leads.reaches.accounted hs young room accounted,
        leads.reaches.flowing hs accounted flow⟩
  · have both := (runAll?_counted (fun _ reached => reached.Tidy ∧ reached.Flowing)
      (fun hs holds spares leads => ?_) (sound_initial name cfg)
      ⟨⟨by simp, by simp⟩, start⟩ along run).2
    · exact ⟨both.1.accounted, both.2⟩
    · exact ⟨(kept_tidy spares).reaches hs leads.reaches holds.1,
        leads.reaches.flowing hs holds.1.accounted holds.2⟩

theorem flowing_of_runAll? : s.Flowing :=
  (accounted_flowing_of_runAll? run apart).2

end

end Program

end ValueGraph
