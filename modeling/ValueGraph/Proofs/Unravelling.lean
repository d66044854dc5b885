import Mathlib
import ValueGraph.Proofs.Accounts

open Function

namespace ValueGraph

open Program List Option

/-!
# Unravelling

Finalizing an instruction takes it out of its block, strips it of its operands and
marks it; what is nested under it goes first.  Blocks and functions go after their
instructions.  Every such teardown is a sequence of moves.
-/

variable {i outer inner : InstId} {u v : ValueId} {l : Link} {b : BlockId}
  {first second third p q s : Program} {nested rest : List InstId} {fuel : Nat}
  {blocks : List BlockId} {region : ValueId → Prop} {a : Unit}

namespace Program

/-- A handle names nothing, or an instruction that is finalized. -/
def Settled (program : Program) (inst : InstId) : Prop :=
  program.isLive inst = true →
    ∃ link, program.link? inst = some link ∧ link.status = .finalized

/-- Instructions may be taken apart; blocks, functions, symbols, arguments and
registers are what they were. -/
structure Dwindles (before after : Program) : Prop where
  surroundings : after.surroundings = before.surroundings
  seats : after.seat? = before.seat?
  bodies : after.function? = before.function?
  globals : after.global? = before.global?
  arguments : after.argument? = before.argument?
  registers : after.register? = before.register?
  operands : ∀ user, (after.operandsOf user).Sublist (before.operandsOf user)
  edges : ∀ edge data, after.edges.get? edge = some data → before.edges.get? edge = some data
  kinds : ∀ inst kind, after.kind? inst = some kind → before.kind? inst = some kind
  types : ∀ value type, after.type? value = some type → before.type? value = some type
  nested : ∀ inner link outer, after.link? inner = some link →
    link.holder = some (.inst outer) → before.link? inner = some link
  threads : ∀ block, (after.threads block).Sublist (before.threads block)
  settled : ∀ inst, before.Settled inst → after.Settled inst

namespace Dwindles

variable {r : Program}

theorem refl (s : Program) : s.Dwindles s where
  surroundings := rfl
  seats := rfl
  bodies := rfl
  globals := rfl
  arguments := rfl
  registers := rfl
  operands _ := List.Sublist.refl _
  edges _ _ := id
  kinds _ _ := id
  types _ _ := id
  nested _ _ _ held _ := held
  threads _ := List.Sublist.refl _
  settled _ := id

theorem trans (earlier : p.Dwindles q) (later : q.Dwindles r) : p.Dwindles r where
  surroundings := later.surroundings.trans earlier.surroundings
  seats := later.seats.trans earlier.seats
  bodies := later.bodies.trans earlier.bodies
  globals := later.globals.trans earlier.globals
  arguments := later.arguments.trans earlier.arguments
  registers := later.registers.trans earlier.registers
  operands u := (later.operands u).trans (earlier.operands u)
  edges edge data held := earlier.edges edge data (later.edges edge data held)
  kinds i kind held := earlier.kinds i kind (later.kinds i kind held)
  types v type held := earlier.types v type (later.types v type held)
  nested inner l outer held holder :=
    earlier.nested inner l outer (later.nested inner l outer held holder) holder
  threads b := (later.threads b).trans (earlier.threads b)
  settled i := later.settled i ∘ earlier.settled i

theorem wires (dw : p.Dwindles q) (e : EdgeId) (d : Edge) (h : q.wire? e = some d) :
    p.wire? e = some d := by
  obtain ⟨data, again, rfl⟩ := map_eq_some_iff.mp h
  rw [wire?, dw.edges e data again, map_some]

/-- What is not finalized was an instruction that was not finalized. -/
theorem ongoing (dw : p.Dwindles q) (ongoing : q.Ongoing i) : p.Ongoing i := by
  obtain ⟨l, h, st⟩ := ongoing
  obtain ⟨d, hInst, rfl⟩ := map_eq_some_iff.mp h
  have hKind : q.kind? i = some d.kind := by rw [kind?, hInst, map_some]
  obtain ⟨old, hOld, -⟩ := map_eq_some_iff.mp (dw.kinds i _ hKind)
  refine ⟨old.link, link?_of_inst? hOld, fun fin => ?_⟩
  have settled : p.Settled i := fun _ =>
    ⟨old.link, link?_of_inst? hOld, fin⟩
  obtain ⟨again, h', finalizedAgain⟩ := dw.settled i settled (isLive_of_inst? hInst)
  rw [h, some.injEq] at h'
  exact st (h' ▸ finalizedAgain)

theorem operandsOf_eq_nil (dw : p.Dwindles q) (stripped : p.operandsOf u = []) :
    q.operandsOf u = [] :=
  sublist_nil.mp (stripped ▸ dw.operands u)

theorem neat (dw : p.Dwindles q) (neat : p.Neat) : q.Neat :=
  neat.mono dw.operands dw.wires dw.nested

end Dwindles

theorem Rewires.isLive (rew : p.Rewires q) (live : q.isLive v = true) : p.isLive v = true :=
  rew.shrinks.contains v live

/-- A relink outside the chains keeps the threads. -/
theorem Relinked.threads_eq {old new : Link} (relink : p.Relinked q i old new) (hs : p.Sound)
    (wasOutside : old.status ≠ .connected) (out : new.Unchained) : q.threads = p.threads :=
  (relink.chains hs.chains wasOutside out).threads_eq

theorem Rewires.threads_eq (rew : p.Rewires q) (hs : p.Sound) : q.threads = p.threads :=
  (hs.chains.of_same rew.skeleton.link? rew.skeleton.ends?).threads_eq

/-- What a node did not show is still there when the node goes. -/
theorem Dropped.bind_eq {β : Type} (drop : p.Dropped q v) (reading : Payload → Option β)
    (unread : ∀ payload, p.payload? v = some payload → reading payload = none) :
    (fun value => (q.payload? value).bind reading) = fun value =>
    (p.payload? value).bind reading := by
  rcases drop.exchanged_or with ⟨-, pls, -⟩ | ⟨-, live, exch, -⟩
  · rw [pls]
  · rw [exch.bind]
    refine update_eq_self_iff.mpr ?_
    rw [isLive_iff, isSome_iff_exists] at live
    obtain ⟨payload, h⟩ := live
    rw [h, bind_some, unread payload h]
    rfl

theorem Dropped.views_of_inst (drop : p.Dropped q i) (h : p.link? i = some l) :
    q.seat? = p.seat? ∧ q.function? = p.function? ∧
      q.global? = p.global? ∧ q.argument? = p.argument? ∧
        q.register? = p.register? ∧ q.ends? = p.ends? := by
  obtain ⟨d, hInst, -⟩ := map_eq_some_iff.mp h
  have kept : ∀ {β : Type} (reading : Payload → Option β), reading (.inst d) = none →
      (fun value => (q.payload? value).bind reading) = fun value =>
        (p.payload? value).bind reading := by
    intro β reading unread
    refine drop.bind_eq reading fun payload hPayload => ?_
    rw [inst?_eq_some_iff, hPayload, some.injEq] at hInst
    rw [hInst, unread]
  refine ⟨?_, kept _ rfl, kept _ rfl, ?_, ?_, ?_⟩
  · simpa only [seat?_eq_bind] using kept _ rfl
  · simpa only [argument?_eq_bind] using kept _ rfl
  · simpa only [register?_eq_bind] using kept _ rfl
  · simpa only [ends?_eq_bind] using kept _ rfl

theorem Rearranges.dwindles (rea : p.Rearranges q)
    (threads : ∀ b, (q.threads b).Sublist (p.threads b))
    (nested : ∀ inner l outer, q.link? inner = some l →
      l.holder = some (.inst outer) → p.link? inner = some l)
    (fin : ∀ i l, p.link? i = some l → l.status = .finalized →
      ∃ l, q.link? i = some l ∧ l.status = .finalized) : p.Dwindles q where
  surroundings := rea.surroundings
  seats := rea.seats
  bodies := rea.bodies
  globals := rea.globals
  arguments := rea.arguments
  registers := rea.registers
  operands u := by rw [rea.operands]
  edges edge data h := by rwa [← rea.edges]
  kinds i kind h := by rwa [← rea.kinds]
  types v type h := by rwa [← rea.types]
  nested := nested
  threads := threads
  settled i settled live := by
    rw [rea.isLive] at live
    obtain ⟨l, h, st⟩ := settled live
    exact fin i l h st

theorem Refloats.finalized (refloats : p.Refloats q) (h : p.link? i = some l)
    (st : l.status = .finalized) : q.link? i = some l := by
  rcases refloats i with eq | ⟨old, _, hOld, -, floats, -⟩
  · exact eq.trans h
  · obtain rfl := mem_unique h hOld
    rcases floats with conn | disconnected
    · simp [st] at conn
    · simp [st] at disconnected

/-- Giving up a node to which nothing is attached keeps the threads. -/
theorem Dropped.threads_eq_of_bare (drop : p.Dropped q v) (hs : p.Sound)
    (bare : p.countOf v = 1 → p.Bare v) : q.threads = p.threads := by
  rcases drop.exchanged_or with ⟨-, pls, -⟩ | ⟨last, -, exch, -⟩
  · refine (hs.chains.of_same ?_ ?_).threads_eq
    · simp only [link?_eq_bind, pls]
    · simp only [ends?_eq_bind, pls]
  · exact (exch.chains hs.chains (fun _ => (bare last).status_ne_connected) (by simp)
      ((bare last).threads_eq_nil hs.chains) (by simp)).threads_eq

/-- Giving up a finalized instruction keeps the threads. -/
theorem Dropped.threads_eq (drop : p.Dropped q i) (hs : p.Sound) (h : p.link? i = some l)
    (fin : l.status = .finalized) : q.threads = p.threads :=
  drop.threads_eq_of_bare hs fun _ => p.bare_of_finalized h fin

theorem Dropped.seat?_before {seat : Option FuncId} (drop : p.Dropped q v)
    (h : q.seat? b = some seat) : p.seat? b = some seat := by
  simp only [seat?_eq_bind, payload?, bind_map, bind_eq_some_iff] at h ⊢
  obtain ⟨n, found, isSeat⟩ := h
  exact ⟨n, drop.node_before found, isSeat⟩

theorem Dropped.settled {i : ValueId} (drop : p.Dropped q v) (settled : p.Settled i) :
    q.Settled i := by
  intro live
  rcases drop.exchanged_or with ⟨-, pls, -⟩ | ⟨-, -, exch, -⟩
  · rw [isLive_iff, pls, ← isLive_iff] at live
    obtain ⟨l, h, st⟩ := settled live
    exact ⟨l, by simpa only [link?_eq_bind, pls] using h, st⟩
  · have ne : i ≠ v := by
      rintro rfl
      rw [isLive_iff, show q.payload? = _ from exch] at live
      simp at live
    rw [isLive_iff, show q.payload? = _ from exch, update_of_ne ne, ← isLive_iff] at live
    rw [exch.link?, update_of_ne ne]
    exact settled live

theorem Wrecks.dwindles (wrecks : p.Wrecks q) (hs : p.Sound) : p.Dwindles q := by
  cases wrecks with
  | detach i reth =>
    refine reth.toRearranges.dwindles ?_ (fun _ _ _ => reth.nested)
      fun inst l h st => ⟨l, reth.refloats.finalized h st, st⟩
    intro b
    rw [reth.chains.threads_eq]
    exact erase_sublist
  | strip i l h st rem kinds =>
    refine
      { surroundings := rem.rewires.surroundings
        seats := rem.rewires.skeleton.seat?
        bodies := rem.rewires.skeleton.function?
        globals := rem.rewires.skeleton.global?
        arguments := rem.rewires.skeleton.argument?
        registers := rem.rewires.skeleton.register?
        operands := fun u => ?_
        edges := fun e d hEdge => ?_
        kinds := fun inst kind hKind => by rwa [← kinds]
        types := fun _ _ => rem.rewires.type?_before
        nested := fun inner link outer again _ => by
          rwa [← rem.rewires.skeleton.link?]
        threads := fun b => by rw [rem.rewires.threads_eq hs]
        settled := fun inst settled live => ?_ }
    · rw [rem.operands, update_apply]
      split
      · exact nil_sublist _
      · exact List.Sublist.refl _
    · rw [rem.edges e (by simp)] at hEdge
      split at hEdge
      · simp at hEdge
      · exact hEdge
    · rw [rem.rewires.skeleton.link?]
      exact settled (rem.rewires.isLive live)
  | mark i l st stripped relink =>
    refine relink.restrings.rearranges.dwindles ?_ ?_ fun inst link h fin => ?_
    · intro b
      rw [relink.threads_eq hs st (Link.unchained_finalized l)]
    · intro inner link outer h holder
      rw [relink.links, update_apply] at h
      split at h
      · obtain rfl := some.inj h
        simp [Link.finalized] at holder
      · exact h
    · rw [relink.links, update_apply]
      split
      · exact ⟨_, rfl, rfl⟩
      · exact ⟨link, h, fin⟩
  | drop i l h fin dropped =>
    obtain ⟨seats, bodies, globals, args, regs, -⟩ := dropped.views_of_inst h
    refine
      { surroundings := dropped.surroundings
        seats
        bodies
        globals
        arguments := args
        registers := regs
        operands := fun u => ?_
        edges := fun e d hEdge => by rwa [← dropped.edges]
        kinds := fun inst kind hKind => by
          obtain ⟨d, hInst, rfl⟩ := map_eq_some_iff.mp hKind
          rw [kind?, dropped.inst?_before hInst, map_some]
        types := dropped.type?_before
        nested := fun _ _ _ again _ => dropped.link?_before again
        threads := fun b => by rw [dropped.threads_eq hs h fin]
        settled := fun inst => dropped.settled }
    rcases dropped.exchanged_or with ⟨-, -, ops⟩ | ⟨-, -, -, ops⟩
    · rw [ops]
    · rw [ops, update_apply]
      split
      · exact nil_sublist _
      · exact List.Sublist.refl _

theorem Wrecked.dwindles (wrecked : Wrecked p q) (hs : p.Sound) : p.Dwindles q := by
  induction wrecked with
  | refl => exact .refl _
  | tail start last ih =>
    exact ih.trans (last.dwindles (Wrecked.sound start hs))

/-! ### What is spared -/

/-- An instruction that another holds is nested under it. -/
theorem Sound.reparent_of_holder (hs : p.Sound) (h : p.link? i = some l)
    (holder : l.holder = some (.inst outer)) : l.status = .reparent := by
  by_cases conn : l.status = .connected
  · obtain ⟨b, -, mem⟩ := hs.chains.attached i l h conn
    obtain ⟨_, hMember, -, home⟩ := hs.chains.link_of_mem mem
    obtain rfl := mem_unique h hMember
    simp [holder] at home
  · obtain ⟨-, -, ⟨-, free⟩ | ⟨nested, -⟩⟩ := hs.chains.unchained i l h conn
    · simp [holder] at free
    · exact nested

/-- A node that keeps its operands goes on to read what it reads. -/
theorem Reads.of_kept (reads : p.Reads u v) (dw : p.Dwindles q) (wired : q.Wired)
    (kept : q.operandsOf u = p.operandsOf u) : q.Reads u v := by
  obtain ⟨e, d, mem, h, isValue⟩ := reads
  rw [← kept] at mem
  obtain ⟨data, again, -⟩ := wired.own u e mem
  obtain rfl := some.inj (h.symm.trans (dw.wires e data again))
  exact ⟨e, d, mem, again, isValue⟩

/-- Taking apart in two steps spares what both steps spare. -/
theorem Spares.trans (earlier : first.Spares second) (later : second.Spares third)
    (dw : first.Dwindles second) (dwindlesLater : second.Dwindles third) (wired : second.Wired) :
    first.Spares third where
  kept i ongoing := (later.kept i ongoing).trans (earlier.kept i (dwindlesLater.ongoing ongoing))
  nested inner l outer h holder reads ongoing := by
    have ongoingSecond := earlier.nested inner l outer
      (dwindlesLater.nested inner l outer h holder) holder reads ongoing
    exact later.nested inner l outer h holder
      (reads.of_kept dw wired (earlier.kept outer ongoingSecond)) ongoingSecond
  whole inner l outer h holder reads ongoing := by
    have ongoingSecond := dwindlesLater.ongoing ongoing
    have hSecond := earlier.whole inner l outer h holder reads ongoingSecond
    exact later.whole inner l outer hSecond holder
      (reads.of_kept dw wired (earlier.kept outer ongoingSecond)) ongoing

namespace Razed

theorem refl (s : Program) : s.Razed s where
  wrecked := .refl
  spares := ⟨fun _ _ => rfl, fun _ _ _ _ _ _ ongoing => ongoing, fun _ _ _ h _ _ _ => h⟩

theorem sound (razed : p.Razed q) (hs : p.Sound) : q.Sound :=
  Wrecked.sound razed.wrecked hs

theorem dwindles (razed : p.Razed q) (hs : p.Sound) : p.Dwindles q :=
  Wrecked.dwindles razed.wrecked hs

theorem trans (earlier : first.Razed second) (later : second.Razed third) (hs : first.Sound) :
    first.Razed third where
  wrecked := earlier.wrecked.trans later.wrecked
  spares := earlier.spares.trans later.spares (earlier.dwindles hs)
    (later.dwindles (earlier.sound hs)) (earlier.sound hs).wired

theorem shrunk {pr : Promise} (razed : p.Razed q) : Shrunk pr p q :=
  .single (.raze razed)

end Razed

/-- Taking an instruction out of its thread spares everything. -/
theorem Rethreads.razed (reth : p.Rethreads q fun b => (p.threads b).erase i) (hs : p.Sound) :
    p.Razed q where
  wrecked := .single (.detach i reth)
  spares :=
    { kept := fun inst _ => congrFun reth.operands inst
      nested := fun inner l outer _ _ _ ongoing => by
        obtain ⟨outerLink, h, st⟩ := ongoing
        rcases reth.refloats outer with eq | ⟨_, new, -, hNew, -, floats⟩
        · exact ⟨outerLink, eq.trans h, st⟩
        · refine ⟨new, hNew, ?_⟩
          rcases floats with conn | disconnected
          · simp [conn]
          · simp [disconnected]
      whole := fun inner l outer h holder _ _ => by
        have nested := hs.reparent_of_holder h holder
        rcases reth.refloats inner with eq | ⟨old, _, hOld, -, floats, -⟩
        · exact eq.trans h
        · obtain rfl := mem_unique h hOld
          simp [Status.Floats, nested] at floats }

/-- Giving up a finalized instruction spares everything else. -/
theorem Dropped.razed (drop : p.Dropped q i) (hs : p.Sound) (h : p.link? i = some l)
    (fin : l.status = .finalized) : p.Razed q where
  wrecked := .single (.drop i l h fin drop)
  spares := by
    have nodes : ∀ inst, p.Ongoing inst → q.values.get? inst = p.values.get? inst := by
      rintro inst ⟨otherLink, hOther, st⟩
      rcases drop.outcome with ⟨-, nodes⟩ | ⟨-, -, -, nodes⟩
      · rw [nodes]
      · rw [nodes, update_of_ne]
        rintro rfl
        obtain rfl := mem_unique h hOther
        exact st fin
    constructor
    case kept =>
      rintro inst ⟨otherLink, hOther, st⟩
      rw [operandsOf, operandsOf, nodes inst ⟨otherLink, drop.link?_before hOther, st⟩]
    case nested =>
      rintro inner _ outer - - - ongoing
      obtain ⟨outerLink, hOuter, st⟩ := ongoing
      refine ⟨outerLink, ?_, st⟩
      rw [link?, inst?, payload?, nodes outer ⟨outerLink, hOuter, st⟩]
      exact hOuter
    case whole =>
      intro inner innerLink outer hInner holder _ _
      have nested := hs.reparent_of_holder hInner holder
      rw [link?, inst?, payload?, nodes inner ⟨innerLink, hInner, by simp [nested]⟩]
      exact hInner

end Program

/-! ### Finalization -/

namespace Program

variable {chain : BlockId → List InstId} {loose : Option BlockId} {front : List InstId}

theorem Chains.erase_eq (chains : s.Chains chain loose) (split : chain b = front ++ i :: rest) :
    update chain b (front ++ rest) = fun block => (chain block).erase i := by
  funext block
  rw [update_apply]
  split
  next eq =>
    have nd := chains.nodup b
    rw [split] at nd
    have away := (nodup_cons.mp (nodup_middle.mp nd)).1
    rw [eq, split, erase_append_right _ fun inFront =>
      away (mem_append_left _ inFront), erase_cons_head]
  next ne =>
    refine (erase_of_not_mem fun mem => ne ?_).symm
    exact chains.block_unique mem (split ▸ by simp)

/-- An instruction can leave its chain: it stands first or another stands behind it. -/
def Removable (program : Program) (inst : InstId) : Prop :=
  ∀ block front rest, program.threads block = front ++ inst :: rest → front = [] ∨ rest ≠ []

theorem removable_of_outside (out : ∀ b, i ∉ s.threads b) : s.Removable i := by
  intro b front rest split
  exact absurd (split ▸ by simp) (out b)

theorem erase_threads_of_outside (out : ∀ b, i ∉ s.threads b) :
    (fun b => (s.threads b).erase i) = s.threads :=
  funext fun b => erase_of_not_mem (out b)

theorem Sound.status_of_outside (hs : s.Sound) (out : ∀ b, i ∉ s.threads b)
    (h : s.link? i = some l) : l.status ≠ .connected := by
  intro conn
  obtain ⟨b, -, mem⟩ := hs.chains.attached i l h conn
  exact out b mem

theorem owned_of_status? {st : Status} (h : s.status? i = some st) :
    s.owned i = if st = .connected ∨ st = .reparent then 1 else 0 := by
  obtain ⟨l, hLink, rfl⟩ := map_eq_some_iff.mp h
  rw [owned, isOwned_of_link hLink]
  simp [Link.isOwned]

/-- An instruction that stands in a thread before and after, or neither, keeps its
status. -/
theorem Rethreads.status?_eq {threads : BlockId → List InstId} (reth : p.Rethreads q threads)
    (chains : p.Chains p.threads none) (alike : (∃ b, i ∈ threads b) ↔ ∃ b, i ∈ p.threads b) :
    q.status? i = p.status? i := by
  rcases reth.refloats i with eq | ⟨old, new, hOld, hNew, floatsOld, floatsNew⟩
  · rw [status?, status?, eq]
  · have ownedAlike : new.isOwned = old.isOwned := by
      rw [Bool.eq_iff_iff, reth.chains.isOwned_iff hNew floatsNew, alike,
        chains.isOwned_iff hOld floatsOld]
    rw [status?, status?, hOld, hNew]
    rcases floatsOld with statusOld | statusOld <;> rcases floatsNew with statusNew | statusNew <;>
      simp_all [Link.isOwned]

/-- Giving up a node leaves all others. -/
theorem Dropped.node_of_ne {value : ValueId} (drop : p.Dropped q v) (ne : value ≠ v) :
    q.values.get? value = p.values.get? value := by
  rcases drop.outcome with ⟨-, nodes⟩ | ⟨-, -, -, nodes⟩
  · rw [nodes]
  · rw [nodes, update_of_ne ne]

theorem Dropped.status?_of_ne (drop : p.Dropped q v) (ne : i ≠ v) : q.status? i = p.status? i := by
  rw [status?, status?]
  rcases drop.exchanged_or with ⟨-, pls, -⟩ | ⟨-, -, exch, -⟩
  · simp only [link?_eq_bind, pls]
  · rw [exch.link?, update_of_ne ne]

/-- Whatever an instruction is nested under has no operands. -/
def Shielded (program : Program) (inst : InstId) : Prop :=
  ∀ link outer, program.link? inst = some link → link.holder = some (.inst outer) →
    program.operandsOf outer = []

theorem Sound.shielded_of_floats (hs : s.Sound) (h : s.link? i = some l)
    (st : l.status ≠ .reparent) : s.Shielded i := by
  intro _ outer h' holder
  obtain rfl := mem_unique h h'
  exact absurd (hs.reparent_of_holder h holder) st

theorem Reads.operandsOf_ne_nil (reads : s.Reads u v) : s.operandsOf u ≠ [] := by
  obtain ⟨e, -, mem, -⟩ := reads
  exact ne_nil_of_mem mem

/-- What is nested under an instruction is read by it and owned on its behalf. -/
theorem nestedUnder_spec (hs : s.Sound) (read : s.nestedUnder i = .ok nested) :
    nested.length = (s.operandsOf i).countP (s.nests i) ∧
      (∀ inner ∈ nested, s.Reads i inner ∧ ∃ l, s.link? inner = some l ∧
        l.status = .reparent ∧ l.holder = some (.inst i)) ∧
      ∀ inner l, s.Reads i inner → s.link? inner = some l →
        l.holder = some (.inst i) → inner ∈ nested := by
  unfold nestedUnder at read
  simp only [bind_eq_ok] at read
  obtain ⟨values, readValues, filtered⟩ := read
  obtain ⟨-, rfl⟩ := filterM_eq_ok.mp filtered
  simp only [operandValues, bind_eq_ok, operands_eq_ok, mapM_eq_ok] at readValues
  obtain ⟨_, ⟨n, found, rfl⟩, each⟩ := readValues
  rw [← operandsOf_eq found] at each
  have kept : ((values.filter s.isInst).filter fun inner => Except.accepts do
      return (← s.inst inner).holder == some (.inst i)) = values.filter fun inner =>
          (s.link? inner).any (·.holder == some (.inst i)) := by
    rw [List.filter_filter]
    refine filter_congr fun inner _ => ?_
    simp only [isInst_eq, link?]
    cases h : s.inst? inner with
    | none => simp
    | some d =>
      simp only [inst_eq_ok.mpr h]
      simp [Except.accepts, bind, Except.bind, pure, Except.pure, Inst.link]
  rw [kept]
  refine ⟨?_, ?_, ?_⟩
  · rw [← countP_eq_length_filter]
    clear found filtered kept
    generalize s.operandsOf i = edges at each ⊢
    induction each with
    | nil => rfl
    | cons first _ ih =>
      simp only [edgeValue, bind_eq_ok, pure_eq_ok, edge_eq_ok] at first
      obtain ⟨d, h, rfl⟩ := first
      rw [countP_cons, countP_cons, ih]
      simp [nests, wire?, h, Edge.outline]
  · intro inner mem
    rw [List.mem_filter, Option.any_eq_true] at mem
    obtain ⟨inValues, l, h, holder⟩ := mem
    rw [beq_iff_eq] at holder
    refine ⟨?_, l, h, hs.reparent_of_holder h holder, holder⟩
    obtain ⟨k, lt, rfl⟩ := getElem_of_mem inValues
    have readHere := each.get (each.length_eq ▸ lt) lt
    obtain ⟨d, hEdge, isValue⟩ := edgeValue_eq_ok.mp readHere
    exact ⟨_, d.outline, get_mem _ _, wire?_of_get? hEdge, isValue⟩
  · rintro inner l ⟨e, d, mem, hEdge, rfl⟩ h holder
    rw [mem_filter, h]
    refine ⟨?_, by simp [holder]⟩
    obtain ⟨k, lt, rfl⟩ := getElem_of_mem mem
    have readHere := each.get lt (each.length_eq ▸ lt)
    obtain ⟨data, again, isValue⟩ := edgeValue_eq_ok.mp readHere
    rw [wire?, get_eq_getElem] at *
    rw [again, map_some, some.injEq] at hEdge
    rw [← hEdge, Edge.outline, isValue]
    exact getElem_mem _

theorem Shielded.of_dwindles (shield : p.Shielded i) (dw : p.Dwindles q) : q.Shielded i := by
  intro l outer h holder
  exact dw.operandsOf_eq_nil (shield l outer (dw.nested i l outer h holder) holder)

/-- Whether an instruction is held by another. -/
def Holds (program : Program) (outer inner : InstId) : Prop :=
  ∃ link, program.link? inner = some link ∧ link.holder = some (.inst outer)

theorem Holds.isInst (holds : p.Holds outer inner) : p.isInst inner = true := by
  obtain ⟨l, h, -⟩ := holds
  exact isInst_of_link? h

theorem Dwindles.holds_before (dw : p.Dwindles q) (holds : q.Holds outer inner) :
    p.Holds outer inner := by
  obtain ⟨l, h, holder⟩ := holds
  exact ⟨l, dw.nested inner l outer h holder, holder⟩

/-- An instruction holds another and reads it. -/
structure Carries (program : Program) (outer inner : InstId) : Prop where
  holds : program.Holds outer inner
  reads : program.Reads outer inner

theorem Dwindles.carries_before (dw : p.Dwindles q) (carries : q.Carries outer inner) :
    p.Carries outer inner := by
  obtain ⟨e, d, mem, h, isValue⟩ := carries.reads
  exact ⟨dw.holds_before carries.holds,
    e, d, (dw.operands outer).subset mem, dw.wires e d h, isValue⟩

/-- What is carried by a region is in it as well. -/
def Closed (program : Program) (region : ValueId → Prop) : Prop :=
  ∀ outer inner, program.Carries outer inner → region outer → region inner

theorem Closed.of_dwindles (closed : p.Closed region) (dw : p.Dwindles q) : q.Closed region :=
  fun outer inner carries => closed outer inner (dw.carries_before carries)

/-- What is outside a region keeps its status as an instruction and its operands. -/
structure Confined (region : ValueId → Prop) (before after : Program) : Prop where
  status : ∀ other, ¬ region other → after.status? other = before.status? other
  operands : ∀ other, ¬ region other → after.operandsOf other = before.operandsOf other

section Confined

theorem Confined.refl (s : Program) : Confined region s s :=
  ⟨fun _ _ => rfl, fun _ _ => rfl⟩

theorem Confined.trans (earlier : Confined region first second)
    (later : Confined region second third) :
    Confined region first third :=
  ⟨fun value out => (later.status value out).trans (earlier.status value out),
    fun value out => (later.operands value out).trans (earlier.operands value out)⟩

theorem Dropped.confined (drop : p.Dropped q v) (inside : region v) : Confined region p q := by
  have ne : ∀ value, ¬ region value → value ≠ v := fun value out eq => out (eq ▸ inside)
  refine ⟨fun value out => drop.status?_of_ne (ne value out), fun value out => ?_⟩
  rw [operandsOf, drop.node_of_ne (ne value out), ← operandsOf]

end Confined

/-- What finalizing an instruction leaves: the instruction is out of its thread and
finalized, a container that held it gives it up, whatever else is not nested keeps its
status, and what is carried by neither it nor anything carried by it stays as it is. -/
structure Finalized (before after : Program) (inst : InstId) : Prop where
  razed : before.Razed after
  threads : after.threads = fun block => (before.threads block).erase inst
  finalized : ∃ link, after.link? inst = some link ∧ link.status = .finalized
  others : ∀ other, other ≠ inst → before.Shielded other →
    after.status? other = before.status? other
  tally : before.Neat → before.Tally after (Pi.single inst (before.owned inst))
  confined : ∀ region, before.Closed region → region inst → Confined region before after

end Program

namespace Step

theorem disconnect_wrecks (hs : p.Sound) (removable : p.Removable i) (h : p.link? i = some l)
    (conn : l.status = .connected) (run : (disconnect i).run p = .ok (a, q)) :
    p.Rethreads q fun b => (p.threads b).erase i := by
  obtain ⟨b, -, mem⟩ := hs.chains.attached i l h conn
  obtain ⟨front, rest, split⟩ := append_of_mem mem
  rw [← hs.chains.erase_eq split]
  exact disconnect_rethreads hs.chains split (removable b front rest split) run

/-- The first step of finalizing an instruction takes it out of its block, if it stands
in one. -/
theorem detach_spec (hs : p.Sound) (removable : p.Removable i) (h : p.link? i = some l)
    (detach : (l.status = .connected ∧ (disconnect i).run p = .ok (a, q)) ∨
      (l.status ≠ .connected ∧ q = p)) :
    p.Razed q ∧ (q.threads = fun b => (p.threads b).erase i) ∧ (∃ l, q.link? i = some l) ∧
      (∀ inst, inst ≠ i → q.status? inst = p.status? inst) ∧
      q.operandsOf = p.operandsOf ∧
      p.Tally q (Pi.single i (p.owned i - q.owned i)) := by
  rcases detach with ⟨conn, run⟩ | ⟨apart, rfl⟩
  · have reth := disconnect_wrecks hs removable h conn run
    obtain ⟨b, -, mem⟩ := hs.chains.attached i l h conn
    have hi := congrFun reth.insts i
    simp only [isInst_eq, h, isSome_some] at hi
    refine ⟨reth.razed hs, reth.chains.threads_eq,
      isSome_iff_exists.mp hi, fun inst ne => ?_, reth.operands, ?_⟩
    · exact reth.status?_eq hs.chains (by simp only [mem_erase_of_ne ne])
    · intro v
      have shifted := Tally.of_spare reth.spare_eq v
      have counted := reth.tally hs.chains v
      rw [standing_erase hs.chains mem] at counted
      by_cases eq : v = i
      · subst eq
        simpa using shifted
      · rw [counted, Pi.single_eq_of_ne eq, Pi.single_eq_of_ne eq]
  · have out := hs.chains.not_mem_of_status h apart
    exact ⟨.refl _, (erase_threads_of_outside out).symm, ⟨l, h⟩,
      fun _ _ => rfl, rfl, (Tally.refl _).of_eq (by simp)⟩

theorem markFinalized_relinked (run : (markFinalized i).run p = .ok (a, q)) :
    ∃ l, p.Relinked q i l l.finalized := by
  obtain ⟨restr, hi, links, ends⟩ := modifyInst_restrings Link.finalized run
  rw [Program.isInst_eq, isSome_iff_exists] at hi
  obtain ⟨l, h⟩ := hi
  refine ⟨l, restr, h, ?_, ends⟩
  funext other
  rw [links, update_apply]
  split
  next eq =>
    rw [eq, h]
    rfl
  next => rfl

theorem finalizeWithin_run (run : (finalizeWithin fuel i).run p = .ok (a, q)) :
    ∃ left l, fuel = left + 1 ∧ p.link? i = some l ∧ ((l.status = .finalized ∧ p = q) ∨
        (l.status ≠ .finalized ∧ ∃ det nested stripped inside,
          ((l.status = .connected ∧ (disconnect i).run p = .ok ((), det)) ∨
            (l.status ≠ .connected ∧ det = p)) ∧
          det.nestedUnder i = .ok nested ∧
          (clearOperands i).run det = .ok ((), stripped) ∧
          (nested.forM fun inner => do
            finalizeWithin left inner
            dropHandle inner).run stripped = .ok ((), inside) ∧
          (markFinalized i).run inside = .ok ((), q))) := by
  cases fuel with
  | zero => exact absurd run (run_throw_ne_ok _ _ _)
  | succ left =>
    rw [finalizeWithin] at run
    simp only [run_bind, run_get, run_lift, status_eq_ok] at run
    obtain ⟨_, _, ⟨rfl, rfl⟩, _, _, ⟨⟨d, h, rfl⟩, rfl⟩, run⟩ := run
    refine ⟨left, d.link, rfl, link?_of_inst? h, ?_⟩
    split at run
    next fin =>
      obtain ⟨-, rfl⟩ := run_pure.mp run
      exact Or.inl ⟨fin, rfl⟩
    next ongoing =>
      refine Or.inr ⟨ongoing, ?_⟩
      split at run
      next conn =>
        simp only [run_bind, run_get, run_lift] at run
        obtain ⟨_, det, runDet, _, _, ⟨rfl, rfl⟩, nested, _, ⟨read, rfl⟩, _, stripped,
          runStrip, _, inside, runNested, runMark⟩ := run
        exact ⟨det, nested, stripped, inside, Or.inl ⟨conn, runDet⟩, read, runStrip,
          runNested, runMark⟩
      next apart =>
        simp only [run_bind, run_get, run_lift] at run
        obtain ⟨_, _, ⟨rfl, rfl⟩, nested, _, ⟨read, rfl⟩, _, stripped,
          runStrip, _, inside, runNested, runMark⟩ := run
        exact ⟨p, nested, stripped, inside, Or.inr ⟨apart, rfl⟩, read, runStrip, runNested, runMark⟩

/-- Instructions outside the chains are finalized and given up one after another. -/
theorem dropNested_razed
    (each : ∀ {p q : Program} {inner : InstId}, p.Sound → p.Removable inner →
      p.Shielded inner → (finalizeWithin fuel inner).run p = .ok ((), q) →
        p.Finalized q inner) (hs : p.Sound) (out : ∀ inner ∈ nested, ∀ b, inner ∉ p.threads b)
    (shield : ∀ inner ∈ nested, p.Shielded inner)
    (run : (nested.forM fun inner => do
      finalizeWithin fuel inner
      dropHandle inner).run p = .ok (a, q)) :
    p.Razed q ∧ q.threads = p.threads ∧ (∀ inner ∈ nested, q.Settled inner) ∧
      (∀ inst, inst ∉ nested → p.Shielded inst → q.status? inst = p.status? inst) ∧
      (p.Neat → nested.length ≤ 1 → (∀ inner ∈ nested, p.owned inner = 1) → p.Tally q 0) ∧
      ∀ region, p.Closed region → (∀ inner ∈ nested, region inner) →
        Confined region p q := by
  induction nested generalizing p with
  | nil =>
    obtain rfl := run_forM_nil.mp run
    exact ⟨.refl _, rfl, by simp, fun _ _ _ => rfl, fun _ _ _ => .refl _, fun _ _ _ => .refl _⟩
  | cons inner rest ih =>
    obtain ⟨given, run1, run'⟩ := run_forM_cons.mp run
    obtain ⟨_, m, runFin, runDrop⟩ := run_bind.mp run1
    have apart := out inner (by simp)
    have fin := each hs (removable_of_outside apart) (shield inner (by simp)) runFin
    obtain ⟨l, h, st⟩ := fin.finalized
    have hsm := fin.razed.sound hs
    have drop := dropHandle_spec hsm.stored runDrop
    have razedGiven := fin.razed.trans (drop.razed hsm h st) hs
    have dw := razedGiven.dwindles hs
    have threadsGiven : given.threads = p.threads := by
      rw [drop.threads_eq hsm h st, fin.threads, erase_threads_of_outside apart]
    obtain ⟨razedRest, threadsRest, settledRest, othersRest, tallyRest, confinedRest⟩ :=
      ih (razedGiven.sound hs) (fun inst mem => by
          rw [threadsGiven]
          exact out inst (by simp [mem]))
        (fun inst mem => (shield inst (by simp [mem])).of_dwindles dw) run'
    refine ⟨razedGiven.trans razedRest hs, threadsRest.trans threadsGiven, ?_, ?_, ?_, ?_⟩
    · intro inst mem
      rcases mem_cons.mp mem with rfl | inRest
      · exact (razedRest.dwindles (razedGiven.sound hs)).settled inst
          (drop.settled fun _ => fin.finalized)
      · exact settledRest inst inRest
    · intro inst away isShielded
      simp only [mem_cons, not_or] at away
      rw [othersRest inst away.2 (isShielded.of_dwindles dw),
        drop.status?_of_ne away.1, fin.others inst away.1 isShielded]
    · intro neat short nestedHere
      obtain rfl : rest = [] := by simpa using short
      have isOwned := nestedHere inner (by simp)
      have tally := ((fin.tally neat).trans (drop.tally fun _ => m.bare_of_finalized h st)).trans
          (tallyRest (dw.neat neat) (by simp) (by simp))
      refine tally.of_eq ?_
      rw [isOwned, ← Pi.single_add]
      simp
    · intro region closed inside
      have isInside := inside inner (by simp)
      exact ((fin.confined region closed isInside).trans (drop.confined isInside)).trans
        (confinedRest region (closed.of_dwindles dw) fun inst mem =>
          inside inst (by simp [mem]))

/-- Once an instruction is stripped, what is nested under it is taken apart and it is
marked, all others are spared. -/
theorem spares_of_stripped {det stripped inside : Program} (hsDetached : det.Sound)
    (shield : det.Shielded i) (readNested : det.nestedUnder i = .ok nested)
    (strip : det.Wrecks stripped)
    (rem : det.OperandsRemoved stripped i [] (det.operandsOf i) none)
    (razed : stripped.Razed inside) (settled : ∀ inner ∈ nested, inside.Settled inner)
    (relink : inside.Relinked q i l l.finalized) : det.Spares q := by
  have hsStripped := hsDetached.of_cleared rem
  have hsInside := razed.sound hsStripped
  have linkAfter : q.link? = update inside.link? i (some l.finalized) := relink.links
  constructor
  case kept =>
    rintro inst ⟨otherLink, h, st⟩
    have ne : inst ≠ i := by
      rintro rfl
      rw [linkAfter, update_self, some.injEq] at h
      exact st (h ▸ rfl)
    rw [linkAfter, update_of_ne ne] at h
    rw [relink.restrings.operands, razed.spares.kept inst ⟨otherLink, h, st⟩,
      rem.operands, update_of_ne ne]
  case nested =>
    rintro inner innerLink outer h holder reads ⟨outerLink, hOuter, st⟩
    have innerApart : inner ≠ i := by
      rintro rfl
      rw [linkAfter, update_self, some.injEq] at h
      simp [← h, Link.finalized] at holder
    rw [linkAfter, update_of_ne innerApart] at h
    have hStripped := (razed.dwindles hsStripped).nested inner innerLink outer h holder
    rw [rem.rewires.skeleton.link?] at hStripped
    -- what the instruction itself reads and holds is settled by now
    have ne : outer ≠ i := by
      rintro rfl
      obtain ⟨-, -, complete⟩ := nestedUnder_spec hsDetached readNested
      have mem := complete inner innerLink reads hStripped holder
      obtain ⟨d, hInst, -⟩ := map_eq_some_iff.mp h
      obtain ⟨_, h', fin⟩ := settled inner mem (isLive_of_inst? hInst)
      obtain rfl := mem_unique h h'
      have nestedStatus := hsInside.reparent_of_holder h holder
      simp [fin] at nestedStatus
    have readsStripped : stripped.Reads outer inner := by
      refine reads.of_kept (strip.dwindles hsDetached) hsStripped.wired ?_
      rw [rem.operands, update_of_ne ne]
    obtain ⟨insideLink, hInside, statusInside⟩ := razed.spares.nested inner innerLink outer h
      holder readsStripped ⟨outerLink, by rwa [rem.rewires.skeleton.link?], st⟩
    exact ⟨insideLink, by rw [linkAfter, update_of_ne ne, hInside], statusInside⟩
  case whole =>
    rintro inner innerLink outer h holder reads ⟨outerLink, hOuter, st⟩
    have innerApart : inner ≠ i := by
      rintro rfl
      obtain ⟨e, d, mem, -⟩ := reads
      simp [shield innerLink outer h holder] at mem
    have ne : outer ≠ i := by
      rintro rfl
      rw [linkAfter, update_self, some.injEq] at hOuter
      exact st (hOuter ▸ rfl)
    have readsStripped : stripped.Reads outer inner := by
      refine reads.of_kept (strip.dwindles hsDetached) hsStripped.wired ?_
      rw [rem.operands, update_of_ne ne]
    rw [linkAfter, update_of_ne ne] at hOuter
    rw [linkAfter, update_of_ne innerApart]
    exact razed.spares.whole inner innerLink outer (by rwa [rem.rewires.skeleton.link?]) holder
      readsStripped ⟨outerLink, hOuter, st⟩

/-- Finalizing an instruction takes it out of its thread, and nothing else out of any. -/
theorem finalizeWithin_finalized (hs : p.Sound) (removable : p.Removable i)
    (shield : p.Shielded i) (run : (finalizeWithin fuel i).run p = .ok (a, q)) :
    p.Finalized q i := by
  induction fuel generalizing p q i with
  | zero => exact absurd run (run_throw_ne_ok _ _ _)
  | succ fuel ih =>
    obtain ⟨left, l, isLeft, h, outcome⟩ := finalizeWithin_run run
    obtain rfl : fuel = left := by omega
    rcases outcome with ⟨fin, rfl⟩ |
      ⟨-, det, nested, stripped, inside, detach, readNested, runStrip, runNested, runMark⟩
    · have out := hs.chains.not_mem_of_status h (by simp [fin])
      have unowned : p.owned i = 0 := by
        rw [owned, isOwned_of_link h]
        simp [Link.isOwned, fin]
      exact ⟨.refl _, (erase_threads_of_outside out).symm, ⟨l, h, fin⟩,
        fun _ _ _ => rfl, fun _ => (Tally.refl _).of_eq (by simp [unowned]),
        fun _ _ _ => .refl _⟩
    · -- the instruction leaves its block first, if it stands in one
      obtain ⟨razedDetached, threadsDetached, ⟨detachedLink, hDetached⟩, othersDetached,
          operandsDetached, tallyDetached⟩ := detach_spec hs removable h detach
      have hsDetached := razedDetached.sound hs
      have dwindlesDetached := razedDetached.dwindles hs
      have out : ∀ b, i ∉ det.threads b := by
        intro b
        rw [threadsDetached]
        exact (hs.chains.nodup b).not_mem_erase
      obtain ⟨nestedLength, nestedMembers, -⟩ := nestedUnder_spec hsDetached readNested
      obtain ⟨rem, kinds⟩ := clearOperands_spec hsDetached.stored
        hsDetached.wired.placid hsDetached.wired.uses runStrip
      have strip : det.Wrecks stripped :=
        .strip i detachedLink hDetached (hsDetached.status_of_outside out hDetached) rem kinds
      have hsStripped := strip.sound hsDetached
      have threadsStripped := rem.rewires.threads_eq hsDetached
      have linksStripped := rem.rewires.skeleton.link?
      have noOperands : stripped.operandsOf i = [] := by
        rw [rem.operands, update_self]
      have shieldedNested : ∀ inner ∈ nested, stripped.Shielded inner := by
        intro inner mem link outer again holderFound
        obtain ⟨-, innerLink, hInner, -, holder⟩ := nestedMembers inner mem
        rw [← linksStripped] at hInner
        obtain rfl := mem_unique hInner again
        rw [holder, some.injEq, Holder.inst.injEq] at holderFound
        exact holderFound ▸ noOperands
      obtain ⟨razedNested, threadsNested, settledNested, othersNested, tallyNested,
          confinedNested⟩ := dropNested_razed ih hsStripped
          (fun inner mem => by
            obtain ⟨-, innerLink, hInner, st, -⟩ := nestedMembers inner mem
            rw [threadsStripped]
            exact hsDetached.chains.not_mem_of_status hInner (by simp [st]))
          shieldedNested runNested
      have hsInside := razedNested.sound hsStripped
      have bare : inside.operandsOf i = [] :=
        (razedNested.dwindles hsStripped).operandsOf_eq_nil noOperands
      have threadsInside : inside.threads = det.threads := threadsNested.trans threadsStripped
      obtain ⟨insideLink, relink⟩ := markFinalized_relinked runMark
      have apart : insideLink.status ≠ .connected :=
        hsInside.status_of_outside (by rwa [threadsInside]) relink.held
      have razedAfter : det.Razed q :=
        { wrecked := (Relation.ReflTransGen.head strip razedNested.wrecked).tail
            (.mark i insideLink apart bare relink)
          spares := spares_of_stripped hsDetached (shield.of_dwindles dwindlesDetached)
            readNested strip rem razedNested settledNested relink }
      -- what is not nested under anything is passed by
      have passed : ∀ inst, p.Shielded inst → inst ∉ nested ∧ stripped.Shielded inst := by
        intro inst shield
        have shieldedDetached := shield.of_dwindles dwindlesDetached
        refine ⟨fun mem => ?_, shieldedDetached.of_dwindles (strip.dwindles hsDetached)⟩
        obtain ⟨reads, innerLink, hInner, -, holder⟩ := nestedMembers inst mem
        exact reads.operandsOf_ne_nil (shieldedDetached innerLink i hInner holder)
      constructor
      case razed => exact razedDetached.trans razedAfter hs
      case threads =>
        rw [relink.threads_eq hsInside apart insideLink.unchained_finalized,
          threadsInside, threadsDetached]
      case finalized =>
        exact ⟨insideLink.finalized, by rw [relink.links, update_self], rfl⟩
      case others =>
        intro inst ne shield
        obtain ⟨away, shieldedStripped⟩ := passed inst shield
        rw [Program.status?, relink.links, update_of_ne ne, ← Program.status?,
          othersNested inst away shieldedStripped, status?, linksStripped,
          ← status?, othersDetached inst ne]
      case tally =>
        intro neat
        obtain ⟨away, shieldedStripped⟩ := passed i shield
        have neatDetached := dwindlesDetached.neat neat
        have ownedInside : inside.owned i = det.owned i := by
          have statusInside : inside.status? i = det.status? i := by
            rw [othersNested i away shieldedStripped, status?, linksStripped, status?]
          have statusDetached : det.status? i = some detachedLink.status := by
            rw [status?, hDetached, map_some]
          rw [owned_of_status? statusDetached, owned_of_status? (statusInside.trans statusDetached)]
        have nestedHere : ∀ inner ∈ nested, stripped.owned inner = 1 := by
          intro inner mem
          obtain ⟨-, innerLink, hInner, st, -⟩ := nestedMembers inner mem
          rw [← linksStripped] at hInner
          rw [owned, isOwned_of_link hInner]
          simp [Link.isOwned, st]
        have tally := ((tallyDetached.trans (.of_rewires rem.rewires rem.spare)).trans
            (tallyNested ((strip.dwindles hsDetached).neat neatDetached)
              (nestedLength.trans_le (neatDetached i)) nestedHere)).trans relink.tally
        refine tally.of_eq ?_
        have ownedLink : inside.owned i = if insideLink.isOwned then 1 else 0 := by
          rw [owned, isOwned_of_link relink.held]
        rw [← ownedLink, ownedInside, add_zero, add_zero, ← Pi.single_add]
        simp [Link.isOwned, Link.finalized]
      case confined =>
        intro region closed isInside
        have closedDetached := closed.of_dwindles dwindlesDetached
        have ne : ∀ value, ¬ region value → value ≠ i := fun value isOutside eq =>
          isOutside (eq ▸ isInside)
        have confined := confinedNested region
          (closedDetached.of_dwindles (strip.dwindles hsDetached)) fun inner mem => by
            obtain ⟨reads, innerLink, hInner, -, holder⟩ := nestedMembers inner mem
            exact closedDetached i inner ⟨⟨innerLink, hInner, holder⟩, reads⟩ isInside
        refine ⟨fun value isOutside => ?_, fun value isOutside => ?_⟩
        · rw [status?, relink.links, update_of_ne (ne value isOutside), ← Program.status?,
            confined.status value isOutside, status?, linksStripped, ← status?,
            othersDetached value (ne value isOutside)]
        · rw [relink.restrings.rearranges.operands, confined.operands value isOutside,
            rem.operands, update_of_ne (ne value isOutside), operandsDetached]

end Step

/-! ### Groups of instructions -/

theorem front_eq_of_nodup {α : Type} {front rest ahead behind : List α} {item : α}
    (nd : (front ++ item :: rest).Nodup) (split : front ++ item :: rest = ahead ++ item :: behind) :
    ahead = front := by
  have away := (nodup_cons.mp (nodup_middle.mp nd)).1
  simp only [mem_append, not_or] at away
  rcases insert_split_cases split with
    ⟨between, rfl, -⟩ | ⟨rfl, -, -⟩ | ⟨between, rfl, rfl⟩
  · simp at away
  · rfl
  · simp at away

namespace Program

/-- Whatever stands in front of a listed instruction in its thread comes earlier in the
list. -/
def Ordered (program : Program) (insts : List InstId) : Prop :=
  ∀ front inst rest, insts = front ++ inst :: rest →
    ∀ block ahead behind, program.threads block = ahead ++ inst :: behind →
      ∀ other ∈ ahead, other ∈ front

theorem Ordered.removable (ord : s.Ordered (i :: rest)) : s.Removable i := by
  intro b ahead behind split
  refine Or.inl (eq_nil_iff_forall_not_mem.mpr fun inst mem => ?_)
  exact absurd (ord [] i rest rfl b ahead behind split inst mem) (by simp)

/-- Once the first instruction has left its thread the others are in order. -/
theorem Ordered.tail (ord : s.Ordered (i :: rest)) (chains : s.Chains s.threads none)
    (threads : ∀ b, q.threads b = (s.threads b).erase i) : q.Ordered rest := by
  intro front inst behind split b ahead tail splitThread item inAhead
  rw [threads] at splitThread
  have distinct : item ≠ i := by
    rintro rfl
    refine (chains.nodup b).not_mem_erase (a := item) ?_
    rw [splitThread]
    exact mem_append_left _ inAhead
  -- with the first instruction back in its thread, the order of the whole list applies
  obtain ⟨whole, behindWhole, splitWhole, inWhole⟩ : ∃ whole behindWhole,
      s.threads b = whole ++ inst :: behindWhole ∧ item ∈ whole := by
    by_cases mem : i ∈ s.threads b
    · obtain ⟨first, last, shape⟩ := append_of_mem mem
      have alone : i ∉ first := by
        have nd := chains.nodup b
        rw [shape] at nd
        exact fun inFirst => (nodup_cons.mp (nodup_middle.mp nd)).1 (mem_append_left _ inFirst)
      rw [shape, erase_append_right _ alone, erase_cons_head] at splitThread
      rcases append_split_cases splitThread with ⟨between, rfl, -⟩ | ⟨between, rfl, rfl⟩
      · exact ⟨ahead, between ++ i :: last, by simp [shape], inAhead⟩
      · refine ⟨first ++ i :: between, tail, by simp [shape], ?_⟩
        simp only [mem_append, mem_cons] at inAhead ⊢
        exact inAhead.imp id Or.inr
    · rw [erase_of_not_mem mem] at splitThread
      exact ⟨ahead, tail, splitThread, inAhead⟩
  have earlier := ord (i :: front) inst behind (by simp [split]) b whole behindWhole
    splitWhole item inWhole
  exact (mem_cons.mp earlier).resolve_left distinct

/-- The threads of some blocks, one after another, are in order. -/
theorem ordered_flatMap (chains : s.Chains s.threads none) (blocks : List BlockId) :
    s.Ordered (blocks.flatMap s.threads) := by
  induction blocks with
  | nil =>
    intro front i rest split
    simp at split
  | cons first others ih =>
    intro front i rest split b ahead behind splitThread item inAhead
    rw [flatMap_cons] at split
    rcases append_split_cases split with ⟨between, inFirst, -⟩ | ⟨between, rfl, inOthers⟩
    · have standsFirst : i ∈ s.threads first := by simp [inFirst]
      obtain rfl : first = b := chains.block_unique standsFirst (by simp [splitThread])
      have nd := chains.nodup first
      rw [inFirst] at nd splitThread
      rwa [front_eq_of_nodup nd splitThread] at inAhead
    · exact mem_append_right _ (ih between i rest inOthers b ahead behind splitThread item inAhead)

end Program

namespace Step

variable {insts : List InstId}

theorem finalizeInst_finalized (hs : p.Sound) (removable : p.Removable i) (shield : p.Shielded i)
    (run : (finalizeInst i).run p = .ok (a, q)) : p.Finalized q i := by
  replace run := run_get_bind.mp run
  exact finalizeWithin_finalized hs removable shield run

/-- Finalizing instructions in order empties their threads of them; the blocks that
held them give them up. -/
theorem finalizeAll_razed (hs : p.Sound) (ord : p.Ordered insts)
    (shield : ∀ i ∈ insts, p.Shielded i) (run : (insts.forM finalizeInst).run p = .ok (a, q)) :
    p.Razed q ∧ (q.threads = fun b => (p.threads b).filter (· ∉ insts)) ∧
      (∀ i ∈ insts, q.Settled i) ∧
      (p.Neat → insts.Nodup → (∀ i ∈ insts, p.status? i = some .connected) →
        p.Tally q fun v => insts.count v) := by
  induction insts generalizing p with
  | nil =>
    obtain rfl := run_forM_nil.mp run
    exact ⟨.refl _, by simp, by simp, fun _ _ _ => (Tally.refl _).of_eq (by rfl)⟩
  | cons i rest ih =>
    obtain ⟨m, run1, run'⟩ := run_forM_cons.mp run
    have fin := finalizeInst_finalized hs ord.removable (shield i (by simp)) run1
    have hsm := fin.razed.sound hs
    have dw := fin.razed.dwindles hs
    have threads := fin.threads
    obtain ⟨razedRest, threadsRest, settledRest, tallyRest⟩ := ih hsm
      (ord.tail hs.chains fun b => congrFun threads b)
      (fun inst mem => (shield inst (by simp [mem])).of_dwindles dw) run'
    refine ⟨fin.razed.trans razedRest hs, ?_, ?_, ?_⟩
    · rw [threadsRest, threads]
      funext b
      beta_reduce
      rw [(hs.chains.nodup b).erase_eq_filter, List.filter_filter]
      refine filter_congr fun item _ => ?_
      by_cases isFirst : item = i <;> by_cases inRest : item ∈ rest <;>
        simp [isFirst, inRest]
    · intro inst mem
      rcases mem_cons.mp mem with rfl | inRest
      · exact (razedRest.dwindles hsm).settled inst fun _ => fin.finalized
      · exact settledRest inst inRest
    · intro neat nd conn
      obtain ⟨away, nd'⟩ := nodup_cons.mp nd
      have first := fin.tally neat
      rw [owned_of_status? (conn i (by simp))] at first
      have later := tallyRest (dw.neat neat) nd' fun inst mem => by
        have ne : inst ≠ i := fun eq => away (eq ▸ mem)
        rw [fin.others inst ne (shield inst (by simp [mem]))]
        exact conn inst (by simp [mem])
      refine (first.trans later).of_eq ?_
      funext v
      rw [Pi.add_apply, count_cons]
      by_cases eq : v = i
      · subst eq
        simp [add_comm]
      · simp [Ne.symm eq]

theorem dropAll_razed (hs : p.Sound) (settled : ∀ i ∈ insts, p.Settled i)
    (run : (insts.forM dropHandle).run p = .ok (a, q)) :
    p.Razed q ∧ q.threads = p.threads ∧ p.Tally q fun v => -insts.count v := by
  induction insts generalizing p with
  | nil =>
    obtain rfl := run_forM_nil.mp run
    exact ⟨.refl _, rfl, (Tally.refl _).of_eq (by rfl)⟩
  | cons i rest ih =>
    obtain ⟨m, run1, run'⟩ := run_forM_cons.mp run
    have drop := dropHandle_spec hs.stored run1
    obtain ⟨l, h, st⟩ := settled i (by simp) drop.live
    have razed := drop.razed hs h st
    obtain ⟨razedRest, threadsRest, tallyRest⟩ := ih (razed.sound hs)
      (fun inst mem => drop.settled (settled inst (by simp [mem]))) run'
    refine ⟨razed.trans razedRest hs, threadsRest.trans (drop.threads_eq hs h st),
      ((drop.tally fun _ => p.bare_of_finalized h st).trans tallyRest).of_eq ?_⟩
    funext v
    rw [Pi.add_apply, count_cons]
    by_cases eq : v = i
    · subst eq
      simp
    · simp [Ne.symm eq]

/-- Taking down instructions in order; what their blocks held goes with them. -/
theorem dropInstructions_razed (hs : p.Sound) (ord : p.Ordered insts)
    (conn : ∀ i ∈ insts, p.status? i = some .connected)
    (run : (dropInstructions insts).run p = .ok (a, q)) :
    p.Razed q ∧ (q.threads = fun b => (p.threads b).filter (· ∉ insts)) ∧
      (insts.Nodup → p.Settles q 0) := by
  obtain ⟨_, m, runFin, runDrop⟩ := run_bind.mp run
  have shield : ∀ i ∈ insts, p.Shielded i := by
    intro i mem
    obtain ⟨l, h, st⟩ := map_eq_some_iff.mp (conn i mem)
    exact hs.shielded_of_floats h (by simp [st])
  obtain ⟨razed, threads, settled, tally⟩ := finalizeAll_razed hs ord shield runFin
  obtain ⟨razedDrop, threadsDrop, tallyDrop⟩ := dropAll_razed (razed.sound hs) settled runDrop
  have razedAll := razed.trans razedDrop hs
  refine ⟨razedAll, threadsDrop.trans threads, fun nd => ⟨?_, fun neat => ?_⟩⟩
  · exact (razedAll.dwindles hs).neat
  · refine ((tally neat nd conn).trans tallyDrop).of_eq ?_
    funext v
    simp

end Step

namespace Program

theorem Sound.status?_of_mem (hs : s.Sound) (mem : i ∈ s.threads b) :
    s.status? i = some .connected := by
  obtain ⟨l, h, st, -⟩ := hs.chains.link_of_mem mem
  rw [status?, h, map_some, st]

theorem Sound.status?_of_mem_flatMap (hs : s.Sound) (mem : i ∈ blocks.flatMap s.threads) :
    s.status? i = some .connected := by
  obtain ⟨b, -, inThread⟩ := mem_flatMap.mp mem
  exact hs.status?_of_mem inThread

/-- Different blocks have different instructions. -/
theorem Sound.nodup_flatMap (hs : s.Sound) (nd : blocks.Nodup) :
    (blocks.flatMap s.threads).Nodup := by
  rw [List.nodup_flatMap]
  refine ⟨fun b _ => hs.chains.nodup b, nd.imp fun ne => ?_⟩
  intro i inFirst inSecond
  exact ne (hs.chains.block_unique inFirst inSecond)

end Program

end ValueGraph
