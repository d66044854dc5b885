import Mathlib
import ValueGraph.Proofs.Invariants

open Function

namespace ValueGraph

open Program Option Arena Payload

/-!
# Nodes that come and go

A new node has nothing attached to it, and a node may only go when nothing is
attached to it any more.  Both keep a program sound.
-/

variable {other v : ValueId} {chain : BlockId → List InstId} {i : InstId} {l : Link} {p q : Program}
  {new : Option Payload} {ty : TypeId} {content : Payload}

namespace Program

/-! ### Exchanged payloads -/

theorem link?_eq_bind (s : Program) :
    s.link? = fun v => (s.payload? v).bind fun payload => payload.inst?.map Inst.link :=
  funext fun _ => map_bind

theorem ends?_eq_bind (s : Program) :
    s.ends? = fun v => (s.payload? v).bind fun payload => payload.block?.map Block.ends :=
  funext fun _ => map_bind

theorem seat?_eq_bind (s : Program) :
    s.seat? = fun v => (s.payload? v).bind fun payload => payload.block?.map (·.parent) :=
  funext fun _ => map_bind

theorem shell?_eq_bind (s : Program) :
    s.shell? = fun v => (s.payload? v).bind fun payload => payload.inst?.map (·.kind.shell) :=
  funext fun _ => map_bind

/-- One handle names something else; everything else is what it was. -/
def Exchanged (before after : Program) (value : ValueId) (new : Option Payload) : Prop :=
  after.payload? = update before.payload? value new

namespace Exchanged

section

variable (exch : p.Exchanged q v new)
include exch

theorem bind {β : Type} (reading : Payload → Option β) :
    (fun value => (q.payload? value).bind reading) =
      update (fun value => (p.payload? value).bind reading) v (new.bind reading) := by
  funext value
  rw [show q.payload? = _ from exch, update_apply, update_apply]
  split <;> rfl

theorem link? :
    q.link? = update p.link? v (new.bind fun payload => payload.inst?.map Inst.link) := by
  rw [link?_eq_bind, link?_eq_bind]
  exact exch.bind _

theorem ends? :
    q.ends? = update p.ends? v (new.bind fun payload => payload.block?.map Block.ends) := by
  rw [ends?_eq_bind, ends?_eq_bind]
  exact exch.bind _

theorem seat? :
    q.seat? = update p.seat? v (new.bind fun payload => payload.block?.map (·.parent)) := by
  rw [seat?_eq_bind, seat?_eq_bind]
  exact exch.bind _

theorem shell? :
    q.shell? = update p.shell? v (new.bind fun payload => payload.inst?.map (·.kind.shell)) := by
  rw [shell?_eq_bind, shell?_eq_bind]
  exact exch.bind _

theorem function? : q.function? = update p.function? v (new.bind Payload.function?) :=
  exch.bind Payload.function?

theorem argument? : q.argument? = update p.argument? v (new.bind Payload.argument?) := by
  simpa only [argument?_eq_bind] using exch.bind Payload.argument?

theorem register? : q.register? = update p.register? v (new.bind Payload.register?) := by
  simpa only [register?_eq_bind] using exch.bind Payload.register?

theorem category_of_ne (ne : other ≠ v) :
    (q.payload? other).map (·.category) = (p.payload? other).map (·.category) := by
  rw [show q.payload? = _ from exch, update_of_ne ne]

end

end Exchanged

/-! ### Added nodes -/

/-- A new node with one owner; nothing reads it and it reads nothing. -/
structure Added (before after : Program) (value : ValueId) (type : TypeId) (payload : Payload) :
    Prop where
  fresh : before.values.get? value = none
  others : after = { before with values := after.values }
  nodes : after.values.get? =
    update before.values.get? value (some (Node.fresh type payload))
  counts : after.countOf = update before.countOf value 1
  grows : before.values.Grows after.values
  stored : after.Stored

end Program

/-- What a new node can be: nothing is attached to it yet. -/
def Payload.Blank : Payload → Prop
  | .block data => data = Block.detached
  | .inst data => ∃ kind, data = Inst.fresh kind
  | .function data => data.params = [] ∧ data.body = none ∧ data.registers = none
  | _ => True

namespace Program.Added

section

variable (added : p.Added q v ty content)
include added

theorem exchanged : p.Exchanged q v (some content) := by
  funext value
  rw [payload?, added.nodes, update_apply, update_apply]
  split
  · rfl
  · rfl

theorem operandsOf : q.operandsOf = p.operandsOf := by
  funext value
  rw [Program.operandsOf, Program.operandsOf, added.nodes, update_apply]
  split
  next eq => simp [eq, added.fresh, Node.fresh]
  next => rfl

theorem usesOf : q.usesOf = p.usesOf := by
  funext value
  rw [Program.usesOf, Program.usesOf, added.nodes, update_apply]
  split
  next eq => simp [eq, added.fresh, Node.fresh]
  next => rfl

theorem wire? : q.wire? = p.wire? := by
  rw [added.others]
  rfl

theorem payload?_eq_none : p.payload? v = none := by
  rw [payload?, added.fresh, map_none]

theorem type? : q.type? = update p.type? v (some ty) := by
  funext value
  rw [Program.type?, added.nodes, update_apply, update_apply]
  split
  · rfl
  · rfl

theorem edges : q.edges = p.edges := by
  rw [added.others]

theorem surroundings : q.surroundings = p.surroundings := by
  rw [added.others]
  rfl

end

end Program.Added

theorem Step.addNode_spec (stored : p.Stored) (run : (addNode ty content).run p = .ok (v, q)) :
    p.Added q v ty content := by
  obtain ⟨rfl, rfl⟩ := addNode_run.mp run
  refine
    { fresh := get?_insert_before stored.values _
      others := rfl
      nodes := ?_
      counts := ?_
      grows := grows_insert stored.values _
      stored := ⟨stored.values.insert _, stored.edges, ?_⟩ }
  · funext value
    rw [get?_insert stored.values, update_apply]
  · funext value
    rw [update_apply]
    simp only [countOf, count?_insert stored.values]
    split <;> rfl
  · intro value
    simp only [count?_insert stored.values]
    split
    · simp
    · exact stored.owned value

/-! ### Exchanges that keep a program sound -/

namespace Program

/-- The chains of a program are its threads, whatever they were found to be. -/
theorem Chains.self (chains : p.Chains chain none) : p.Chains p.threads none := by
  rwa [chains.threads_eq]

theorem fits_of_empty {d : Function} (params : d.params = []) (body : d.body = none)
    (regs : d.registers = none) (f : FuncId) : p.Fits f d := by
  constructor <;> simp [params, Function.granted, Function.blocks, body, regs]

namespace Exchanged

section

variable (exch : p.Exchanged q v new)
include exch

theorem argument?_of_ne (ne : other ≠ v) : q.argument? other = p.argument? other := by
  rw [exch.argument?, update_of_ne ne]

theorem register?_of_ne (ne : other ≠ v) : q.register? other = p.register? other := by
  rw [exch.register?, update_of_ne ne]

theorem seat?_of_ne (ne : other ≠ v) : q.seat? other = p.seat? other := by
  rw [exch.seat?, update_of_ne ne]

/-- Functions keep what they list when the exchanged node is on no list. -/
theorem staffed (staffed : p.Staffed)
    (blank : ∀ d, new.bind Payload.function? = some d → q.Fits v d)
    (unlisted : ∀ f d, f ≠ v → p.function? f = some d →
      v ∉ d.params ∧ v ∉ d.granted ∧ v ∉ d.blocks) : q.Staffed := by
  intro f d h
  rw [exch.function?, update_apply] at h
  split at h
  next eq =>
    subst eq
    exact blank d h
  next ne =>
    obtain ⟨notParam, notGranted, notBlock⟩ := unlisted f d ne h
    refine (staffed f d h).mono ?_ ?_ ?_
    · exact fun value mem => exch.argument?_of_ne fun eq => notParam (eq ▸ mem)
    · exact fun register mem => exch.register?_of_ne fun eq => notGranted (eq ▸ mem)
    · exact fun block mem => exch.seat?_of_ne fun eq => notBlock (eq ▸ mem)

/-- Listed symbols stay when the exchanged node is none of them. -/
theorem catalogue (cat : p.Catalogue) (surr : q.surroundings = p.surroundings)
    (names : ∀ value, value ≠ v → q.name? value = p.name? value)
    (unnamed : ∀ name, q.name? v = some name → p.name? v = some name)
    (unlisted : ∀ name, (name, v) ∉ p.symbols) : q.Catalogue := by
  refine cat.mono surr (fun entry mem => ?_) fun value name named => ?_
  · have ne : entry.2 ≠ v := fun eq => unlisted entry.1 (eq ▸ mem)
    refine ⟨?_, ?_, names _ ne⟩
    · simp only [isFunction, exch.category_of_ne ne]
    · simp only [isGlobal, exch.category_of_ne ne]
  · by_cases eq : value = v
    · subst eq
      exact unnamed name named
    · rwa [← names value eq]

/-- Chains stay when nothing that is exchanged stands in one or holds one. -/
theorem chains {loose : Option BlockId} (chains : p.Chains chain loose)
    (oldLink : ∀ l, p.link? v = some l → l.status ≠ .connected)
    (newLink : ∀ l, (new.bind fun payload => payload.inst?.map Inst.link) = some l → l.Unchained)
    (oldChain : chain v = [])
    (newEnds : ∀ ends, (new.bind fun payload => payload.block?.map Block.ends) = some ends →
      ends = ⟨none, none, 0⟩) : q.Chains chain loose := by
  constructor
  case ends =>
    intro b ends h
    rw [exch.ends?, update_apply] at h
    split at h
    next eq =>
      rw [newEnds ends h, eq, oldChain]
      rfl
    next => exact chains.ends b ends h
  case outside =>
    intro b h
    rw [exch.ends?, update_apply] at h
    split at h
    next eq => rw [eq, oldChain]
    next => exact chains.outside b h
  case nodup => exact chains.nodup
  case linked =>
    intro b front i rest split
    have h := chains.linked b front i rest split
    have ne : i ≠ v := by
      rintro rfl
      exact oldLink _ h rfl
    rw [exch.link?, update_of_ne ne]
    exact h
  case attached =>
    intro i l h conn
    rw [exch.link?, update_apply] at h
    split at h
    next => exact absurd conn (newLink l h).status
    next => exact chains.attached i l h conn
  case unchained =>
    intro i l h st
    rw [exch.link?, update_apply] at h
    split at h
    next => exact newLink l h
    next => exact chains.unchained i l h st

end

end Exchanged

end Program

theorem Inst.unchained_fresh (kind : InstKind) : (Inst.fresh kind).link.Unchained :=
  ⟨rfl, rfl, Or.inl ⟨Or.inl rfl, rfl⟩⟩

namespace Program

theorem Placid.of_exchanged (placid : p.Placid) (exch : p.Exchanged q v new)
    (ops : ∀ u, q.operandsOf u ≠ [] → u ≠ v ∧ p.operandsOf u ≠ []) : q.Placid := by
  intro u reads
  obtain ⟨ne, readBefore⟩ := ops u reads
  simp only [isInst, isGlobal, exch.category_of_ne ne]
  exact placid u readBefore

/-- A new node stands in no chain and holds none. -/
theorem Added.chains (added : p.Added q v ty content) (chains : p.Chains chain none)
    (blank : content.Blank) :
    q.Chains chain none := by
  have absent := added.payload?_eq_none
  have noLink : p.link? v = none := by
    rw [link?_eq_bind]
    simp [absent]
  have noEnds : p.ends? v = none := by
    rw [ends?_eq_bind]
    simp [absent]
  refine added.exchanged.chains chains (by simp [noLink]) ?_ (chains.outside v noEnds) ?_
  · intro l h
    cases content with
    | inst d =>
      obtain ⟨kind, rfl⟩ := blank
      obtain rfl : (Inst.fresh kind).link = l := by simpa [Payload.inst?] using h
      exact Inst.unchained_fresh kind
    | _ => simp [Payload.inst?] at h
  · intro ends h
    cases content with
    | block d =>
      obtain rfl : d = Block.detached := blank
      simpa [Payload.block?, Block.detached, Block.ends, eq_comm] using h
    | _ => simp [Payload.block?] at h

/-- Adding a node with nothing attached keeps a program sound. -/
theorem Sound.of_added (hs : p.Sound) (added : p.Added q v ty content) (blank : content.Blank)
    (reg : p.types.Registered ty)
    (suits : (content.category = .register → p.types.isStorable ty = .ok true) ∧
      (content.category = .block → ty = .label)) : q.Sound := by
  have exch := added.exchanged
  have absent := added.payload?_eq_none
  have apart : ∀ {β : Type} {reading : Payload → Option β} {value : ValueId} {seen : β},
      (p.payload? value).bind reading = some seen → value ≠ v := by
    rintro β reading value seen h rfl
    simp [absent] at h
  have sameOperands := added.operandsOf
  constructor
  case stored => exact added.stored
  case wired =>
    refine hs.wired.mono (fun u => by rw [sameOperands]) added.usesOf added.wire?
      (hs.wired.placid.of_exchanged exch fun u reads => ?_)
    rw [sameOperands] at reads
    refine ⟨?_, reads⟩
    rintro rfl
    exact reads (by simp [operandsOf, added.fresh])
  case laid =>
    intro u kind h
    have eq : q.slotsOf u = p.slotsOf u := by
      have slots : q.slotOf = p.slotOf := by
        funext edge
        simp only [slotOf, added.wire?]
      simp only [slotsOf, sameOperands, slots]
    rw [eq]
    rw [exch.shell?, update_apply] at h
    split at h
    next isNew =>
      rw [slotsOf, isNew, operandsOf, added.fresh]
      exact kind.admits_nil
    next => exact hs.laid u kind h
  case chains => exact (added.chains hs.chains blank).self
  case staffed =>
    refine exch.staffed hs.staffed ?_ ?_
    · intro d h
      cases content with
      | function data =>
        obtain rfl : data = d := by simpa [Payload.function?] using h
        exact fits_of_empty blank.1 blank.2.1 blank.2.2 v
      | _ => simp [Payload.function?] at h
    · intro f d ne h
      have fits := hs.staffed f d h
      refine ⟨fun mem => ?_, fun mem => ?_, fun mem => ?_⟩
      · obtain ⟨arg, hArg, -⟩ := fits.params v mem
        rw [argument?_eq_bind] at hArg
        exact apart hArg rfl
      · obtain ⟨r, hReg, -⟩ := fits.granted v mem
        rw [register?_eq_bind] at hReg
        exact apart hReg rfl
      · have seated := fits.blocks v mem
        rw [seat?_eq_bind] at seated
        exact apart seated rfl
  case catalogue =>
    refine exch.catalogue hs.catalogue added.surroundings ?_ ?_ fun name mem => ?_
    · intro value ne
      rw [Program.name?, Program.name?, added.nodes, update_of_ne ne]
    · simp [name?, added.nodes, Node.fresh]
    · have isSymbol := (hs.catalogue.entered _ mem).1
      simp [isFunction, isGlobal, absent] at isSymbol
  case registry =>
    have sameTable := types_eq_of_surroundings added.surroundings
    refine ⟨by rw [sameTable]; exact hs.registry.grown, fun value type h => ?_,
      fun value type isRegister h => ?_, fun value type hb h => ?_⟩ <;>
      try rw [sameTable]
    all_goals
      rw [added.type?, update_apply] at h
      split at h
    · obtain rfl := some.inj h
      exact reg
    · exact hs.registry.nodes value type h
    next eq =>
      obtain rfl := some.inj h
      refine suits.1 ?_
      rw [eq, Program.isRegister, show q.payload? = _ from exch] at isRegister
      simpa using isRegister
    next ne =>
      rw [Program.isRegister, exch.category_of_ne ne] at isRegister
      exact hs.registry.registers value type isRegister h
    next eq =>
      obtain rfl := some.inj h
      refine suits.2 ?_
      rw [eq, Program.isBlock, show q.payload? = _ from exch] at hb
      simpa using hb
    next ne =>
      rw [Program.isBlock, exch.category_of_ne ne] at hb
      exact hs.registry.labels value type hb h

end Program

namespace Program

/-! ### Nodes that are given up -/

/-- What must be left of a node before its last owner gives it up: a finalized
instruction, an empty block outside any function, a symbol without parts that is
not listed, or a member of no function. -/
def Bare (program : Program) (value : ValueId) : Prop :=
  ∀ payload, program.payload? value = some payload →
    match payload with
    | .constant _ => True
    | .inst data => data.status = .finalized
    | .block data => program.threads value = [] ∧ data.parent = none
    | .function data =>
      data.params = [] ∧ data.body = none ∧ data.registers = none ∧
        value ∉ program.functions ∧ ∀ name, (name, value) ∉ program.symbols
    | .global _ =>
      program.operandsOf value = [] ∧ value ∉ program.globals ∧
        ∀ name, (name, value) ∉ program.symbols
    | .argument _ => ∀ function data, program.function? function = some data →
        value ∉ data.params
    | .register _ => ∀ function data, program.function? function = some data →
        value ∉ data.granted

theorem bare_of_finalized (s : Program) (h : s.link? i = some l) (fin : l.status = .finalized) :
    s.Bare i := by
  intro payload hPayload
  obtain ⟨d, hInst, rfl⟩ := map_eq_some_iff.mp h
  rw [inst?_eq_some_iff, hPayload, some.injEq] at hInst
  subst hInst
  exact fin

namespace Bare

theorem status_ne_connected (bare : p.Bare v) (h : p.link? v = some l) : l.status ≠ .connected := by
  obtain ⟨d, hInst, rfl⟩ := map_eq_some_iff.mp h
  have fin : d.status = .finalized := bare _ (inst?_eq_some_iff.mp hInst)
  simp [Inst.link, fin]

/-- What is bare holds no instructions. -/
theorem threads_eq_nil (bare : p.Bare v) (chains : p.Chains p.threads none) : p.threads v = [] := by
  cases h : p.block? v with
  | none => exact chains.outside v (by rw [ends?, h, map_none])
  | some d => exact (bare _ (block?_eq_some_iff.mp h)).1

end Bare

/-- Programs with the same nodes and edges are sound together. -/
theorem Sound.of_same (hs : p.Sound) (stored : q.Stored) (nodes : q.values.get? = p.values.get?)
    (edges : q.edges = p.edges) (surr : q.surroundings = p.surroundings) : q.Sound := by
  have pls : q.payload? = p.payload? := by
    funext value
    rw [payload?, payload?, nodes]
  have ops : q.operandsOf = p.operandsOf := by
    funext value
    rw [operandsOf, operandsOf, nodes]
  have uses : q.usesOf = p.usesOf := by
    funext value
    rw [usesOf, usesOf, nodes]
  have wires : q.wire? = p.wire? := by
    funext edge
    simp only [wire?, edges]
  constructor
  case stored => exact stored
  case wired =>
    refine hs.wired.of_same ops uses wires ?_ ?_ <;> funext value <;>
      simp only [isInst, isGlobal, pls]
  case laid =>
    exact hs.laid.of_same (by simp only [shell?_eq_bind, pls]) ops wires
  case chains =>
    refine (hs.chains.of_same ?_ ?_).self
    · simp only [link?_eq_bind, pls]
    · simp only [ends?_eq_bind, pls]
  case staffed =>
    refine hs.staffed.of_same ?_ ?_ ?_ ?_
    · funext value
      simp only [function?, pls]
    · simp only [argument?_eq_bind, pls]
    · simp only [register?_eq_bind, pls]
    · simp only [seat?_eq_bind, pls]
  case catalogue =>
    refine hs.catalogue.mono surr (fun entry _ => ?_) fun v name named => ?_
    · simp only [isFunction, isGlobal, pls, name?, nodes, and_self]
    · rwa [name?, ← nodes]
  case registry =>
    refine hs.registry.of_surroundings surr (fun v ty h => ?_) (fun v => ?_) fun v => ?_
    · rwa [type?, ← nodes]
    · simp only [isRegister, pls, imp_self]
    · simp only [isBlock, pls, imp_self]

namespace Dropped

section

variable (drop : p.Dropped q v)
include drop

/-- Either another owner remains, or the node is gone. -/
theorem exchanged_or :
    (1 < p.countOf v ∧ q.payload? = p.payload? ∧ q.operandsOf = p.operandsOf) ∨
      (p.countOf v = 1 ∧ p.isLive v = true ∧ p.Exchanged q v none ∧
          q.operandsOf = update p.operandsOf v []) := by
  rcases drop.outcome with ⟨more, nodes⟩ | ⟨last, live, -, nodes⟩
  · refine Or.inl ⟨more, ?_, ?_⟩
    · funext value
      simp only [payload?, nodes]
    · funext value
      simp only [operandsOf, nodes]
  · refine Or.inr ⟨last, live, ?_, ?_⟩
    · funext value
      rw [payload?, nodes, update_apply, update_apply]
      split <;> rfl
    · funext value
      rw [Program.operandsOf, nodes, update_apply, update_apply]
      split <;> rfl

theorem nodes_of_shared (shared : 1 < p.countOf v) : q.values.get? = p.values.get? := by
  rcases drop.outcome with ⟨-, nodes⟩ | ⟨last, -⟩
  · exact nodes
  · omega

/-- What is there afterwards was there before. -/
theorem node_before {n : Node} (h : q.values.get? other = some n) :
    p.values.get? other = some n := by
  rcases drop.outcome with ⟨-, nodes⟩ | ⟨-, -, -, nodes⟩
  · rwa [← nodes]
  · rw [nodes, update_apply] at h
    split at h
    · simp at h
    · exact h

theorem type?_before (value : ValueId) (ty : TypeId) (h : q.type? value = some ty) :
    p.type? value = some ty := by
  obtain ⟨n, found, rfl⟩ := map_eq_some_iff.mp h
  rw [type?, drop.node_before found, map_some]

theorem name?_before {name : Name} (h : q.name? other = some name) : p.name? other = some name := by
  obtain ⟨n, found, isName⟩ := bind_eq_some_iff.mp h
  rw [name?, drop.node_before found, bind_some, isName]

theorem name?_of_ne (ne : other ≠ v) : q.name? other = p.name? other := by
  rcases drop.outcome with ⟨-, nodes⟩ | ⟨-, -, -, nodes⟩
  · rw [name?, name?, nodes]
  · rw [name?, name?, nodes, update_of_ne ne]

theorem inst?_before {d : Inst} (h : q.inst? i = some d) : p.inst? i = some d := by
  rw [inst?_eq_some_iff, payload?_eq_some_iff] at h ⊢
  obtain ⟨n, found, hi⟩ := h
  exact ⟨n, drop.node_before found, hi⟩

theorem live : p.isLive v = true := by
  rcases drop.outcome with ⟨more, -⟩ | ⟨-, live, -⟩
  · rw [isLive, contains, isSome_iff_ne_none]
    intro absent
    simp [countOf, count?, absent] at more
  · exact live

theorem surroundings : q.surroundings = p.surroundings := by
  rw [drop.others]
  rfl

theorem wire? : q.wire? = p.wire? := by
  funext edge
  simp only [Program.wire?, drop.edges]

end

end Dropped

/-- Giving up a node keeps a program sound when nothing is attached to the node. -/
theorem Sound.of_dropped (hs : p.Sound) (drop : p.Dropped q v) (bare : p.countOf v = 1 → p.Bare v) :
    q.Sound := by
  rcases drop.exchanged_or with ⟨shared, -, -⟩ | ⟨last, live, exch, ops⟩
  · exact hs.of_same drop.stored (drop.nodes_of_shared shared) drop.edges drop.surroundings
  obtain ⟨payload, h⟩ : ∃ payload, p.payload? v = some payload := by
    rwa [isLive_iff, isSome_iff_exists] at live
  have bareHere := bare last payload h
  have fewer : ∀ u, (q.operandsOf u).Sublist (p.operandsOf u) := by
    intro u
    rw [ops, update_apply]
    split
    · exact List.nil_sublist _
    · exact List.Sublist.refl _
  constructor
  case stored => exact drop.stored
  case wired =>
    refine hs.wired.mono fewer drop.usesOf drop.wire?
      (hs.wired.placid.of_exchanged exch fun u reads => ?_)
    rw [ops, update_apply] at reads
    split at reads
    · simp at reads
    next ne => exact ⟨ne, reads⟩
  case laid =>
    intro u kind hKind
    rw [exch.shell?, update_apply] at hKind
    split at hKind
    · simp at hKind
    next ne =>
      have slots : q.slotOf = p.slotOf := by
        funext edge
        simp only [slotOf, drop.wire?]
      rw [slotsOf, ops, update_of_ne ne, slots]
      exact hs.laid u kind hKind
  case chains =>
    exact (exch.chains hs.chains (fun _ => (bare last).status_ne_connected) (by simp)
      ((bare last).threads_eq_nil hs.chains) (by simp)).self
  case staffed =>
    refine exch.staffed hs.staffed (by simp) fun f d ne hFn => ?_
    have fits := hs.staffed f d hFn
    refine ⟨fun mem => ?_, fun mem => ?_, fun mem => ?_⟩
    · obtain ⟨arg, hArg, -⟩ := fits.params v mem
      rw [argument?_eq_some_iff, h, some.injEq] at hArg
      subst hArg
      exact bareHere f d hFn mem
    · obtain ⟨r, hReg, -⟩ := fits.granted v mem
      rw [register?_eq_some_iff, h, some.injEq] at hReg
      subst hReg
      exact bareHere f d hFn mem
    · have seated := fits.blocks v mem
      simp only [seat?_eq_bind, h, bind_some] at seated
      cases payload with
      | block data =>
        simp [Payload.block?, bareHere.2] at seated
      | _ => simp [Payload.block?] at seated
  case catalogue =>
    refine exch.catalogue hs.catalogue drop.surroundings
      (fun _ => drop.name?_of_ne) (fun _ => drop.name?_before) fun name mem => ?_
    have isSymbol := (hs.catalogue.entered _ mem).1
    rw [Program.isFunction, Program.isGlobal, h] at isSymbol
    cases payload with
    | function d => exact bareHere.2.2.2.2 name mem
    | global d => exact bareHere.2.2 name mem
    | _ => simp [Payload.category] at isSymbol
  case registry =>
    have sorts : ∀ value category, (q.payload? value).map (·.category) = some category →
        (p.payload? value).map (·.category) = some category := by
      intro value category isSort
      have ne : value ≠ v := by
        rintro rfl
        simp [show q.payload? = _ from exch] at isSort
      rwa [exch.category_of_ne ne] at isSort
    exact hs.registry.of_surroundings drop.surroundings drop.type?_before
      (fun value => by simpa [Program.isRegister] using sorts value _)
      fun value => by simpa [Program.isBlock] using sorts value _

end Program

end ValueGraph
