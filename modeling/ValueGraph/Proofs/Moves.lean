import Mathlib
import ValueGraph.Proofs.Conformance

open Function

namespace ValueGraph

open Program List Option Arena Or

/-!
# Moves

Every edit is a sequence of moves of a few kinds: a node comes or goes, an edge is
added, rebound or removed, instructions are threaded otherwise, a block changes
its seat, a function its lists.  Each move keeps a program sound.
-/

variable {v u : ValueId} {chain : BlockId → List InstId} {i write : InstId} {old new : Function}
  {b : BlockId} {seat : Option FuncId} {f : FuncId} {d : Edge} {p q r : Program} {e : EdgeId}
  {ty : TypeId} {kind : InstKind} {rule : Rule} {pr : Promise} {l : Link}

namespace Program

/-! ### Labels -/

/-- Types, names and lists of symbols change and nothing else does. -/
structure Relabels (before after : Program) : Prop extends SameWiring before after where
  insts : after.inst? = before.inst?
  blocks : after.block? = before.block?
  functions : after.function? = before.function?
  globals : after.isGlobal = before.isGlobal
  types : after.type? = before.type?
  table : before.types.Extends after.types

namespace Relabels

theorem trans (earlier : p.Relabels q) (later : q.Relabels r) : p.Relabels r where
  toSameWiring := earlier.toSameWiring.trans later.toSameWiring
  insts := later.insts.trans earlier.insts
  blocks := later.blocks.trans earlier.blocks
  functions := later.functions.trans earlier.functions
  globals := later.globals.trans earlier.globals
  types := later.types.trans earlier.types
  table := earlier.table.trans later.table

theorem of_payloads (pls : q.payload? = p.payload?) (edges : q.edges = p.edges)
    (ops : q.operandsOf = p.operandsOf) (uses : q.usesOf = p.usesOf)
    (counts : q.values.count? = p.values.count?)
    (generations : q.values.generation? = p.values.generation?) (stored : p.Stored → q.Stored)
    (types : q.type? = p.type?) (t : p.types.Extends q.types) : p.Relabels q where
  edges := edges
  operands := ops
  uses := uses
  counts := counts
  generations := generations
  stored := stored
  insts := funext fun _ => by simp only [inst?, pls]
  blocks := funext fun _ => by simp only [block?, pls]
  functions := funext fun _ => by simp only [function?, pls]
  globals := funext fun _ => by simp only [isGlobal, pls]
  arguments := by simp only [argument?_eq_bind, pls]
  registers := by simp only [register?_eq_bind, pls]
  contents := by simp only [constantOf?_eq_bind, pls]
  types := types
  table := t

/-- Nodes and edges are the same. -/
theorem of_same (values : q.values = p.values) (edges : q.edges = p.edges)
    (t : p.types.Extends q.types) : p.Relabels q := by
  refine of_payloads ?_ edges ?_ ?_ (by rw [values]) (by rw [values]) (fun stored =>
    ⟨values ▸ stored.values, edges ▸ stored.edges, values ▸ stored.owned⟩) ?_ t
  all_goals
    funext other
    simp only [payload?, operandsOf, usesOf, type?, values]

section

variable (eq : p.Relabels q)
include eq

theorem link? : q.link? = p.link? := by
  funext other
  simp only [Program.link?, eq.insts]

theorem shell? : q.shell? = p.shell? := by
  funext other
  simp only [Program.shell?, eq.insts]

theorem ends? : q.ends? = p.ends? := by
  funext other
  simp only [Program.ends?, eq.blocks]

theorem seat? : q.seat? = p.seat? := by
  funext other
  simp only [Program.seat?, eq.blocks]

theorem isInst : q.isInst = p.isInst := by
  rw [isInst_eq, isInst_eq, eq.link?]

theorem isBlock : q.isBlock = p.isBlock := by
  rw [isBlock_eq_ends?, isBlock_eq_ends?, eq.ends?]

end

end Relabels

theorem Sound.of_relabels (hs : p.Sound) (lab : p.Relabels q) (cat : q.Catalogue) : q.Sound where
  stored := lab.stored hs.stored
  wired := hs.wired.of_same lab.operands lab.uses lab.wire? lab.isInst lab.globals
  laid := hs.laid.of_same lab.shell? lab.operands lab.wire?
  chains := (hs.chains.of_same lab.link? lab.ends?).self
  staffed := hs.staffed.of_same lab.functions lab.arguments lab.registers lab.seat?
  catalogue := cat
  registry := hs.registry.mono lab.table (fun v ty h => by rwa [← lab.types])
    (fun v => by simp only [isRegister_eq, lab.registers, imp_self])
    fun v => by simp only [isBlock_eq_ends?, lab.ends?, imp_self]

/-! ### Edges -/

theorem Rewires.type?_before (rew : p.Rewires q) (h : q.type? v = some ty) :
    p.type? v = some ty := by
  rw [← rew.types v ?_, h]
  obtain ⟨n, found, -⟩ := map_eq_some_iff.mp h
  exact contains_iff_get?.mpr ⟨n, found⟩

theorem Rewires.name?_before {name : Name} (rew : p.Rewires q) (h : q.name? v = some name) :
    p.name? v = some name := by
  rw [← rew.names v ?_, h]
  obtain ⟨n, found, -⟩ := bind_eq_some_iff.mp h
  exact contains_iff_get?.mpr ⟨n, found⟩

/-- A change below the skeleton keeps chains, functions and symbols. -/
theorem Sound.of_rewires (hs : p.Sound) (rew : p.Rewires q) (wired : q.Wired) (laid : q.Laid) :
    q.Sound where
  stored := rew.stored hs.stored
  wired := wired
  laid := laid
  chains := (hs.chains.of_same rew.skeleton.link? rew.skeleton.ends?).self
  staffed := hs.staffed.of_same rew.skeleton.function? rew.skeleton.argument?
    rew.skeleton.register? rew.skeleton.seat?
  catalogue := by
    refine hs.catalogue.mono rew.surroundings (fun entry mem => ?_) fun _ _ => rew.name?_before
    have isFn := congrFun rew.skeleton.isFunction entry.2
    have hg := congrFun rew.skeleton.isGlobal entry.2
    refine ⟨isFn, hg, rew.names entry.2 ?_⟩
    have isSymbol := (hs.catalogue.entered entry mem).1
    rw [← isFn, ← hg] at isSymbol
    exact isLive_of_isSymbol isSymbol
  registry := hs.registry.of_surroundings rew.surroundings (fun _ _ => rew.type?_before)
    (fun v => by rw [rew.skeleton.isRegister]; exact id)
    fun v => by rw [rew.skeleton.isBlock]; exact id

/-! ### Chains, seats and bodies -/

theorem Rearranges.wired (rea : p.Rearranges q) (wired : p.Wired) : q.Wired := by
  refine wired.of_same rea.operands rea.uses rea.wire? rea.insts ?_
  rw [isGlobal_eq, isGlobal_eq, rea.globals]

theorem Sound.of_rearranges (hs : p.Sound) (rea : p.Rearranges q) (chains : q.Chains chain none) :
    q.Sound where
  stored := rea.stored hs.stored
  wired := rea.wired hs.wired
  laid := hs.laid.of_same rea.shells rea.operands rea.wire?
  chains := chains.self
  staffed := hs.staffed.of_same rea.bodies rea.arguments rea.registers rea.seats
  catalogue := hs.catalogue.mono rea.surroundings (fun _ _ =>
    ⟨by rw [isFunction_eq, isFunction_eq, rea.bodies],
      by rw [isGlobal_eq, isGlobal_eq, rea.globals],
      congrFun rea.names _⟩) fun v name named => by rwa [← rea.names]
  registry := hs.registry.of_surroundings rea.surroundings (fun v ty h => by rwa [← rea.types])
    (fun v => by simp only [isRegister_eq, rea.registers, imp_self])
    fun v => by rw [rea.blocks]; exact id

/-- One instruction outside the chains is attached otherwise. -/
structure Relinked (before after : Program) (inst : InstId) (old new : Link) : Prop where
  restrings : before.Restrings after
  held : before.link? inst = some old
  links : after.link? = update before.link? inst (some new)
  ends : after.ends? = before.ends?

theorem Relinked.chains {old new : Link} {loose : Option BlockId}
    (relink : p.Relinked q i old new) (chains : p.Chains chain loose)
    (wasOutside : old.status ≠ .connected) (out : new.Unchained) : q.Chains chain loose := by
  refine chains.relink relink.ends fun inst => ?_
  rw [relink.links, update_apply]
  split
  next eq =>
    subst eq
    refine inr ⟨fun l h => ?_, fun l h => ?_⟩
    · obtain rfl := mem_unique relink.held h
      exact wasOutside
    · obtain rfl := some.inj h
      exact out
  next => exact inl rfl

/-- Seats of blocks and lists of functions change and nothing else does. -/
structure Resettles (before after : Program) : Prop extends Reshapes before after where
  links : after.link? = before.link?
  ends : after.ends? = before.ends?

theorem Resettles.trans {first second : Program} (earlier : first.Resettles second)
    (later : second.Resettles r) : first.Resettles r where
  toReshapes := earlier.toReshapes.trans later.toReshapes
  links := later.links.trans earlier.links
  ends := later.ends.trans earlier.ends

theorem Resettles.threads_eq (settle : p.Resettles q) (hs : p.Sound) : q.threads = p.threads :=
  (hs.chains.of_same settle.links settle.ends).threads_eq

/-- A block is put into a function or taken out of one. -/
structure Reseated (before after : Program) (block : BlockId) (seat : Option FuncId) : Prop
    extends Resettles before after where
  isBlock : before.isBlock block = true
  seats : after.seat? = update before.seat? block (some seat)
  bodies : after.function? = before.function?

/-- A function gets other lists. -/
structure Refitted (before after : Program) (function : FuncId) (old new : Function) : Prop
    extends Resettles before after where
  held : before.function? function = some old
  seats : after.seat? = before.seat?
  bodies : after.function? = update before.function? function (some new)

theorem Sound.of_resettles (hs : p.Sound) (settle : p.Resettles q) (staffed : q.Staffed) :
    q.Sound where
  stored := settle.stored hs.stored
  wired := hs.wired.of_same settle.operands settle.uses
    settle.wire? settle.insts
    (by rw [isGlobal_eq, isGlobal_eq, settle.globals])
  laid := hs.laid.of_same settle.shells settle.operands settle.wire?
  chains := (hs.chains.of_same settle.links settle.ends).self
  staffed := staffed
  catalogue := hs.catalogue.mono settle.surroundings (fun _ _ =>
    ⟨congrFun settle.functions _, by rw [isGlobal_eq, isGlobal_eq, settle.globals],
      congrFun settle.names _⟩) fun v name named => by rwa [← settle.names]
  registry := hs.registry.of_surroundings settle.surroundings
    (fun v ty h => by rwa [← settle.types])
    (fun v => by simp only [isRegister_eq, settle.registers, imp_self])
    fun v => by simp only [isBlock_eq_ends?, settle.ends, imp_self]

/-- A block that no function lists can change its seat. -/
theorem Staffed.of_reseated (staffed : p.Staffed) (reseat : p.Reseated q b seat)
    (unlisted : ∀ f d, p.function? f = some d → b ∉ d.blocks) : q.Staffed := by
  intro f d h
  rw [reseat.bodies] at h
  refine (staffed f d h).mono ?_ ?_ ?_
  · exact fun v _ => congrFun reseat.arguments v
  · exact fun v _ => congrFun reseat.registers v
  · intro block mem
    have ne : block ≠ b := fun eq => unlisted f d h (eq ▸ mem)
    rw [reseat.seats, update_of_ne ne]

theorem Staffed.of_refitted (staffed : p.Staffed) (refit : p.Refitted q f old new)
    (fits : p.Fits f new) : q.Staffed := by
  intro value d h
  have eq : ∀ {who what}, p.Fits who what → q.Fits who what := fun fits =>
    fits.mono (fun v _ => congrFun refit.arguments v) (fun v _ => congrFun refit.registers v)
      (fun v _ => congrFun refit.seats v)
  rw [refit.bodies, update_apply] at h
  split at h
  next isFn =>
    obtain rfl := some.inj h
    subst isFn
    exact eq fits
  next => exact eq (staffed value d h)

end Program

/-! ### Rules for operands -/

/-- What can be asked of an operand beyond its type. -/
inductive Rule where
  /-- A register write writes to a register. -/
  | register
  /-- A store writes through a pointer to something that is not const. -/
  | writable
  /-- A global is initialized with a constant. -/
  | constant
deriving DecidableEq

/-- What instructions of a kind ask of the operand at a slot. -/
def InstKind.rule? : InstKind → Slot → Option Rule
  | .regWrite, .fixed 0 => some .register
  | .store _, .fixed 1 => some .writable
  | _, _ => none

@[simp]
theorem InstKind.rule?_outline (kind : InstKind) (slot : Slot) :
    kind.rule? slot.outline = kind.rule? slot := by
  cases kind <;> cases slot <;> rfl

@[simp]
theorem InstKind.rule?_shell (kind : InstKind) (slot : Slot) :
    kind.shell.rule? slot = kind.rule? slot := by
  cases kind <;> rfl

theorem InstKind.rule?_of_isTerminator (isTerminator : kind.isTerminator = true) (slot : Slot) :
    kind.rule? slot = none := by
  cases kind <;> simp_all [InstKind.isTerminator, InstKind.rule?]

namespace Program

/-- What a node asks of its operand at a slot. -/
def rule? (program : Program) (user : ValueId) (slot : Slot) : Option Rule :=
  if program.isGlobal user then some .constant else (program.shell? user).bind (·.rule? slot)

/-- Whether a value is a pointer to something that is not const. -/
def Writable (program : Program) (value : ValueId) : Prop :=
  ∃ type pointee, program.type? value = some type ∧
    program.types.pointee? type = .ok (some pointee) ∧ program.types.isConst pointee = .ok false

/-- Whether a value is what a rule asks for. -/
def Meets (program : Program) (value : ValueId) : Rule → Prop
  | .register => program.isRegister value = true
  | .writable => program.Writable value
  | .constant => program.isConstant value = true

namespace Meets

/-- What is asked for is asked of nodes that are there. -/
theorem isLive (meets : p.Meets v rule) : p.isLive v = true := by
  rw [Program.isLive, contains_iff_get?]
  cases rule with
  | register | constant =>
    cases h : p.values.get? v with
    | none => simp [Meets, isRegister, isConstant, payload?, h] at meets
    | some n => exact ⟨n, rfl⟩
  | writable =>
    obtain ⟨ty, -, h, -⟩ := meets
    obtain ⟨n, found, -⟩ := map_eq_some_iff.mp h
    exact ⟨n, found⟩

/-- Nodes go on to be what is asked for as long as they keep what they are and their
types. -/
theorem mono (meets : p.Meets v rule) (regs : q.isRegister v = p.isRegister v)
    (constants : q.isConstant v = p.isConstant v) (types : q.type? v = p.type? v)
    (grows : p.types.Extends q.types) : q.Meets v rule := by
  cases rule with
  | register => exact regs.trans meets
  | constant => exact constants.trans meets
  | writable =>
    obtain ⟨ty, pointee, h, points, isConst⟩ := meets
    exact ⟨ty, pointee, types.trans h, grows.pointee? points, grows.isConst isConst⟩

theorem of_added {new : ValueId} {payload : Payload} (meets : p.Meets v rule)
    (added : p.Added q new ty payload) : q.Meets v rule := by
  have ne : v ≠ new := by
    rintro rfl
    obtain ⟨n, h⟩ := contains_iff_get?.mp meets.isLive
    simp [added.fresh] at h
  have category := added.exchanged.category_of_ne ne
  refine meets.mono ?_ ?_ ?_ ?_
  · rw [isRegister, isRegister, category]
  · rw [isConstant, isConstant, category]
  · rw [added.type?, update_of_ne ne]
  · rw [types_eq_of_surroundings added.surroundings]
    exact .refl _

end Meets

theorem Rewires.meets_iff (rew : p.Rewires q) (live : q.isLive v = true) :
    q.Meets v rule ↔ p.Meets v rule := by
  have regs := congrFun rew.skeleton.isRegister v
  have constants : q.isConstant v = p.isConstant v := by
    simp only [isConstant_eq_constantOf?, rew.contents v live]
  have types := rew.types v live
  have t := types_eq_of_surroundings rew.surroundings
  constructor
  · intro meets
    exact meets.mono regs.symm constants.symm types.symm (t ▸ .refl _)
  · intro meets
    exact meets.mono regs constants types (t ▸ .refl _)

theorem shell?_of_isGlobal {g : GlobalId} (hg : p.isGlobal g = true) :
    p.shell? g = none ∧ p.link? g = none ∧ p.kind? g = none := by
  rw [isGlobal_eq, isSome_iff_exists] at hg
  obtain ⟨d, h⟩ := hg
  have hPayload := global?_eq_some_iff.mp h
  simp [shell?, link?, kind?, inst?, hPayload, Payload.inst?]

/-- An instruction asks what its kind does. -/
theorem rule?_of_shell? (h : p.shell? u = some kind) (slot : Slot) :
    p.rule? u slot = kind.rule? slot := by
  have notGlobal : p.isGlobal u ≠ true := fun hg => by
    simp [(shell?_of_isGlobal hg).1] at h
  rw [rule?, if_neg notGlobal, h, bind_some]

/-! ### Slots of registers -/

/-- The slots of the registers of a function and its free slots are all slots before the
next one, each once. -/
def Allots (program : Program) (data : Function) : Prop :=
  ∀ file, data.registers = some file →
    (file.live.filterMap (fun register => (program.register? register).map (·.slot)) ++
      file.free).Perm (List.range file.next)

theorem Allots.of_registers_eq (allots : p.Allots old) (eq : new.registers = old.registers) :
    p.Allots new :=
  fun file h => allots file (eq ▸ h)

theorem allots_of_none {d : Function} (none : d.registers = none) : p.Allots d :=
  fun _ h => absurd h (by simp [none])

/-- The slots of every function are handed out properly. -/
def Allotted (program : Program) : Prop :=
  ∀ function data, program.function? function = some data → program.Allots data

/-- Slots are handed out as before when the registers of a function are what they were. -/
theorem Allots.mono {d : Function} (allots : p.Allots d)
    (regs : ∀ r ∈ d.granted, q.register? r = p.register? r) : q.Allots d := by
  intro file h
  have eq : file.live.filterMap (fun r => (q.register? r).map (·.slot)) =
      file.live.filterMap (fun r => (p.register? r).map (·.slot)) := by
    refine filterMap_congr fun r mem => ?_
    rw [regs r (by simpa [Function.granted, h] using mem)]
  rw [eq]
  exact allots file h

theorem Allotted.of_reseated (allotted : p.Allotted) (reseat : p.Reseated q b seat) :
    q.Allotted := by
  intro f d h
  rw [reseat.bodies] at h
  exact (allotted f d h).mono fun r _ => congrFun reseat.registers r

theorem Allotted.of_refitted (allotted : p.Allotted) (refit : p.Refitted q f old new)
    (allots : p.Allots old → p.Allots new) : q.Allotted := by
  intro value d h
  have eq : ∀ {lists : Function}, p.Allots lists → q.Allots lists :=
    fun allots => allots.mono fun r _ => congrFun refit.registers r
  rw [refit.bodies, update_apply] at h
  split at h
  next =>
    obtain rfl := some.inj h
    exact eq (allots (allotted f old refit.held))
  next => exact eq (allotted value d h)

end Program

/-! ### Kinds of moves -/

/-- What a client promises beyond what edits check. -/
structure Promise where
  /-- Nothing is added to the operands of a finalized instruction. -/
  sparesFinalized : Prop
  /-- A register write goes on to read what is nested under it. -/
  keepsNested : Prop
  /-- An operand that is as a rule asks is replaced by another that is. -/
  keepsRule : Rule → Prop
  /-- Only registers that their functions list are given back. -/
  returnsOwned : Prop
  /-- Only symbols that the program lists are given other names. -/
  renamesListed : Prop
  /-- A node was not there when the operation began. -/
  isNew : ValueId → Prop
  /-- A function is torn down. -/
  razes : FuncId → Prop
  /-- Instructions returned what their functions do when the operation began. -/
  agrees : Prop
deriving Inhabited

/-- A link after finalization. -/
def Link.finalized (link : Link) : Link :=
  { link with status := .finalized, holder := none, prev := none, next := none }

theorem Link.unchained_finalized (l : Link) : l.finalized.Unchained :=
  ⟨rfl, rfl, inl ⟨inr rfl, rfl⟩⟩

/-- A link of an instruction that is nested under another. -/
def Link.nested (link : Link) (outer : InstId) : Link :=
  { link with status := .reparent, holder := some (.inst outer) }

namespace Program

/-- A move that takes an instruction apart: out of its block, away from its operands,
marked as finalized, given up. -/
inductive Wrecks (before after : Program) : Prop where
  | detach (inst : InstId)
      (rethreads : before.Rethreads after fun block => (before.threads block).erase inst)
  | strip (inst : InstId) (link : Link)
      (held : before.link? inst = some link)
      (status : link.status ≠ .connected)
      (removed : before.OperandsRemoved after inst [] (before.operandsOf inst) none)
      (kinds : after.kind? = before.kind?)
  | mark (inst : InstId) (link : Link)
      (status : link.status ≠ .connected)
      (stripped : before.operandsOf inst = [])
      (relinked : before.Relinked after inst link link.finalized)
  | drop (inst : InstId) (link : Link)
      (held : before.link? inst = some link)
      (finalized : link.status = .finalized)
      (dropped : before.Dropped after inst)

/-- Whether a node reads another. -/
def Reads (program : Program) (user value : ValueId) : Prop :=
  ∃ edge data, edge ∈ program.operandsOf user ∧ program.wire? edge = some data ∧
    data.value = value

/-- Taking instructions apart leaves the operands of all others, and takes along what
is nested under an instruction and read by it, which never goes alone. -/
structure Spares (before after : Program) : Prop where
  kept : ∀ inst, after.Ongoing inst → after.operandsOf inst = before.operandsOf inst
  nested : ∀ inner link outer, after.link? inner = some link →
    link.holder = some (.inst outer) → before.Reads outer inner → before.Ongoing outer →
      after.Ongoing outer
  whole : ∀ inner link outer, before.link? inner = some link →
    link.holder = some (.inst outer) → before.Reads outer inner → after.Ongoing outer →
      after.link? inner = some link

/-- Moves that take instructions apart, one after another. -/
abbrev Wrecked : Program → Program → Prop :=
  Relation.ReflTransGen Wrecks

/-- Instructions are taken apart to the end. -/
structure Razed (before after : Program) : Prop where
  wrecked : Wrecked before after
  spares : before.Spares after

/-- An edge is added behind the operands of an instruction or a global.  The edges of a
terminator that stands in a block lead to blocks, and entries of phis are for blocks. -/
structure Joins (before after : Program) (edge : EdgeId) (data : Edge) : Prop where
  added : before.EdgeAdded after edge data (before.flowSource? data.user data.slot)
  reads : before.isInst data.user = true ∨ before.isGlobal data.user = true
  admits : ∀ kind, before.shell? data.user = some kind →
    kind.Admits (before.slotsOf data.user ++ [data.slot.outline])
  leads : before.flowSource? data.user data.slot ≠ none → before.isBlock data.value = true
  keyed : ∀ block, data.slot = .keyed block → before.isBlock block = true

/-- An edge can be moved as promised: no register write reads what is nested under it
through the edge, and the new value is as the rule for the edge asks, if the old one is. -/
structure Honours (promise : Promise) (program : Program) (data : Edge) (new : ValueId) :
    Prop where
  nested : promise.keepsNested → program.shell? data.user = some .regWrite →
    data.slot = .fixed 1 → ∀ link, program.link? data.value = some link →
      link.holder ≠ some (.inst data.user)
  rules : ∀ rule, promise.keepsRule rule → program.rule? data.user data.slot = some rule →
    program.Meets data.value rule → program.Meets new rule

/-- A move of one edge, or of all edges of one global. -/
inductive Redraws (promise : Promise) (before after : Program) : Prop where
  | connect (edge : EdgeId) (data : Edge)
      (joins : before.Joins after edge data)
      (conforms : before.Conforms data.user → after.Conforms data.user)
      (other : ∀ kind, before.shell? data.user = some kind → kind = .phi ∨ kind = .switch [])
      (rules : ∀ rule, before.rule? data.user data.slot = some rule → before.Meets data.value rule)
      (spares : promise.sparesFinalized → ∀ link, before.link? data.user = some link →
        link.status ≠ .finalized)
  | rebind (edge : EdgeId) (data : Edge) (new : ValueId)
      (moved : before.EdgeMoved after edge data new)
      (leads : before.isBlock data.value = true → before.isBlock new = true)
      (agree : ∀ old type, before.type? data.value = some old → before.type? new = some type →
        before.types.equal old type = .ok true)
      (honours : before.Honours promise data new)
  | unread (user : ValueId) (index : Nat) (edge : EdgeId) (data : Edge)
      (member : (before.operandsOf user)[index]? = some edge)
      (held : before.wire? edge = some data)
      (optional : (∃ block, data.slot = .keyed block) ∨
        (before.shell? user = some (.switch []) ∧ 1 ≤ index))
      (removed : before.OperandsRemoved after user ((before.operandsOf user).eraseIdx index)
        [edge]
        (if before.isBlock data.value = true then
          (before.flowSource? user data.slot).map (·, data.value) else none))
      (conforms : before.Conforms user → after.Conforms user)
  | clear (global : GlobalId)
      (isGlobal : before.isGlobal global = true)
      (removed : before.OperandsRemoved after global [] (before.operandsOf global) none)

/-- Whether a program lists a function or a global. -/
def Lists (program : Program) (value : ValueId) : Prop :=
  value ∈ program.functions ∨ value ∈ program.globals

/-- Only what a program lists has an entry. -/
def Enrolled (program : Program) : Prop :=
  ∀ entry ∈ program.symbols, program.Lists entry.2

/-- Only new symbols come onto the lists, and only symbols that are listed are entered, as
long as no others are given names. -/
structure Enrols (promise : Promise) (before after : Program) : Prop where
  lists : ∀ value, after.Lists value → before.Lists value ∨ promise.isNew value
  entries : promise.renamesListed → before.Enrolled → after.Enrolled

theorem Enrols.of_same (symbols : q.symbols = p.symbols) (fns : q.functions = p.functions)
    (globals : q.globals = p.globals) : p.Enrols pr q := by
  refine ⟨fun v listed => inl ?_, fun _ enrolled => ?_⟩
  · rwa [Lists, fns, globals] at listed
  · simp only [Enrolled, Lists, symbols, fns, globals]
    exact enrolled

/-- What comes into the threads of blocks returns what the functions of the blocks do. -/
def Closes (program : Program) (threads : BlockId → List InstId) : Prop :=
  ∀ block inst, inst ∈ threads block → inst ∉ program.threads block →
    ∀ function data, program.seat? block = some (some function) →
      program.function? function = some data → program.Returns data.type inst

/-- Blocks that stay in a function stay listed there, unless the function is torn down.
Blocks that are put into a function are listed there and return what the function does. -/
structure Lodges (promise : Promise) (before after : Program) : Prop where
  stay : ∀ block function old, before.seat? block = some (some function) →
    after.seat? block = some (some function) → before.function? function = some old →
      block ∈ old.blocks → ¬ promise.razes function →
        ∃ new, after.function? function = some new ∧ new.type = old.type ∧ block ∈ new.blocks
  come : ∀ block function, before.seat? block ≠ some (some function) →
    after.seat? block = some (some function) →
      ∃ new, after.function? function = some new ∧ block ∈ new.blocks ∧
        (promise.agrees → ∀ inst ∈ before.threads block, before.Returns new.type inst)

/-- A block that is taken out of a function lodges nowhere. -/
theorem Reseated.lodges (reseat : p.Reseated q b none) : p.Lodges pr q where
  stay other f old _ _ held listed _ := ⟨old, by rw [reseat.bodies, held], rfl, listed⟩
  come other f was isSeated := by
    rw [reseat.seats, update_apply] at isSeated
    split at isSeated
    · cases isSeated
    · exact absurd isSeated was

/-- A function that is not torn down keeps its blocks. -/
theorem Refitted.lodges (refit : p.Refitted q f old new) (ty : new.type = old.type)
    (blocks : ¬ pr.razes f → new.blocks = old.blocks) : p.Lodges pr q where
  stay b other d _ _ h listed stands := by
    rw [refit.bodies, update_apply]
    split
    next eq =>
      subst eq
      obtain rfl := mem_unique refit.held h
      exact ⟨new, rfl, ty, by rwa [blocks stands]⟩
    next => exact ⟨d, h, rfl, listed⟩
  come b other was isSeated := by
    rw [refit.seats] at isSeated
    exact absurd isSeated was

/-- A move that adds no node. -/
inductive Shapes (promise : Promise) (before after : Program) : Prop where
  | raze (razed : before.Razed after)
  | relabel
      (relabels : before.Relabels after)
      (catalogue : before.Catalogue → after.Catalogue)
      (enrols : before.Enrols promise after)
  | retain (value : ValueId)
      (retained : before.Retained after value)
  | drop (value : ValueId)
      (dropped : before.Dropped after value)
      (bare : before.countOf value = 1 → before.Bare value)
  | redraw (redraws : before.Redraws promise after)
  | thread (threads : BlockId → List InstId)
      (rethreads : before.Rethreads after threads)
      (closes : before.Closes threads)
  | resettle
      (resettles : before.Resettles after)
      (staffed : after.Staffed)
      (allots : promise.returnsOwned → before.Allotted → after.Allotted)
      (lodges : before.Lodges promise after)

theorem Shapes.of_unseated (reseat : p.Reseated q b none) (hs : p.Sound)
    (unlisted : ∀ f d, p.function? f = some d → b ∉ d.blocks) : p.Shapes pr q :=
  .resettle reseat.toResettles (hs.staffed.of_reseated reseat unlisted)
    (fun _ allotted => allotted.of_reseated reseat) reseat.lodges

/-- A function gets other lists; its blocks stay unless it is torn down. -/
theorem Shapes.of_refitted (refit : p.Refitted q f old new) (hs : p.Sound) (fits : p.Fits f new)
    (ty : new.type = old.type) (blocks : ¬ pr.razes f → new.blocks = old.blocks)
    (allots : pr.returnsOwned → p.Allots old → p.Allots new) : p.Shapes pr q :=
  .resettle refit.toResettles (hs.staffed.of_refitted refit fits)
    (fun returns allotted => allotted.of_refitted refit (allots returns))
    (refit.lodges ty blocks)

/-- Edges are added behind the operands of one node, one after another. -/
abbrev Joined (user : ValueId) : Program → Program → Prop :=
  Relation.ReflTransGen fun before after =>
    ∃ edge data, before.Joins after edge data ∧ data.user = user

/-- A new instruction with its operands. -/
structure Built (before after : Program) (inst : InstId) (type : TypeId) (kind : InstKind) :
    Prop where
  added : ∃ started, before.Added started inst type (.inst (Inst.fresh kind)) ∧
    Joined inst started after
  registered : before.types.Registered type
  conforms : after.Conforms inst
  rules : ∀ edge data rule, edge ∈ after.operandsOf inst → after.wire? edge = some data →
    kind.rule? data.slot = some rule → after.Meets data.value rule

/-- A move that takes no node away. -/
inductive Raises (promise : Promise) (before after : Program) : Prop where
  | grow (value : ValueId) (type : TypeId) (payload : Payload)
      (added : before.Added after value type payload)
      (blank : payload.Blank)
      (other : payload.category ≠ .inst)
      (registered : before.types.Registered type)
      (suits : (payload.category = .register → before.types.isStorable type = .ok true) ∧
        (payload.category = .block → type = .label))
  | build (inst : InstId) (type : TypeId) (kind : InstKind)
      (built : before.Built after inst type kind)
  | shape
      (shapes : before.Shapes promise after)
      (grows : before.values.Grows after.values)

/-- A disconnected instruction is nested under a new register write that reads it. -/
structure Adopts (before after : Program) (inst write : InstId) (link : Link) : Prop where
  relinked : before.Relinked after inst link (link.nested write)
  status : link.status = .disconnected
  apart : inst ≠ write
  isWrite : before.shell? write = some .regWrite
  unplaced : before.link? write = some (Inst.fresh .regWrite).link
  reads : ∃ edge data, (before.operandsOf write)[1]? = some edge ∧
    before.wire? edge = some data ∧ data.value = inst

/-! ### Moves keep programs sound -/

theorem Sound.of_cleared (hs : p.Sound) (rem : p.OperandsRemoved q u [] (p.operandsOf u) none) :
    q.Sound :=
  hs.of_rewires rem.rewires
    (hs.wired.of_operandsRemoved rem (nil_sublist _) (fun _ mem => mem) (by simp))
    (hs.laid.of_operandsRemoved hs.wired rem (fun _ mem => mem) (by simp)
      fun kind _ => kind.admits_nil)

theorem Sound.of_unread {k : Nat} {cut : Option (BlockId × BlockId)} (hs : p.Sound)
    (mem : (p.operandsOf u)[k]? = some e) (h : p.wire? e = some d)
    (optional : (∃ b, d.slot = .keyed b) ∨ (p.shell? u = some (.switch []) ∧ 1 ≤ k))
    (rem : p.OperandsRemoved q u ((p.operandsOf u).eraseIdx k) [e] cut) : q.Sound := by
  have listed : ∀ edge ∈ [e], edge ∈ p.operandsOf u := by
    intro edge isEdge
    rw [mem_singleton.mp isEdge]
    exact mem_of_getElem? mem
  have disjoint : ∀ edge ∈ [e], edge ∉ (p.operandsOf u).eraseIdx k := by
    intro edge isEdge
    rw [mem_singleton.mp isEdge]
    obtain ⟨lt, rfl⟩ := List.getElem?_eq_some_iff.mp mem
    rw [← (hs.wired.nodup u).erase_getElem k lt]
    exact (hs.wired.nodup u).not_mem_erase
  refine hs.of_rewires rem.rewires
    (hs.wired.of_operandsRemoved rem (eraseIdx_sublist _ _) listed disjoint)
    (hs.laid.of_operandsRemoved hs.wired rem listed disjoint fun kind hKind => ?_)
  rw [← eraseIdx_map]
  have found : (p.slotsOf u)[k]? = some d.slot := by
    rw [slotsOf, getElem?_map, mem, map_some, slotOf, h]
    rfl
  refine (hs.laid u kind hKind).eraseIdx found ?_
  · rcases optional with keyed | ⟨hsw, behind⟩
    · exact inl keyed
    · rw [hsw, some.injEq] at hKind
      exact inr ⟨hKind.symm, behind⟩

theorem Wrecks.sound (wrecks : p.Wrecks q) (hs : p.Sound) : q.Sound := by
  cases wrecks with
  | detach i reth => exact hs.of_rearranges reth.toRearranges reth.chains
  | strip i l h st rem kinds => exact hs.of_cleared rem
  | mark i l st stripped relink =>
    exact hs.of_rearranges relink.restrings.rearranges
      (relink.chains hs.chains st l.unchained_finalized)
  | drop i l h fin dropped =>
    exact hs.of_dropped dropped fun _ => p.bare_of_finalized h fin

theorem Wrecked.sound (wrecked : Wrecked p q) (hs : p.Sound) : q.Sound := by
  induction wrecked with
  | refl => exact hs
  | tail _ last ih => exact last.sound ih

theorem Joins.sound (joins : p.Joins q e d) (hs : p.Sound) : q.Sound :=
  hs.of_rewires joins.added.rewires (hs.wired.of_edgeAdded joins.added joins.reads)
    (hs.laid.of_edgeAdded hs.wired joins.added joins.admits)

theorem EdgeMoved.sound {new : ValueId} (moved : p.EdgeMoved q e d new) (hs : p.Sound) : q.Sound :=
  hs.of_rewires moved.rewires (hs.wired.of_edgeMoved moved) (hs.laid.of_edgeMoved moved)

theorem Redraws.sound (redraws : p.Redraws pr q) (hs : p.Sound) : q.Sound := by
  cases redraws with
  | connect e d joins => exact joins.sound hs
  | rebind e d new moved => exact moved.sound hs
  | unread u k e d mem h optional rem conf =>
    exact hs.of_unread mem h optional rem
  | clear g hg rem => exact hs.of_cleared rem

theorem Shapes.sound (shapes : p.Shapes pr q) (hs : p.Sound) : q.Sound := by
  cases shapes with
  | raze razed => exact Wrecked.sound razed.wrecked hs
  | relabel lab cat => exact hs.of_relabels lab (cat hs.catalogue)
  | retain v retained =>
    exact hs.of_same (retained.stored hs.stored) retained.nodes retained.edges
      (by rw [retained.others]; rfl)
  | drop v dropped bare => exact hs.of_dropped dropped bare
  | redraw redraws => exact redraws.sound hs
  | thread threads reth => exact hs.of_rearranges reth.toRearranges reth.chains
  | resettle settle staffed => exact hs.of_resettles settle staffed

theorem Joined.sound (joined : Joined u p q) (hs : p.Sound) : q.Sound := by
  induction joined with
  | refl => exact hs
  | tail _ last ih =>
    obtain ⟨_, _, joins, -⟩ := last
    exact joins.sound ih

theorem Raises.sound (raises : p.Raises pr q) (hs : p.Sound) : q.Sound := by
  cases raises with
  | grow v ty payload added blank noInst reg suits =>
    exact hs.of_added added blank reg suits
  | build i ty kind built =>
    obtain ⟨started, added, joined⟩ := built.added
    exact Joined.sound joined
      (hs.of_added added ⟨kind, rfl⟩ built.registered (by simp [Payload.category]))
  | shape shapes grows => exact shapes.sound hs

theorem Adopts.chains (adopts : p.Adopts q i write l) (hs : p.Sound) : q.Chains p.threads none := by
  refine adopts.relinked.chains hs.chains (by simp [adopts.status]) ?_
  obtain ⟨noPrev, noNext, -⟩ := hs.chains.unchained i l adopts.relinked.held
    (by simp [adopts.status])
  exact ⟨noPrev, noNext, inr ⟨rfl, write, rfl⟩⟩

theorem Adopts.sound (adopts : p.Adopts q i write l) (hs : p.Sound) : q.Sound :=
  hs.of_rearranges adopts.relinked.restrings.rearranges (adopts.chains hs)

/-! ### Moves that take nothing away -/

/-- Below the skeleton only a constant that is no longer read can go. -/
theorem Rewires.grows (rew : p.Rewires q) (stored : p.Stored) (spare : q.spare = p.spare)
    (uses : ∀ v, p.isConstant v = true → p.usesOf v ≠ [] → q.usesOf v ≠ []) :
    p.values.Grows q.values := by
  refine rew.shrinks.grows fun v live => ?_
  by_contra dead
  have gone : q.values.lookup? v = none := by
    simpa [Arena.contains] using dead
  have noCount : q.values.count? v = none := by simp [count?, gone]
  cases c : p.isConstant v with
  | false =>
    rw [rew.counts v c] at noCount
    simp [Arena.count?, Arena.contains, Option.isSome_iff_exists] at noCount live
    simp [noCount] at live
  | true =>
    have unread : q.usesOf v = [] := by simp [usesOf, get?, gone]
    have unreadBefore : p.usesOf v = [] := by
      by_contra reads
      exact uses v c reads unread
    have eq := congrFun spare v
    simp only [Program.spare, countOf, noCount, unread, unreadBefore, length_nil] at eq
    cases count : p.values.count? v with
    | none =>
      simp [Arena.count?, Arena.contains, Option.isSome_iff_exists] at count live
      simp [count] at live
    | some count' =>
      have owned := stored.owned v
      simp [count] at eq owned
      omega

theorem EdgeAdded.grows {home : Option BlockId} (added : p.EdgeAdded q e d home)
    (stored : p.Stored) : p.values.Grows q.values := by
  refine added.rewires.grows stored added.spare fun v _ reads => ?_
  rw [added.uses, update_apply]
  split
  · simp
  · exact reads

/-- An edge that moves away from anything but a constant takes nothing away. -/
theorem EdgeMoved.grows {new : ValueId} (moved : p.EdgeMoved q e d new) (hs : p.Sound)
    (noConstant : p.isConstant d.value = false) : p.values.Grows q.values := by
  refine moved.rewires.grows hs.stored moved.spare fun v c reads => ?_
  have ne : v ≠ d.value := by
    rintro rfl
    simp [noConstant] at c
  have kept : (p.usesOf v).filter (· ≠ e) = p.usesOf v := by
    refine filter_eq_self.mpr fun edge mem => ?_
    simp only [ne_eq, decide_not, Bool.not_eq_eq_eq_not, Bool.not_true, decide_eq_false_iff_not]
    rintro rfl
    obtain ⟨data, h, isValue⟩ := (hs.wired.uses.mem_iff v edge).mp mem
    rw [wire?, moved.held, map_some, some.injEq] at h
    exact ne (by rw [← isValue, ← h]; rfl)
  intro unread
  have perm := moved.uses v
  rw [unread, kept] at perm
  have empty := perm.symm.eq_nil
  simp [reads] at empty

/-! ### Sequences of moves -/

/-- Moves of edges, one after another. -/
abbrev Redrawn (promise : Promise) : Program → Program → Prop :=
  Relation.ReflTransGen fun before after => before.Redraws promise after

/-- Moves that add no node, one after another. -/
abbrev Shrunk (promise : Promise) : Program → Program → Prop :=
  Relation.ReflTransGen fun before after => before.Shapes promise after

/-- Moves that take no node away, one after another. -/
abbrev Grown (promise : Promise) : Program → Program → Prop :=
  Relation.ReflTransGen fun before after => before.Raises promise after

/-- What an edit leads to: first nodes come, then at most one instruction that was
disconnected all along is nested, then nodes go. -/
def Reaches (promise : Promise) (before after : Program) : Prop :=
  ∃ grown adopted, Grown promise before grown ∧
    (adopted = grown ∨ ∃ inst write link, grown.Adopts adopted inst write link ∧
      before.status? inst = some .disconnected) ∧
      Shrunk promise adopted after

theorem Redrawn.sound (redrawn : Redrawn pr p q) (hs : p.Sound) : q.Sound := by
  induction redrawn with
  | refl => exact hs
  | tail _ last ih => exact last.sound ih

theorem Redrawn.shrunk (redrawn : Redrawn pr p q) : Shrunk pr p q :=
  redrawn.lift id fun _ _ redraws => .redraw redraws

theorem Shrunk.sound (shrunk : Shrunk pr p q) (hs : p.Sound) : q.Sound := by
  induction shrunk with
  | refl => exact hs
  | tail _ last ih => exact last.sound ih

theorem Grown.sound (grown : Grown pr p q) (hs : p.Sound) : q.Sound := by
  induction grown with
  | refl => exact hs
  | tail _ last ih => exact last.sound ih

theorem Reaches.sound (reaches : p.Reaches pr q) (hs : p.Sound) : q.Sound := by
  obtain ⟨grown, adopted, grow, adopt, shrink⟩ := reaches
  refine Shrunk.sound shrink ?_
  rcases adopt with rfl | ⟨i, write, l, adopts, -⟩
  · exact Grown.sound grow hs
  · exact adopts.sound (Grown.sound grow hs)

theorem Reaches.refl (s : Program) : s.Reaches pr s :=
  ⟨s, s, .refl, inl rfl, .refl⟩

theorem Reaches.of_grown (grown : Grown pr p q) : p.Reaches pr q :=
  ⟨q, q, grown, inl rfl, .refl⟩

theorem Reaches.of_shrunk (shrunk : Shrunk pr p q) : p.Reaches pr q :=
  ⟨p, p, .refl, inl rfl, shrunk⟩

end Program

end ValueGraph
