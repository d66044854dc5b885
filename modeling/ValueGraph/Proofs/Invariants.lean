import Mathlib
import ValueGraph.Proofs.Threads
import ValueGraph.Proofs.TypeRules

open Function

namespace ValueGraph

open List Option

/-!
# Invariants of programs

What holds of every program that edits lead to: both lists of an edge name it,
the operands of switches and register writes have their places, functions list
what belongs to them, the symbols that the program lists are there, and the types
of all nodes are registered.
-/

variable {e : EdgeId} {u new : ValueId} {d : Edge} {home : Option BlockId} {gone : List EdgeId}
  {cut : Option (BlockId × BlockId)} {p q s : Program}

namespace Program

/-! ### Wiring -/

/-- Edges and the lists of the nodes at both of their ends agree. -/
structure Wired (program : Program) : Prop where
  placid : program.Placid
  uses : program.UsesAgree
  nodup : ∀ user, (program.operandsOf user).Nodup
  own : ∀ user edge, edge ∈ program.operandsOf user →
    ∃ data, program.wire? edge = some data ∧ data.user = user

namespace Wired

section

variable (wired : p.Wired)
include wired

theorem of_same (ops : q.operandsOf = p.operandsOf) (uses : q.usesOf = p.usesOf)
    (wires : q.wire? = p.wire?) (insts : q.isInst = p.isInst) (globals : q.isGlobal = p.isGlobal) :
    q.Wired where
  placid value reads := by
    rw [insts, globals]
    exact wired.placid value (ops ▸ reads)
  uses := wired.uses.of_same uses wires
  nodup := by
    rw [ops]
    exact wired.nodup
  own := by
    rw [ops, wires]
    exact wired.own

/-- Fewer operands are listed and nothing else is different. -/
theorem mono (ops : ∀ u, (q.operandsOf u).Sublist (p.operandsOf u)) (uses : q.usesOf = p.usesOf)
    (wires : q.wire? = p.wire?) (placid : q.Placid) : q.Wired where
  placid := placid
  uses := wired.uses.of_same uses wires
  nodup u := (wired.nodup u).sublist (ops u)
  own u e member := by
    rw [wires]
    exact wired.own u e ((ops u).subset member)

/-- The node that reads through an edge is the only one that lists it. -/
theorem user_unique {first second : ValueId} (inFirst : e ∈ p.operandsOf first)
    (inSecond : e ∈ p.operandsOf second) : first = second := by
  obtain ⟨d, h, rfl⟩ := wired.own first e inFirst
  obtain ⟨_, h', rfl⟩ := wired.own second e inSecond
  rw [h, some.injEq] at h'
  rw [h']

/-- An operand of a node is an edge of that node. -/
theorem user_eq (mem : e ∈ p.operandsOf u) (h : p.edges.get? e = some d) : d.user = u := by
  obtain ⟨outline, hWire, isUser⟩ := wired.own u e mem
  rw [wire?, h, map_some, some.injEq] at hWire
  rw [← hWire] at isUser
  exact isUser

/-- What an edge reads is there. -/
theorem value_live (h : p.wire? e = some d) : p.isLive d.value = true := by
  have mem := wired.uses.mem_uses h
  rw [isLive, Arena.contains_iff_get?]
  cases absent : p.values.get? d.value with
  | none => simp [usesOf, absent] at mem
  | some n => exact ⟨n, rfl⟩

theorem of_edgeAdded (added : p.EdgeAdded q e d home)
    (reads : p.isInst d.user = true ∨ p.isGlobal d.user = true) : q.Wired := by
  have unused : ∀ v, e ∉ p.usesOf v := by
    intro v mem
    obtain ⟨_, h, -⟩ := (wired.uses.mem_iff v e).mp mem
    simp [added.fresh] at h
  have unlisted : ∀ u, e ∉ p.operandsOf u := by
    intro u mem
    obtain ⟨_, h, -⟩ := wired.own u e mem
    simp [added.fresh] at h
  have wires : ∀ edge, q.wire? edge =
      if edge = e then some d.outline else p.wire? edge := by
    intro edge
    rw [added.wires, update_apply]
  have ops : ∀ u, q.operandsOf u = p.operandsOf u ++ if u = d.user then [e] else [] := by
    intro u
    rw [added.operands, update_apply]
    split
    next eq => rw [eq]
    next => simp
  have uses : ∀ v, q.usesOf v = p.usesOf v ++ if v = d.value then [e] else [] := by
    intro v
    rw [added.uses, update_apply]
    split
    next eq => rw [eq]
    next => simp
  refine
    { placid := wired.placid.of_rewires added.rewires fun v some => ?_
      uses := ⟨fun v => ?_, fun v edge => ?_⟩
      nodup := fun u => ?_
      own := fun u edge mem => ?_ }
  · rw [ops] at some
    split at some
    next eq => exact Or.inr (eq ▸ reads)
    next => exact Or.inl (by simpa using some)
  · rw [uses]
    split
    · rw [← concat_eq_append]
      exact (wired.uses.nodup v).concat (unused v)
    · simpa using wired.uses.nodup v
  · rw [uses, wires, mem_append, wired.uses.mem_iff]
    by_cases eq : edge = e
    · simp only [eq, added.fresh, if_true, some.injEq, exists_eq_left', reduceCtorEq,
        false_and, exists_false, false_or]
      by_cases same : v = d.value
      · simp [same, Edge.outline]
      · simp [same, Edge.outline, Ne.symm same]
    · by_cases same : v = d.value <;> simp [eq, same]
  · rw [ops]
    split
    · rw [← concat_eq_append]
      exact (wired.nodup u).concat (unlisted u)
    · simpa using wired.nodup u
  · rw [ops, mem_append] at mem
    rw [wires]
    rcases mem with old | new
    · have ne : edge ≠ e := fun eq => unlisted u (eq ▸ old)
      rw [if_neg ne]
      exact wired.own u edge old
    · split at new
      next eq =>
        rw [mem_singleton] at new
        rw [if_pos new]
        exact ⟨_, rfl, eq.symm⟩
      next => simp at new

theorem of_edgeMoved (moved : p.EdgeMoved q e d new) : q.Wired := by
  have h : p.wire? e = some d.outline := by
    rw [wire?, moved.held, map_some]
  have wires : ∀ edge, q.wire? edge =
      if edge = e then some { d with value := new }.outline else p.wire? edge := by
    intro edge
    rw [moved.wires, update_apply]
  refine
    { placid := wired.placid.of_rewires moved.rewires fun v some => ?_
      uses := ⟨fun v => ?_, fun v edge => ?_⟩
      nodup := by
        rw [moved.operands]
        exact wired.nodup
      own := fun u edge mem => ?_ }
  · exact Or.inl (by rwa [moved.operands] at some)
  · refine (moved.uses v).nodup_iff.mpr ?_
    split
    · rw [← concat_eq_append]
      exact ((wired.uses.nodup v).filter _).concat (by simp)
    · simpa using (wired.uses.nodup v).filter _
  · rw [(moved.uses v).mem_iff, wires, mem_append, mem_filter, wired.uses.mem_iff]
    by_cases eq : edge = e
    · by_cases same : v = new
      · simp [eq, same, Edge.outline]
      · simp [eq, same, Edge.outline, Ne.symm same]
    · by_cases same : v = new <;> simp [eq, same]
  · rw [moved.operands] at mem
    obtain ⟨data, hOther, isUser⟩ := wired.own u edge mem
    rw [wires]
    split
    next eq =>
      subst eq
      rw [h, some.injEq] at hOther
      subst hOther
      exact ⟨_, rfl, isUser⟩
    next => exact ⟨data, hOther, isUser⟩

theorem of_operandsRemoved {kept : List EdgeId} (rem : p.OperandsRemoved q u kept gone cut)
    (fewer : kept.Sublist (p.operandsOf u)) (listed : ∀ e ∈ gone, e ∈ p.operandsOf u)
    (disjoint : ∀ e ∈ gone, e ∉ kept) : q.Wired := by
  have ops : ∀ value, (q.operandsOf value).Sublist (p.operandsOf value) := by
    intro value
    rw [rem.operands, update_apply]
    split
    next eq => rwa [eq]
    next => exact List.Sublist.refl _
  refine
    { placid := wired.placid.of_rewires rem.rewires fun v some => ?_
      uses := ⟨fun v => ?_, fun v edge => ?_⟩
      nodup := fun value => (wired.nodup value).sublist (ops value)
      own := fun value e mem => ?_ }
  · left
    intro none
    exact some (sublist_nil.mp (none ▸ ops v))
  · exact (rem.uses v).nodup_iff.mpr ((wired.uses.nodup v).filter _)
  · rw [(rem.uses v).mem_iff, rem.wires, mem_filter, wired.uses.mem_iff]
    by_cases isGone : edge ∈ gone <;> simp [isGone]
  · have remains : e ∉ gone := by
      intro isGone
      obtain rfl := wired.user_unique ((ops value).subset mem) (listed e isGone)
      rw [rem.operands, update_self] at mem
      exact disjoint e isGone mem
    rw [rem.wires, if_neg remains]
    exact wired.own value e ((ops value).subset mem)

end

end Wired

end Program

/-! ### Places of operands -/

/-- The places that the operands of an instruction can have, in order.  Neither a switch
nor what has at most so many operands has entries for blocks, and all but the first
operand of a switch are targets. -/
def InstKind.Admits : InstKind → List Slot → Prop
  | .switch _, slots =>
    (∀ block, .keyed block ∉ slots) ∧
      ∀ slot ∈ slots.tail, (InstKind.switch []).isTargetSlot slot = true
  | .regWrite, slots => slots <+: [.fixed 0, .fixed 1]
  | .ret, slots => slots <+: [.fixed 0]
  | _, _ => True

theorem InstKind.admits_nil (kind : InstKind) : kind.Admits [] := by
  cases kind <;> simp [InstKind.Admits]

/-- An operand can go if it is an entry for a block or the target of a case. -/
theorem InstKind.Admits.eraseIdx {kind : InstKind} {slots : List Slot} {slot : Slot} {k : Nat}
    (admits : kind.Admits slots) (found : slots[k]? = some slot)
    (loose : (∃ b, slot = .keyed b) ∨ (kind = .switch [] ∧ 1 ≤ k)) :
    kind.Admits (slots.eraseIdx k) := by
  have mem : slot ∈ slots := mem_of_getElem? found
  rcases loose with ⟨b, rfl⟩ | ⟨rfl, behind⟩
  · cases kind with
    | switch cases => exact absurd mem (admits.1 b)
    | regWrite | ret =>
      have inPlaces := List.IsPrefix.subset admits mem
      simp at inPlaces
    | _ => trivial
  · obtain ⟨k, rfl⟩ := Nat.exists_eq_add_of_le' behind
    refine ⟨fun b mem => admits.1 b (mem_of_mem_eraseIdx mem), ?_⟩
    intro slot mem
    refine admits.2 slot ?_
    cases slots with
    | nil => simp at mem
    | cons first rest => exact mem_of_mem_eraseIdx (by simpa using mem)

namespace Program

/-- The place of an edge among the operands of its user. -/
def slotOf (program : Program) (edge : EdgeId) : Slot :=
  (program.wire? edge).elim (.fixed 0) (·.slot)

/-- The places of the operands of a node, in order. -/
def slotsOf (program : Program) (user : ValueId) : List Slot :=
  (program.operandsOf user).map program.slotOf

/-- The operands of every instruction have places that its kind admits. -/
def Laid (program : Program) : Prop :=
  ∀ user kind, program.shell? user = some kind → kind.Admits (program.slotsOf user)

namespace Laid

theorem of_same (laid : p.Laid) (shells : q.shell? = p.shell?) (ops : q.operandsOf = p.operandsOf)
    (wires : q.wire? = p.wire?) : q.Laid := by
  intro u kind h
  have eq : q.slotsOf u = p.slotsOf u := by
    have slots : q.slotOf = p.slotOf := by
      funext e
      simp only [slotOf, wires]
    simp only [slotsOf, ops, slots]
  rw [eq]
  exact laid u kind (shells ▸ h)

theorem slotsOf_edgeAdded (wired : p.Wired) (added : p.EdgeAdded q e d home) (u : ValueId) :
    q.slotsOf u = p.slotsOf u ++ if u = d.user then [d.slot.outline] else [] := by
  have old : ∀ e ∈ p.operandsOf u, q.slotOf e = p.slotOf e := by
    intro edge mem
    obtain ⟨_, h, -⟩ := wired.own u edge mem
    have ne : edge ≠ e := by
      rintro rfl
      simp [added.fresh] at h
    simp only [slotOf, added.wires, update_of_ne ne]
  have new : q.slotOf e = d.slot.outline := by
    simp [slotOf, added.wires, Edge.outline]
  rw [slotsOf, added.operands, update_apply]
  split
  next eq =>
    subst eq
    rw [map_append, map_congr_left old, map_singleton, new, slotsOf]
  next => rw [map_congr_left old, append_nil, slotsOf]

theorem of_edgeAdded (laid : p.Laid) (wired : p.Wired) (added : p.EdgeAdded q e d home)
    (admits : ∀ kind, p.shell? d.user = some kind →
      kind.Admits (p.slotsOf d.user ++ [d.slot.outline])) : q.Laid := by
  intro u kind h
  rw [added.rewires.skeleton.shell?] at h
  rw [slotsOf_edgeAdded wired added]
  split
  next eq =>
    subst eq
    exact admits kind h
  next =>
    rw [append_nil]
    exact laid u kind h

theorem of_edgeMoved (laid : p.Laid) (moved : p.EdgeMoved q e d new) : q.Laid := by
  have slots : q.slotOf = p.slotOf := by
    funext other
    rw [slotOf, slotOf, moved.wires, update_apply]
    split
    next eq => simp [eq, wire?, moved.held, Edge.outline]
    next => rfl
  intro u kind h
  rw [moved.rewires.skeleton.shell?] at h
  rw [slotsOf, slots, moved.operands]
  exact laid u kind h

theorem of_operandsRemoved {kept : List EdgeId} (laid : p.Laid) (wired : p.Wired)
    (rem : p.OperandsRemoved q u kept gone cut) (listed : ∀ e ∈ gone, e ∈ p.operandsOf u)
    (disjoint : ∀ e ∈ gone, e ∉ kept)
    (admits : ∀ kind, p.shell? u = some kind → kind.Admits (kept.map p.slotOf)) : q.Laid := by
  have slots : ∀ e, e ∉ gone → q.slotOf e = p.slotOf e := by
    intro e remains
    rw [slotOf, slotOf, rem.wires, if_neg remains]
  intro inst kind h
  rw [rem.rewires.skeleton.shell?] at h
  rw [slotsOf, rem.operands, update_apply]
  split
  next eq =>
    subst eq
    rw [map_congr_left fun e mem => slots e fun isGone => disjoint e isGone mem]
    exact admits kind h
  next ne =>
    rw [map_congr_left fun e mem => slots e fun isGone =>
      ne (wired.user_unique mem (listed e isGone))]
    exact laid inst kind h

end Laid

end Program

/-! ### Functions and what belongs to them -/

/-- The registers that a function has granted. -/
def Function.granted (data : Function) : List RegId :=
  data.registers.elim [] (·.live)

namespace Program

/-- What a function lists belongs to it: arguments, registers and blocks, each listed
once. -/
structure Fits (program : Program) (function : FuncId) (data : Function) : Prop where
  params : ∀ value ∈ data.params, ∃ argument,
    program.argument? value = some argument ∧ argument.parent = function
  granted : ∀ value ∈ data.granted, ∃ register,
    program.register? value = some register ∧ register.parent = function
  blocks : ∀ block ∈ data.blocks, program.seat? block = some (some function)
  paramsNodup : data.params.Nodup
  grantedNodup : data.granted.Nodup
  blocksNodup : data.blocks.Nodup

theorem Fits.mono {f : FuncId} {d : Function} (fits : p.Fits f d)
    (args : ∀ v ∈ d.params, q.argument? v = p.argument? v)
    (regs : ∀ v ∈ d.granted, q.register? v = p.register? v)
    (seats : ∀ b ∈ d.blocks, q.seat? b = p.seat? b) : q.Fits f d where
  params v member := by
    rw [args v member]
    exact fits.params v member
  granted v member := by
    rw [regs v member]
    exact fits.granted v member
  blocks b member := by
    rw [seats b member]
    exact fits.blocks b member
  paramsNodup := fits.paramsNodup
  grantedNodup := fits.grantedNodup
  blocksNodup := fits.blocksNodup

/-- Every function lists what belongs to it. -/
def Staffed (program : Program) : Prop :=
  ∀ function data, program.function? function = some data → program.Fits function data

theorem Staffed.of_same (staffed : p.Staffed) (fns : q.function? = p.function?)
    (args : q.argument? = p.argument?) (regs : q.register? = p.register?)
    (seats : q.seat? = p.seat?) : q.Staffed := by
  intro f d h
  refine (staffed f d (fns ▸ h)).mono ?_ ?_ ?_
  · exact fun v _ => congrFun args v
  · exact fun v _ => congrFun regs v
  · exact fun b _ => congrFun seats b

/-! ### Listed symbols -/

/-- The functions and globals that a program lists are there and have entries, every
entry is that of a function or global under its own name, no name stands for two of them,
the names of all nodes are kept, and no text is kept as two names. -/
structure Catalogue (program : Program) : Prop where
  functions : ∀ function ∈ program.functions, program.isFunction function = true
  globals : ∀ global ∈ program.globals, program.isGlobal global = true
  named : ∀ symbol, symbol ∈ program.functions ∨ symbol ∈ program.globals →
    ∃ name, (name, symbol) ∈ program.symbols
  functionsNodup : program.functions.Nodup
  globalsNodup : program.globals.Nodup
  namesNodup : (program.symbols.map (·.1)).Nodup
  labels : ∀ value name, program.name? value = some name → name.index < program.names.size
  entered : ∀ entry ∈ program.symbols,
    (program.isFunction entry.2 = true ∨ program.isGlobal entry.2 = true) ∧
      program.name? entry.2 = some entry.1
  texts : program.names.texts.toList.Nodup

theorem isLive_of_isSymbol {v : ValueId} (isSymbol : s.isFunction v = true ∨ s.isGlobal v = true) :
    s.isLive v = true :=
  isSymbol.elim isLive_of_category isLive_of_category

theorem Catalogue.kept (cat : s.Catalogue) : ∀ entry ∈ s.symbols, entry.1.index < s.names.size :=
  fun entry mem => cat.labels entry.2 entry.1 (cat.entered entry mem).2

theorem Catalogue.mono (cat : p.Catalogue) (surr : q.surroundings = p.surroundings)
    (eq : ∀ entry ∈ p.symbols, q.isFunction entry.2 = p.isFunction entry.2 ∧
      q.isGlobal entry.2 = p.isGlobal entry.2 ∧
      q.name? entry.2 = p.name? entry.2)
    (labels : ∀ v name, q.name? v = some name → p.name? v = some name) : q.Catalogue := by
  have sameFunctions : q.surroundings.functions = p.surroundings.functions :=
    congrArg _ surr
  have sameGlobals : q.surroundings.globals = p.surroundings.globals :=
    congrArg _ surr
  have sameSymbols : q.surroundings.symbols = p.surroundings.symbols :=
    congrArg _ surr
  have sameNames : q.surroundings.names = p.surroundings.names :=
    congrArg _ surr
  simp only [Program.surroundings] at sameFunctions sameGlobals sameSymbols sameNames
  constructor
  case functions =>
    intro f mem
    rw [sameFunctions] at mem
    obtain ⟨name, entry⟩ := cat.named f (Or.inl mem)
    rw [(eq _ entry).1]
    exact cat.functions f mem
  case globals =>
    intro g mem
    rw [sameGlobals] at mem
    obtain ⟨name, entry⟩ := cat.named g (Or.inr mem)
    rw [(eq _ entry).2.1]
    exact cat.globals g mem
  case entered =>
    intro entry mem
    rw [sameSymbols] at mem
    obtain ⟨sameFunction, sameGlobal, sameName⟩ := eq entry mem
    rw [sameFunction, sameGlobal, sameName]
    exact cat.entered entry mem
  all_goals simp only [sameFunctions, sameGlobals, sameSymbols, sameNames]
  · exact cat.named
  · exact cat.functionsNodup
  · exact cat.globalsNodup
  · exact cat.namesNodup
  · exact fun v name named => cat.labels v name (labels v name named)
  · exact cat.texts

/-! ### Registered types -/

theorem types_eq_of_surroundings (eq : q.surroundings = p.surroundings) : q.types = p.types :=
  congrArg (·.types) eq

/-- The table of types has grown from a fresh one and has the types of all nodes;
registers have types whose values can be stored, and blocks are labels. -/
structure Registry (program : Program) : Prop where
  grown : ∃ bits, (TypeTable.ofPointerBits bits).Extends program.types
  nodes : ∀ value type, program.type? value = some type → program.types.Registered type
  registers : ∀ value type, program.isRegister value = true → program.type? value = some type →
    program.types.isStorable type = .ok true
  labels : ∀ value type, program.isBlock value = true → program.type? value = some type →
    type = .label

namespace Registry

theorem layered (registry : p.Registry) : p.types.Layered := by
  obtain ⟨bits, grown⟩ := registry.grown
  exact grown.layered (TypeTable.layered_ofPointerBits bits)

/-- The types that every table has are registered. -/
theorem builtin (registry : p.Registry) {ty : TypeId}
    (early : ty.index < TypeTable.builtins.length) : p.types.Registered ty := by
  obtain ⟨bits, grown⟩ := registry.grown
  exact grown.registered early

/-- The table grows while nodes keep their types, as long as they are there. -/
theorem mono (registry : p.Registry) (grows : p.types.Extends q.types)
    (types : ∀ v ty, q.type? v = some ty → p.type? v = some ty)
    (regs : ∀ v, q.isRegister v = true → p.isRegister v = true)
    (blocks : ∀ v, q.isBlock v = true → p.isBlock v = true) : q.Registry where
  grown := by
    obtain ⟨bits, grown⟩ := registry.grown
    exact ⟨bits, grown.trans grows⟩
  nodes v ty h := grows.registered (registry.nodes v ty (types v ty h))
  registers v ty isRegister h := by
    have hBefore := types v ty h
    have alike := TypeTable.Alike.of_extends grows registry.layered (registry.nodes v ty hBefore)
    rw [alike.isStorable registry.layered (grows.layered registry.layered)]
    exact registry.registers v ty (regs v isRegister) hBefore
  labels v ty isBlock h := registry.labels v ty (blocks v isBlock) (types v ty h)

theorem of_surroundings (registry : p.Registry) (surr : q.surroundings = p.surroundings)
    (types : ∀ v ty, q.type? v = some ty → p.type? v = some ty)
    (regs : ∀ v, q.isRegister v = true → p.isRegister v = true)
    (blocks : ∀ v, q.isBlock v = true → p.isBlock v = true) : q.Registry :=
  registry.mono (types_eq_of_surroundings surr ▸ .refl _) types regs blocks

end Registry

/-! ### All together -/

/-- A program that edits can lead to. -/
structure Sound (program : Program) : Prop where
  stored : program.Stored
  wired : program.Wired
  laid : program.Laid
  chains : program.Chains program.threads none
  staffed : program.Staffed
  catalogue : program.Catalogue
  registry : program.Registry

end Program

end ValueGraph
