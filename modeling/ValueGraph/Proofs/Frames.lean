import Mathlib
import ValueGraph.Proofs.Unravelling

open Function

namespace ValueGraph

/-!
# What moves leave as it is

As long as a node is there it is of one sort and has one type.  Moves that add no
node only let handles go, and moves that take no node away only let them come; the
nodes that are there before and after are what they were.
-/

variable {u : ValueId} {e : EdgeId} {i : InstId} {d : Edge} {kind : InstKind} {r : Program}
  {ty : TypeId}

namespace Program

variable {p q : Program} {pr : Promise} {v : ValueId}

/-- Nodes that list operands are there. -/
theorem isLive_of_mem_operandsOf (mem : e ∈ p.operandsOf u) : p.isLive u = true := by
  cases h : p.values.get? u with
  | none => simp [operandsOf, h] at mem
  | some n => exact Arena.contains_iff_get?.mpr ⟨n, h⟩

/-- A node is what it was. -/
structure SameSort (before after : Program) (value : ValueId) : Prop where
  types : after.type? value = before.type? value
  shells : after.shell? value = before.shell? value
  blocks : after.isBlock value = before.isBlock value
  globals : after.isGlobal value = before.isGlobal value
  contents : after.constantOf? value = before.constantOf? value
  registers : after.register? value = before.register? value

namespace SameSort

theorem refl (s : Program) (v : ValueId) : s.SameSort s v :=
  ⟨rfl, rfl, rfl, rfl, rfl, rfl⟩

theorem trans (earlier : p.SameSort q v) (later : q.SameSort r v) : p.SameSort r v where
  types := later.types.trans earlier.types
  shells := later.shells.trans earlier.shells
  blocks := later.blocks.trans earlier.blocks
  globals := later.globals.trans earlier.globals
  contents := later.contents.trans earlier.contents
  registers := later.registers.trans earlier.registers

/-- The node behind a handle is the same in all that does not change with edges and
handles. -/
theorem of_node
    (eq : (q.values.get? v).map (fun n => (n.type, n.payload)) =
      (p.values.get? v).map (fun n => (n.type, n.payload))) : p.SameSort q v := by
  have pls : q.payload? v = p.payload? v := by
    have projected := congrArg (Option.map Prod.snd) eq
    simpa [payload?, Option.map_map, comp_def] using projected
  have types : q.type? v = p.type? v := by
    have projected := congrArg (Option.map Prod.fst) eq
    simpa [type?, Option.map_map, comp_def] using projected
  constructor
  · exact types
  all_goals
    simp only [shell?, inst?, isBlock, isGlobal, constantOf?_eq_bind, register?_eq_bind, pls]

theorem constants (eq : p.SameSort q v) : q.isConstant v = p.isConstant v := by
  simp only [isConstant_eq_constantOf?, eq.contents]

theorem rule? (eq : p.SameSort q v) (slot : Slot) : q.rule? v slot = p.rule? v slot := by
  rw [Program.rule?, Program.rule?, eq.globals, eq.shells]

theorem meets {rule : Rule} (eq : p.SameSort q v) (t : p.types.Extends q.types)
    (meets : p.Meets v rule) : q.Meets v rule :=
  meets.mono (by simp only [isRegister_eq, eq.registers]) eq.constants eq.types t

end SameSort

/-! ### Moves that add no node -/

/-- Nodes may go; those that are left are what they were. -/
structure Wanes (before after : Program) : Prop where
  shrinks : before.values.Shrinks after.values
  table : before.types.Extends after.types
  sorts : ∀ value, after.isLive value = true → before.SameSort after value

namespace Wanes

theorem refl (s : Program) : s.Wanes s :=
  ⟨.refl _, .refl _, fun v _ => .refl s v⟩

theorem trans (earlier : p.Wanes q) (later : q.Wanes r) : p.Wanes r where
  shrinks := earlier.shrinks.trans later.shrinks
  table := earlier.table.trans later.table
  sorts v live := (earlier.sorts v (later.shrinks.contains v live)).trans (later.sorts v live)

theorem isLive (wanes : p.Wanes q) (live : q.isLive v = true) : p.isLive v = true :=
  wanes.shrinks.contains v live

end Wanes

theorem Rewires.wanes (rew : p.Rewires q) : p.Wanes q where
  shrinks := rew.shrinks
  table := by
    rw [types_eq_of_surroundings rew.surroundings]
    exact .refl _
  sorts v live :=
    { types := rew.types v live
      shells := by rw [rew.skeleton.shell?]
      blocks := by rw [rew.skeleton.isBlock]
      globals := by rw [rew.skeleton.isGlobal]
      contents := rew.contents v live
      registers := by rw [rew.skeleton.register?] }

theorem SameWiring.shrinks (same : p.SameWiring q) : p.values.Shrinks q.values :=
  .of_same same.isLive (congrFun same.generations)

theorem Reforms.wanes (reforms : p.Reforms q) : p.Wanes q where
  shrinks := reforms.shrinks
  table := by
    rw [types_eq_of_surroundings reforms.surroundings]
    exact .refl _
  sorts v _ :=
    { types := by rw [reforms.types]
      shells := by rw [reforms.shells]
      blocks := by rw [reforms.blocks]
      globals := by rw [isGlobal_eq, isGlobal_eq, reforms.globals]
      contents := by rw [reforms.contents]
      registers := by rw [reforms.registers] }

theorem Relabels.wanes (lab : p.Relabels q) : p.Wanes q where
  shrinks := lab.shrinks
  table := lab.table
  sorts v _ :=
    { types := by rw [lab.types]
      shells := by rw [lab.shell?]
      blocks := by rw [lab.isBlock]
      globals := by rw [lab.globals]
      contents := by rw [lab.contents]
      registers := by rw [lab.registers] }

theorem Retained.wanes (retained : p.Retained q v) : p.Wanes q where
  shrinks := by
    refine .of_same (fun hd => ?_) (congrFun retained.generations)
    rw [Bool.eq_iff_iff, Arena.contains_iff_get?, Arena.contains_iff_get?, retained.nodes]
  table := by
    rw [retained.others]
    exact .refl _
  sorts other _ := .of_node (by rw [retained.nodes])

theorem Dropped.wanes (drop : p.Dropped q v) : p.Wanes q where
  shrinks := drop.shrinks
  table := by
    rw [types_eq_of_surroundings drop.surroundings]
    exact .refl _
  sorts other live := by
    obtain ⟨n, h⟩ := Arena.contains_iff_get?.mp live
    exact .of_node (by rw [h, drop.node_before h])

theorem Wrecks.wanes (wrecks : p.Wrecks q) : p.Wanes q := by
  cases wrecks with
  | detach i reth => exact reth.wanes
  | strip i l h st rem => exact rem.rewires.wanes
  | mark i l st stripped relink => exact relink.restrings.wanes
  | drop i l h fin dropped => exact dropped.wanes

theorem Wrecked.wanes (wrecked : Wrecked p q) : p.Wanes q := by
  induction wrecked with
  | refl => exact .refl _
  | tail _ last ih => exact ih.trans last.wanes

theorem Redraws.rewires (redraws : p.Redraws pr q) : p.Rewires q := by
  cases redraws with
  | connect e d joins => exact joins.added.rewires
  | rebind e d new moved => exact moved.rewires
  | unread u k e d mem h optional rem => exact rem.rewires
  | clear g hg rem => exact rem.rewires

theorem Shapes.wanes (shapes : p.Shapes pr q) : p.Wanes q := by
  cases shapes with
  | raze razed => exact Wrecked.wanes razed.wrecked
  | relabel lab => exact lab.wanes
  | retain v retained => exact retained.wanes
  | drop v dropped => exact dropped.wanes
  | redraw redraws => exact redraws.rewires.wanes
  | thread threads reth => exact reth.wanes
  | resettle settle => exact settle.wanes

theorem Shrunk.wanes (shrunk : Shrunk pr p q) : p.Wanes q := by
  induction shrunk with
  | refl => exact .refl _
  | tail _ last ih => exact ih.trans last.wanes

/-- Operands may go; those that are left are what they were. -/
structure Sheds (before after : Program) : Prop where
  operands : ∀ user, (after.operandsOf user).Sublist (before.operandsOf user)
  wires : ∀ edge data, after.wire? edge = some data → before.wire? edge = some data

theorem Sheds.of_same (ops : q.operandsOf = p.operandsOf) (edges : q.edges = p.edges) :
    p.Sheds q where
  operands u := by rw [ops]
  wires e d held := by rwa [wire?, ← edges]

theorem OperandsRemoved.sheds {kept gone : List EdgeId} {cut : Option (BlockId × BlockId)}
    (rem : p.OperandsRemoved q u kept gone cut) (fewer : kept.Sublist (p.operandsOf u)) :
    p.Sheds q where
  operands other := by
    rw [rem.operands, update_apply]
    split
    next eq => exact eq ▸ fewer
    next => exact .refl _
  wires e d h := by
    rw [rem.wires] at h
    split at h
    · cases h
    · exact h

theorem Shapes.sheds_or_redraws (shapes : p.Shapes pr q) (hs : p.Sound) :
    p.Sheds q ∨ p.Redraws pr q := by
  cases shapes with
  | raze razed =>
    have dw := razed.dwindles hs
    exact Or.inl ⟨dw.operands, dw.wires⟩
  | relabel lab => exact Or.inl (.of_same lab.operands lab.edges)
  | retain v retained =>
    refine Or.inl (.of_same ?_ retained.edges)
    funext other
    simp only [operandsOf, retained.nodes]
  | drop v dropped =>
    refine Or.inl ⟨fun u => ?_, fun e d h => by rwa [wire?, ← dropped.edges]⟩
    cases h : q.values.get? u with
    | none => simp [operandsOf, h]
    | some n => rw [operandsOf_eq h, operandsOf_eq (dropped.node_before h)]
  | redraw redraws => exact Or.inr redraws
  | thread threads reth => exact Or.inl (.of_same reth.operands reth.edges)
  | resettle settle => exact Or.inl (.of_same settle.operands settle.edges)

/-! ### Moves that take no node away -/

/-- Nodes may come; those that were there are what they were. -/
structure Waxes (before after : Program) : Prop where
  grows : before.values.Grows after.values
  table : before.types.Extends after.types
  sorts : ∀ value, before.isLive value = true → before.SameSort after value

namespace Waxes

theorem refl (s : Program) : s.Waxes s :=
  ⟨.refl _, .refl _, fun v _ => .refl s v⟩

theorem trans (earlier : p.Waxes q) (later : q.Waxes r) : p.Waxes r where
  grows := earlier.grows.trans later.grows
  table := earlier.table.trans later.table
  sorts v live := (earlier.sorts v live).trans (later.sorts v (earlier.grows.contains v live))

theorem isLive (waxes : p.Waxes q) (live : p.isLive v = true) : q.isLive v = true :=
  waxes.grows.contains v live

end Waxes

theorem Wanes.waxes (wanes : p.Wanes q) (grows : p.values.Grows q.values) : p.Waxes q :=
  ⟨grows, wanes.table, fun v live => wanes.sorts v (grows.contains v live)⟩

theorem Added.waxes {payload : Payload} (added : p.Added q v ty payload) : p.Waxes q where
  grows := added.grows
  table := by
    rw [types_eq_of_surroundings added.surroundings]
    exact .refl _
  sorts value live := by
    have ne : value ≠ v := by
      rintro rfl
      obtain ⟨n, h⟩ := Arena.contains_iff_get?.mp live
      simp [added.fresh] at h
    exact .of_node (by rw [added.nodes, update_of_ne ne])

theorem Joins.waxes (joins : p.Joins q e d) (hs : p.Sound) : p.Waxes q :=
  joins.added.rewires.wanes.waxes (joins.added.grows hs.stored)

theorem Joined.waxes (joined : Joined u p q) (hs : p.Sound) : p.Waxes q := by
  induction joined with
  | refl => exact .refl _
  | tail earlier last ih =>
    obtain ⟨_, _, joins, -⟩ := last
    exact ih.trans (joins.waxes (Joined.sound earlier hs))

/-- Edges that are added one after another are operands of their user alone. -/
theorem Joined.others {value : ValueId} (joined : Joined u p q) (ne : value ≠ u) :
    q.operandsOf value = p.operandsOf value := by
  induction joined with
  | refl => rfl
  | tail earlier last ih =>
    obtain ⟨_, d, joins, rfl⟩ := last
    rw [joins.added.operands, update_of_ne ne, ih]

/-- Edges that are added one after another leave those that were there. -/
theorem Joined.wires (joined : Joined u p q) (h : p.wire? e = some d) : q.wire? e = some d := by
  induction joined with
  | refl => exact h
  | tail earlier last ih =>
    obtain ⟨added, _, joins, -⟩ := last
    have ne : e ≠ added := by
      rintro rfl
      simp [joins.added.fresh] at ih
    rw [joins.added.wires, update_of_ne ne, ih]

theorem Built.sound_started {started : Program} (built : p.Built q i ty kind)
    (added : p.Added started i ty (.inst (Inst.fresh kind))) (hs : p.Sound) : started.Sound :=
  hs.of_added added ⟨kind, rfl⟩ built.registered (by simp [Payload.category])

theorem Built.waxes (built : p.Built q i ty kind) (hs : p.Sound) : p.Waxes q := by
  obtain ⟨started, added, joined⟩ := built.added
  exact added.waxes.trans (Joined.waxes joined (built.sound_started added hs))

theorem Raises.waxes (raises : p.Raises pr q) (hs : p.Sound) : p.Waxes q := by
  cases raises with
  | grow v ty payload added => exact added.waxes
  | build i ty kind built => exact built.waxes hs
  | shape shapes grows => exact shapes.wanes.waxes grows

theorem Grown.waxes (grown : Grown pr p q) (hs : p.Sound) : p.Waxes q := by
  induction grown with
  | refl => exact .refl _
  | tail earlier last ih =>
    exact ih.trans (last.waxes (Grown.sound earlier hs))

end Program

end ValueGraph
