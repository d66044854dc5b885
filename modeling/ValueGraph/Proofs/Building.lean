import Mathlib
import ValueGraph.Proofs.Accounts

open Function

namespace ValueGraph

open Program List Option

/-!
# Building instructions

A new instruction stands nowhere and gets its operands one after another.  In the
end it conforms, because its factory has looked at the operands before.
-/

variable {kind : InstKind} {placed : List Slot} {slot : Slot} {p q : Program} {i : InstId}
  {ops : List (Slot × ValueId)} {ty : TypeId} {facets : List Facet}

/-- While the operands of an instruction are added one by one their places are among
those that its kind admits. -/
theorem InstKind.Lays.admits {rest : List Slot} (lays : kind.Lays (placed ++ rest)) :
    kind.shell.Admits (placed.map Slot.outline) := by
  cases kind with
  | switch cases =>
    simp only [InstKind.Lays] at lays
    have inSlots : ∀ slot ∈ placed, slot = .fixed 0 ∨ slot = .fixed 1 ∨
        ∃ pos, slot = .indexed pos := by
      intro slot mem
      have inAll : slot ∈ placed ++ rest := mem_append_left _ mem
      rw [lays] at inAll
      simp only [List.mem_cons, List.mem_map] at inAll
      rcases inAll with first | second | ⟨pos, -, isIndexed⟩
      · exact Or.inl first
      · exact Or.inr (Or.inl second)
      · exact Or.inr (Or.inr ⟨pos, isIndexed.symm⟩)
    constructor
    · intro b mem
      obtain ⟨slot, inPlaced, isKeyed⟩ := mem_map.mp mem
      rcases inSlots slot inPlaced with rfl | rfl | ⟨_, rfl⟩ <;> simp [Slot.outline] at isKeyed
    · intro slot mem
      rw [← map_tail] at mem
      obtain ⟨place, inTail, rfl⟩ := mem_map.mp mem
      have inAll : place ∈ (placed ++ rest).tail := by
        cases placed with
        | nil => simp at inTail
        | cons _ _ => exact mem_append_left _ inTail
      rw [lays] at inAll
      simp only [List.tail_cons, List.mem_cons, List.mem_map] at inAll
      rcases inAll with rfl | ⟨_, -, rfl⟩ <;> rfl
  | regWrite =>
    simp only [InstKind.Lays] at lays
    have places : placed <+: [.fixed 0, .fixed 1] := ⟨rest, lays⟩
    exact places.map Slot.outline
  | ret =>
    simp only [InstKind.Lays] at lays
    have places : placed <+: [.fixed 0] := by
      rcases lays with isEmpty | isOne
      · rw [(append_eq_nil_iff.mp isEmpty).1]
        exact nil_prefix
      · exact ⟨rest, isOne⟩
    exact places.map Slot.outline
  | _ => trivial

/-- The places of the operands that a new instruction of some kind comes with; a phi comes
without entries, a switch without cases. -/
def InstKind.Opens (slots : List Slot) : InstKind → Prop
  | .phi => slots = []
  | .switch cases => cases = [] ∧ slots = [.fixed 0, .fixed 1]
  | kind => kind.Lays slots

namespace InstKind.Opens

variable {slots : List Slot}

theorem lays (opens : kind.Opens slots) : kind.Lays slots := by
  cases kind with
  | phi => exact ⟨[], nodup_nil, opens⟩
  | switch cases =>
    obtain ⟨rfl, rfl⟩ := opens
    rfl
  | _ => exact opens

theorem differ (opens : kind.Opens slots) (cases : List Int64) (hsw : kind = .switch cases) :
    cases.Nodup := by
  subst hsw
  rw [opens.1]
  exact nodup_nil

theorem unkeyed (opens : kind.Opens slots) (mem : slot ∈ slots) (b : BlockId) :
    slot ≠ .keyed b := by
  rintro rfl
  cases kind with
  | elementPtr | call =>
    obtain ⟨count, rfl⟩ := opens.lays
    simp at mem
  | ret => rcases opens with rfl | rfl <;> simp at mem
  | switch cases =>
    obtain ⟨-, rfl⟩ := opens
    simp at mem
  | _ =>
    cases opens
    simp at mem

end InstKind.Opens

namespace Step

variable {a : Unit}

theorem addOperands_joined (hs : p.Sound) (hKind : p.kind? i = some kind)
    (loose : p.home? i = none) (slots : p.slotsOf i = placed.map Slot.outline)
    (lays : kind.Lays (placed ++ ops.map (·.1))) (unkeyed : ∀ op ∈ ops, ∀ b, op.1 ≠ .keyed b)
    (run : (ops.forM fun (slot, v) => addOperand i slot v).run p = .ok (a, q)) :
    Program.Joined i p q ∧ p.Rewires q ∧ q.kind? = p.kind? ∧ p.values.Grows q.values ∧
      (q.operandsOf i).map q.edges.get? = (p.operandsOf i).map p.edges.get? ++
          ops.map fun (slot, v) => some { user := i, value := v, slot } := by
  induction ops generalizing p placed with
  | nil =>
    obtain rfl := run_forM_nil.mp run
    exact ⟨.refl, .refl _, rfl, .refl _, by simp⟩
  | cons op rest ih =>
    obtain ⟨slot, v⟩ := op
    obtain ⟨m, run1, run'⟩ := run_forM_cons.mp run
    obtain ⟨e, added, kinds⟩ := addOperand_spec hs.stored run1
    have apart : p.flowSource? i slot = none := by
      rw [flowSource?, loose]
      cases p.shell? i <;> simp
    have hShell : p.shell? i = some kind.shell := by
      rw [shell?_eq_kind?]
      simp [hKind]
    have hi : p.isInst i = true := by
      rw [isInst_eq]
      obtain ⟨d, h, -⟩ := map_eq_some_iff.mp hKind
      simp [link?, h]
    have laysHere : kind.Lays ((placed ++ [slot]) ++ rest.map (·.1)) := by simpa using lays
    have joins : p.Joins m e { user := i, value := v, slot } :=
      { added := by rw [apart]; exact added
        reads := Or.inl hi
        admits := fun shell again => by
          obtain rfl := mem_unique hShell again
          rw [slots]
          simpa using laysHere.admits
        leads := fun leads => absurd apart leads
        keyed := fun b isKeyed => absurd isKeyed (unkeyed (slot, v) (by simp) b) }
    have hEdge : m.edges.get? = update p.edges.get? e
      (some { user := i, value := v, slot }) := added.edges
    have listed : m.operandsOf i = p.operandsOf i ++ [e] := by
      rw [added.operands, update_self]
    have slotsMiddle : m.slotsOf i = (placed ++ [slot]).map Slot.outline := by
      rw [Laid.slotsOf_edgeAdded hs.wired added, if_pos rfl, slots]
      simp
    obtain ⟨joined, rew, kindsRest, growsRest, edges⟩ :=
      ih (joins.sound hs) (by rw [kinds, hKind])
        (by rw [added.rewires.skeleton.home?, loose]) slotsMiddle laysHere
        (fun op mem => unkeyed op (by simp [mem])) run'
    refine ⟨.head ⟨e, _, joins, rfl⟩ joined, added.rewires.trans rew,
      kindsRest.trans kinds, (added.grows hs.stored).trans growsRest, ?_⟩
    have keptEdges : (p.operandsOf i).map m.edges.get? = (p.operandsOf i).map p.edges.get? := by
      refine map_congr_left fun edge mem => ?_
      obtain ⟨_, h, -⟩ := hs.wired.own i edge mem
      have ne : edge ≠ e := by
        rintro rfl
        simp [added.fresh] at h
      rw [hEdge, update_of_ne ne]
    rw [edges, listed, map_append, keptEdges]
    simp [hEdge]

end Step

namespace Program

variable {u : InstId}

theorem Joined.rewires (joined : Joined u p q) : p.Rewires q := by
  induction joined with
  | refl => exact .refl _
  | tail _ last ih =>
    obtain ⟨_, _, joins, -⟩ := last
    exact ih.trans joins.added.rewires

/-- A new instruction stands nowhere, and all others stand where they did. -/
theorem Built.link? (built : p.Built q i ty kind) :
    q.link? = update p.link? i (some (Inst.fresh kind).link) := by
  obtain ⟨started, added, joined⟩ := built.added
  rw [joined.rewires.skeleton.link?, added.exchanged.link?]
  rfl

/-- A new instruction stands in no chain. -/
theorem Built.chains {chain : BlockId → List InstId} (built : p.Built q i ty kind)
    (chains : p.Chains chain none) : q.Chains chain none := by
  obtain ⟨started, added, joined⟩ := built.added
  have skeleton := joined.rewires.skeleton
  exact (added.chains chains ⟨kind, rfl⟩).of_same skeleton.link? skeleton.ends?

theorem Built.seat? (built : p.Built q i ty kind) : q.seat? = update p.seat? i none := by
  obtain ⟨started, added, joined⟩ := built.added
  rw [joined.rewires.skeleton.seat?, added.exchanged.seat?]
  rfl

/-- A new instruction is no function. -/
theorem Built.function? (built : p.Built q i ty kind) : q.function? = p.function? := by
  obtain ⟨started, added, joined⟩ := built.added
  rw [joined.rewires.skeleton.function?, added.exchanged.function?]
  refine update_eq_self_iff.mpr ?_
  simp [Program.function?, added.payload?_eq_none, Payload.function?]

theorem Built.shell? (built : p.Built q i ty kind) :
    q.shell? = update p.shell? i (some kind.shell) := by
  obtain ⟨started, added, joined⟩ := built.added
  rw [joined.rewires.skeleton.shell?, added.exchanged.shell?]
  rfl

theorem Built.fresh (built : p.Built q i ty kind) : p.values.get? i = none := by
  obtain ⟨_, added, -⟩ := built.added
  exact added.fresh

theorem facet?_of_built {started : Program} {v : ValueId} {facet : Facet}
    (added : p.Added started i ty (.inst (Inst.fresh kind))) (rew : started.Rewires q)
    (grows : started.values.Grows q.values) (seen : p.facet? slot v = some facet) :
    q.facet? slot v = some facet := by
  obtain ⟨type, h, rfl⟩ := map_eq_some_iff.mp seen
  obtain ⟨n, hNode, -⟩ := map_eq_some_iff.mp h
  have ne : v ≠ i := by
    rintro rfl
    simp [added.fresh] at hNode
  have live : started.isLive v = true := by
    refine Arena.contains_iff_get?.mpr ⟨n, ?_⟩
    rw [added.nodes, update_of_ne ne, hNode]
  have sameType : q.type? v = some type := by
    rw [rew.types v (grows.contains v live), added.type?, update_of_ne ne, h]
  have sameBlock : q.isBlock v = p.isBlock v := by
    rw [rew.skeleton.isBlock, isBlock, isBlock, added.exchanged.category_of_ne ne]
  rw [facet?, sameType, sameBlock, map_some]

theorem slots_of_seen (seen : ops.map (fun op => p.facet? op.1 op.2) = facets.map some) :
    facets.map (·.slot) = ops.map (·.1) := by
  induction ops generalizing facets with
  | nil => simp_all
  | cons op rest ih =>
    cases facets with
    | nil => simp at seen
    | cons facet others =>
      simp only [map_cons, cons.injEq] at seen ⊢
      obtain ⟨_, -, isFacet⟩ := map_eq_some_iff.mp seen.1
      exact ⟨by rw [← isFacet], ih seen.2⟩

end Program

namespace Step

theorem addInst_built (hs : p.Sound) (reg : p.types.Registered ty)
    (seen : ops.map (fun op => p.facet? op.1 op.2) = facets.map some)
    (accepts : kind.Accepts p.types ty facets) (unkeyed : ∀ op ∈ ops, ∀ b, op.1 ≠ .keyed b)
    (rules : ∀ op ∈ ops, ∀ rule, kind.rule? op.1 = some rule → p.Meets op.2 rule)
    (run : (addInst ty kind ops).run p = .ok (i, q)) :
    p.Built q i ty kind ∧ (q.operandsOf i).map q.edges.get? =
        ops.map fun (slot, v) => some { user := i, value := v, slot } := by
  unfold addInst at run
  simp only [run_bind, run_pure] at run
  obtain ⟨i, started, runAdd, _, q, runOperands, rfl, rfl⟩ := run
  have added := addNode_spec hs.stored runAdd
  have hsStarted := hs.of_added added ⟨kind, rfl⟩ reg (by simp [Payload.category])
  have hInst : started.inst? i = some (Inst.fresh kind) := by
    rw [Program.inst?, show started.payload? = _ from added.exchanged, update_self]
    rfl
  have hKind : started.kind? i = some kind := by
    rw [kind?, hInst]
    rfl
  have loose : started.home? i = none := by
    rw [home?, link?, hInst]
    rfl
  have bare : started.operandsOf i = [] := by
    rw [added.operandsOf, operandsOf, added.fresh]
    rfl
  obtain ⟨joined, rew, kinds, grows, edges⟩ := addOperands_joined hsStarted hKind loose
    (by rw [slotsOf, bare, map_nil, map_nil])
    (by rw [nil_append, ← slots_of_seen seen]; exact accepts.lays) unkeyed runOperands
  rw [bare, map_nil, nil_append] at edges
  have tables : q.types = p.types := by
    rw [types_eq_of_surroundings rew.surroundings, types_eq_of_surroundings added.surroundings]
  have hKindAfter : q.kind? i = some kind := by rw [kinds, hKind]
  refine ⟨⟨⟨started, added, joined⟩, reg, ⟨kind, ty, facets, hKindAfter, ?_, ?_, ?_⟩, ?_⟩, edges⟩
  · rw [rew.type?_of_kind? hKindAfter, added.type?, update_self]
  · have shown : (q.operandsOf i).map q.edgeFacet? = ((q.operandsOf i).map q.edges.get?).map
          (·.bind fun d => q.facet? d.slot d.value) := by
      rw [List.map_map]
      rfl
    rw [shown, edges, ← seen, List.map_map]
    refine map_congr_left fun op mem => ?_
    have inSeen : p.facet? op.1 op.2 ∈ facets.map some := by
      rw [← seen]
      exact mem_map_of_mem mem
    obtain ⟨facet, -, isFacet⟩ := mem_map.mp inSeen
    rw [← isFacet]
    exact facet?_of_built added rew grows isFacet.symm
  · rw [tables]
    exact accepts
  · intro e d rule mem hEdge asks
    obtain ⟨full, hFull, rfl⟩ := map_eq_some_iff.mp hEdge
    have listed := mem_map_of_mem (f := q.edges.get?) mem
    rw [edges, hFull] at listed
    obtain ⟨op, inOperands, isFull⟩ := mem_map.mp listed
    obtain rfl := some.inj isFull
    rw [Edge.outline, InstKind.rule?_outline] at asks
    have meets := (rules op inOperands rule asks).of_added added
    exact (rew.meets_iff (grows.contains op.2 meets.isLive)).mpr meets

end Step

end ValueGraph
