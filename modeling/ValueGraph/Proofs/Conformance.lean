import Mathlib
import ValueGraph.Proofs.Lifetimes

open Function

namespace ValueGraph

open List Option

/-!
# Conformance

An instruction conforms when its operands have the places that its kind lays out,
when its own type and the types of its operands obey the rule of its kind, and when
its targets are blocks.  It goes on to conform as long as each operand is replaced
at most by one with an equal type, a block by a block.
-/

variable {src : BlockId} {count gap pos k : Nat} {v u : ValueId} {e : EdgeId} {d : Edge}
  {home : Option BlockId} {cases : List Int64} {own ty : TypeId} {facets : List Facet}
  {kind : InstKind} {p q : Program} {i : InstId} {facet : Facet}

/-- What an instruction sees of an operand. -/
structure Facet where
  slot : Slot
  type : TypeId
  isBlock : Bool
deriving DecidableEq

/-- Operands that an instruction of some kind and type can have. -/
structure InstKind.Accepts
    (types : TypeTable)
    (own : TypeId)
    (facets : List Facet)
    (kind : InstKind) : Prop where
  lays : kind.Lays (facets.map (·.slot))
  fits : kind.Fits types own (facets.map (·.type))
  targets : ∀ facet ∈ facets, kind.isTargetSlot facet.slot = true → facet.isBlock = true
  differ : ∀ cases, kind = .switch cases → cases.Nodup

/-- An operand that can stand in the place of another. -/
structure Facet.Stands (earlier later : TypeTable) (old new : Facet) : Prop where
  slot : new.slot = old.slot
  type : earlier.Alike later old.type new.type
  isBlock : old.isBlock = true → new.isBlock = true

/-- Operands that stand in the places of others are accepted with them. -/
theorem InstKind.Accepts.congr {t t' : TypeTable} {others : List Facet} (grows : t.Extends t')
    (lay : t.Layered) (reg : t.Registered own)
    (builtin : t.Registered .bool) (stands : List.Forall₂ (Facet.Stands t t') facets others)
    (accepts : kind.Accepts t own facets) : kind.Accepts t' own others := by
  have sameSlots : others.map (·.slot) = facets.map (·.slot) := by
    clear accepts
    induction stands with
    | nil => rfl
    | cons first _ ih => simp [first.slot, ih]
  constructor
  case lays =>
    rw [sameSlots]
    exact accepts.lays
  case fits =>
    refine accepts.fits.congr grows lay reg builtin ?_
    rw [forall₂_map_left_iff, forall₂_map_right_iff]
    exact stands.imp fun _ _ => Facet.Stands.type
  case targets =>
    intro facet mem ht
    obtain ⟨k, lt, rfl⟩ := getElem_of_mem mem
    have inBoundsOld : k < facets.length := stands.length_eq ▸ lt
    have standsHere := stands.get inBoundsOld lt
    refine standsHere.isBlock (accepts.targets _ (getElem_mem inBoundsOld) ?_)
    rw [← standsHere.slot]
    exact ht
  case differ => exact accepts.differ

namespace Program

/-- What the user of an edge sees of the value behind it, at the place of the edge. -/
def facet? (program : Program) (slot : Slot) (value : ValueId) : Option Facet :=
  (program.type? value).map fun type => { slot, type, isBlock := program.isBlock value }

/-- What the user of an edge sees of it. -/
def edgeFacet? (program : Program) (edge : EdgeId) : Option Facet :=
  (program.edges.get? edge).bind fun data => program.facet? data.slot data.value

/-- An instruction has operands that its kind and type accept. -/
def Conforms (program : Program) (inst : InstId) : Prop :=
  ∃ kind own facets, program.kind? inst = some kind ∧ program.type? inst = some own ∧
    (program.operandsOf inst).map program.edgeFacet? = facets.map some ∧
    kind.Accepts program.types own facets

/-- A handle names an instruction that is not finalized. -/
def Ongoing (program : Program) (inst : InstId) : Prop :=
  ∃ link, program.link? inst = some link ∧ link.status ≠ .finalized

/-- Every instruction that is not finalized conforms. -/
def WellTyped (program : Program) : Prop :=
  ∀ inst, program.Ongoing inst → program.Conforms inst

/-! ### Instructions that stay what they are -/

/-- An instruction keeps its kind and its type, and each of its operands stands in the place
of what it was. -/
structure Resembles (before after : Program) (inst : InstId) : Prop where
  kind : after.kind? inst = before.kind? inst
  own : after.type? inst = before.type? inst
  operands : ∀ facets, (before.operandsOf inst).map before.edgeFacet? = facets.map some →
    ∃ others, (after.operandsOf inst).map after.edgeFacet? = others.map some ∧
      List.Forall₂ (Facet.Stands before.types after.types) facets others

/-- What keeps its kind, its type and its edges stays what it is when each operand stands
for what it was. -/
theorem Resembles.of_stands (kind : q.kind? i = p.kind? i) (own : q.type? i = p.type? i)
    (ops : q.operandsOf i = p.operandsOf i)
    (stands : ∀ e ∈ p.operandsOf i, ∀ facet, p.edgeFacet? e = some facet →
      ∃ new, q.edgeFacet? e = some new ∧ Facet.Stands p.types q.types facet new) :
    p.Resembles q i where
  kind := kind
  own := own
  operands facets readFacets := by
    rw [ops]
    clear ops
    generalize p.operandsOf i = edges at readFacets stands
    induction edges generalizing facets with
    | nil => exact ⟨[], rfl, by simp_all⟩
    | cons e rest ih =>
      obtain ⟨facet, behind, rfl, seen, readRest⟩ := map_eq_cons_iff.mp readFacets.symm
      obtain ⟨new, seenNew, standsNew⟩ := stands e (by simp) facet seen.symm
      obtain ⟨others, readOthers, standsOthers⟩ := ih behind readRest.symm
        fun edge mem => stands edge (by simp [mem])
      exact ⟨new :: others, by simp [seenNew, readOthers], .cons standsNew standsOthers⟩

/-- An instruction that stays what it is goes on to conform. -/
theorem Conforms.of_resembles (conf : p.Conforms i) (registry : p.Registry)
    (grows : p.types.Extends q.types) (resembles : p.Resembles q i) : q.Conforms i := by
  obtain ⟨kind, own, facets, isKind, isOwn, readFacets, accepts⟩ := conf
  obtain ⟨others, readOthers, standing⟩ := resembles.operands facets readFacets
  refine ⟨kind, own, others, resembles.kind.trans isKind, resembles.own.trans isOwn, readOthers,
    accepts.congr grows registry.layered (registry.nodes i own isOwn) ?_ standing⟩
  exact registry.builtin (by decide)

/-- A value that keeps its type, and stays a block if it is one, stands for itself. -/
theorem stands_of_kept {slot : Slot} (registry : p.Registry) (grows : p.types.Extends q.types)
    (types : q.type? v = p.type? v) (blocks : p.isBlock v = true → q.isBlock v = true)
    (seen : p.facet? slot v = some facet) :
    ∃ new, q.facet? slot v = some new ∧ Facet.Stands p.types q.types facet new := by
  obtain ⟨type, h, rfl⟩ := map_eq_some_iff.mp seen
  refine ⟨{ slot, type, isBlock := q.isBlock v }, ?_, rfl, ?_, blocks⟩
  · rw [facet?, types, h, map_some]
  · exact .of_extends grows registry.layered (registry.nodes v type h)

/-- An instruction stays what it is when its edges lead where they did, to values that keep
their types. -/
theorem Resembles.of_kept (registry : p.Registry) (grows : p.types.Extends q.types)
    (kind : q.kind? i = p.kind? i) (own : q.type? i = p.type? i)
    (ops : q.operandsOf i = p.operandsOf i)
    (kept : ∀ e ∈ p.operandsOf i, ∀ d, p.edges.get? e = some d →
      q.edges.get? e = some d ∧ q.type? d.value = p.type? d.value ∧
        (p.isBlock d.value = true → q.isBlock d.value = true)) : p.Resembles q i := by
  refine .of_stands kind own ops fun e mem facet seen => ?_
  obtain ⟨d, h, seenValue⟩ := bind_eq_some_iff.mp seen
  obtain ⟨hAfter, types, blocks⟩ := kept e mem d h
  rw [edgeFacet?, hAfter, bind_some]
  exact stands_of_kept registry grows types blocks seenValue

/-! ### Returned values -/

/-- An instruction that returns to a function of some type returns what the function does. -/
def Returns (program : Program) (type : TypeId) (inst : InstId) : Prop :=
  program.kind? inst = some .ret → ∃ (result : TypeId) (facets : List Facet),
    program.types.Yields type result ∧
    (program.operandsOf inst).map program.edgeFacet? = facets.map some ∧
    program.types.Returned result (facets.map (·.type))

/-- An instruction that stays what it is goes on to return what it did. -/
theorem Returns.of_resembles (returns : p.Returns ty i) (registry : p.Registry)
    (grows : p.types.Extends q.types) (resembles : p.Resembles q i) : q.Returns ty i := by
  intro isRet
  obtain ⟨res, facets, yields, readFacets, returned⟩ := returns (resembles.kind.symm.trans isRet)
  obtain ⟨others, readOthers, standing⟩ := resembles.operands facets readFacets
  have reg := yields.registered registry.layered (registry.builtin (by decide))
  refine ⟨res, others, grows.yields yields, readOthers,
    returned.congr grows registry.layered reg ?_⟩
  rw [forall₂_map_left_iff, forall₂_map_right_iff]
  exact standing.imp fun _ _ => Facet.Stands.type

/-! ### Operands that come and go -/

/-- An edge that is left where it is shows what it did. -/
theorem edgeFacet?_of_rewires (rew : p.Rewires q) (wired : q.Wired) (h : q.edges.get? e = some d) :
    q.edgeFacet? e = p.facet? d.slot d.value := by
  have hWire := wire?_of_get? h
  have live := wired.value_live hWire
  rw [edgeFacet?, h, bind_some, facet?, facet?, rew.types d.value live, rew.skeleton.isBlock]

theorem edgeFacets_of_added (wired : p.Wired) (wiredAfter : q.Wired)
    (added : p.EdgeAdded q e d home)
    (readFacets : (p.operandsOf d.user).map p.edgeFacet? = facets.map some)
    (seen : p.facet? d.slot d.value = some facet) :
    (q.operandsOf d.user).map q.edgeFacet? = (facets ++ [facet]).map some := by
  have hNew : q.edges.get? e = some d := by rw [added.edges, update_self]
  rw [added.operands, update_self, map_append, map_append, ← readFacets]
  congr 1
  · refine map_congr_left fun edge mem => ?_
    obtain ⟨outline, h, -⟩ := wired.own d.user edge mem
    obtain ⟨data, again, -⟩ := map_eq_some_iff.mp h
    have ne : edge ≠ e := by
      rintro rfl
      simp [added.fresh] at h
    have hAfter : q.edges.get? edge = some data := by
      rw [added.edges, update_of_ne ne, again]
    rw [edgeFacet?_of_rewires added.rewires wiredAfter hAfter, edgeFacet?, again, bind_some]
  · simp only [map_cons, map_nil]
    rw [edgeFacet?_of_rewires added.rewires wiredAfter hNew, seen]

end Program

/-- An operand once the operand at some place is gone. -/
def Facet.closing (gone : Slot) (facet : Facet) : Facet :=
  { facet with slot := Slot.closing gone facet.slot }

@[simp]
theorem Facet.closing_keyed (src : BlockId) : Facet.closing (.keyed src) = id := by
  funext facet
  obtain ⟨slot, type, hb⟩ := facet
  cases slot <;> rfl

theorem InstKind.isTargetSlot_switch (cases others : List Int64) (slot : Slot) :
    (InstKind.switch cases).isTargetSlot slot = (InstKind.switch others).isTargetSlot slot := by
  cases slot <;> rfl

theorem InstKind.Lays.eq_phi_of_keyed {slots : List Slot} (lays : kind.Lays slots)
    (keyed : .keyed src ∈ slots) : kind = .phi := by
  cases kind <;> simp only [InstKind.Lays] at lays
  case phi => rfl
  case ret => rcases lays with rfl | rfl <;> simp at keyed
  case elementPtr | call =>
    obtain ⟨count, rfl⟩ := lays
    simp at keyed
  all_goals
    subst lays
    simp at keyed

theorem closeGap_range (lt : gap < count) :
    (List.range count).take gap ++ ((List.range count).drop (gap + 1)).map (fun pos => pos - 1) =
      List.range (count - 1) := by
  refine ext_getElem (by simp; omega) fun k inLeft inRight => ?_
  by_cases ahead : k < gap
  · rw [getElem_append_left (by simp; omega)]
    simp
  · rw [getElem_append_right (by simp; omega)]
    simp
    omega

theorem Slot.map_closing_indexed :
    (((List.range count).drop (gap + 1)).map Slot.indexed).map (Slot.closing (.indexed gap)) =
      (((List.range count).drop (gap + 1)).map fun pos => pos - 1).map Slot.indexed := by
  rw [List.map_map, List.map_map]
  refine map_congr_left fun pos mem => ?_
  obtain ⟨k, lt, rfl⟩ := getElem_of_mem mem
  have beyond : gap < gap + 1 + k := by omega
  simp [Slot.closing, beyond]

namespace InstKind.Accepts

variable {types : TypeTable} {type : TypeId}

theorem phi_append {hb : Bool} (accepts : InstKind.phi.Accepts types own facets)
    (fresh : .keyed src ∉ facets.map (·.slot)) (agrees : types.equal type own = .ok true) :
    InstKind.phi.Accepts types own (facets ++ [{ slot := .keyed src, type, isBlock := hb }]) := by
  obtain ⟨keys, nd, slots⟩ := accepts.lays
  obtain ⟨storable, entries⟩ := accepts.fits
  constructor
  case lays =>
    refine ⟨keys ++ [src], ?_, by simp [slots]⟩
    rw [slots] at fresh
    refine nodup_append.mpr ⟨nd, by simp, ?_⟩
    rintro key mem _ isSource rfl
    rw [mem_singleton.mp isSource] at mem
    exact fresh (mem_map_of_mem mem)
  case fits =>
    refine ⟨storable, fun entry mem => ?_⟩
    rw [map_append, mem_append] at mem
    rcases mem with old | new
    · exact entries entry old
    · rw [map_singleton, mem_singleton] at new
      exact new ▸ agrees
  case targets =>
    intro facet _ ht
    simp [InstKind.isTargetSlot] at ht
  case differ => simp

theorem phi_remove (accepts : InstKind.phi.Accepts types own facets) (k : Nat) :
    InstKind.phi.Accepts types own
      (facets.take k ++ (facets.drop (k + 1)).map (Facet.closing (.keyed src))) := by
  obtain ⟨keys, nd, slots⟩ := accepts.lays
  obtain ⟨storable, entries⟩ := accepts.fits
  rw [Facet.closing_keyed, List.map_id, ← List.eraseIdx_eq_take_drop_succ]
  constructor
  case lays =>
    refine ⟨keys.eraseIdx k, nd.sublist (eraseIdx_sublist _ _), ?_⟩
    rw [← eraseIdx_map, slots, eraseIdx_map]
  case fits =>
    refine ⟨storable, fun entry mem => entries entry ?_⟩
    exact (((eraseIdx_sublist facets k).map _).subset mem)
  case targets =>
    intro facet _ ht
    simp [InstKind.isTargetSlot] at ht
  case differ => simp

theorem switch_append {v : Int64} (accepts : (InstKind.switch cases).Accepts types own facets)
    (fresh : v ∉ cases) : (InstKind.switch (cases ++ [v])).Accepts types own
      (facets ++ [{ slot := .indexed cases.length, type, isBlock := true }]) := by
  have slots := accepts.lays
  obtain ⟨cond, targets, ops, isInt, res⟩ := accepts.fits
  constructor
  case lays =>
    simp only [InstKind.Lays] at slots ⊢
    simp [slots, range_succ]
  case fits => exact ⟨cond, targets ++ [type], by simp [ops], isInt, res⟩
  case targets =>
    intro facet mem ht
    rcases mem_append.mp mem with old | new
    · exact accepts.targets facet old (InstKind.isTargetSlot_switch _ cases _ ▸ ht)
    · rw [mem_singleton.mp new]
  case differ =>
    rintro _ ⟨⟩
    exact nodup_append_comm.mp (nodup_cons.mpr ⟨fresh, accepts.differ cases rfl⟩)

theorem switch_remove (accepts : (InstKind.switch cases).Accepts types own facets)
    (lt : pos < cases.length) :
    (InstKind.switch (cases.eraseIdx pos)).Accepts types own (facets.take (2 + pos) ++
        (facets.drop (2 + pos + 1)).map (Facet.closing (.indexed pos))) := by
  have slots := accepts.lays
  obtain ⟨cond, targets, ops, isInt, res⟩ := accepts.fits
  constructor
  case lays =>
    simp only [InstKind.Lays] at slots ⊢
    have shape : (facets.drop (2 + pos + 1)).map (·.slot) =
        ((range cases.length).drop (pos + 1)).map .indexed := by
      rw [map_drop, slots, show 2 + pos + 1 = pos + 1 + 1 + 1 by omega,
        drop_succ_cons, drop_succ_cons, map_drop]
    have front : (facets.take (2 + pos)).map (·.slot) =
        .fixed 0 :: .fixed 1 :: ((range cases.length).take pos).map .indexed := by
      rw [map_take, slots, show 2 + pos = pos + 1 + 1 by omega,
        take_succ_cons, take_succ_cons, map_take]
    calc
      _ = (facets.take (2 + pos)).map (·.slot) ++
          ((facets.drop (2 + pos + 1)).map (·.slot)).map (Slot.closing (.indexed pos)) := by
        simp [Facet.closing, comp_def]
      _ = _ := by
        rw [shape, front, Slot.map_closing_indexed, length_eraseIdx_of_lt lt, ← closeGap_range lt]
        simp
  case fits =>
    refine ⟨cond, ((facets.take (2 + pos) ++
      (facets.drop (2 + pos + 1)).map (Facet.closing (.indexed pos))).map (·.type)).tail,
      ?_, isInt, res⟩
    cases facets with
    | nil => simp at ops
    | cons first rest =>
      rw [map_cons, cons.injEq] at ops
      rw [show 2 + pos = pos + 1 + 1 by omega]
      simp [ops.1]
  case targets =>
    intro facet mem ht
    rcases mem_append.mp mem with ahead | behind
    · exact accepts.targets facet (mem_of_mem_take ahead)
        (InstKind.isTargetSlot_switch _ cases _ ▸ ht)
    · obtain ⟨old, inDrop, rfl⟩ := mem_map.mp behind
      refine accepts.targets old (mem_of_mem_drop inDrop) ?_
      rw [InstKind.isTargetSlot_switch _ cases, ← InstKind.isTargetSlot_outline] at ht
      simpa [Facet.closing] using ht
  case differ =>
    rintro _ ⟨⟩
    exact (accepts.differ cases rfl).sublist (eraseIdx_sublist _ _)

end InstKind.Accepts

namespace Program

theorem edgeFacets_of_removed {gone : Slot} (wired : p.Wired) (wiredAfter : q.Wired)
    (rew : p.Rewires q) (lt : k < (p.operandsOf u).length)
    (ops : q.operandsOf u = (p.operandsOf u).eraseIdx k)
    (places : ∀ edge ∈ (p.operandsOf u).eraseIdx k, q.edges.get? edge =
      if edge ∈ ((p.operandsOf u).eraseIdx k).drop k then
        (p.edges.get? edge).map (Edge.closing gone)
      else p.edges.get? edge) (readFacets : (p.operandsOf u).map p.edgeFacet? = facets.map some) :
    (q.operandsOf u).map q.edgeFacet? =
      (facets.take k ++ (facets.drop (k + 1)).map (Facet.closing gone)).map some := by
  have nd := wired.nodup u
  have split := eraseIdx_eq_take_drop_succ (p.operandsOf u) k
  have behind : ((p.operandsOf u).eraseIdx k).drop k = (p.operandsOf u).drop (k + 1) := by
    rw [split, drop_append_of_le_length (by simp; omega)]
    simp
  have h : ∀ edge ∈ (p.operandsOf u).eraseIdx k, ∃ data, p.edges.get? edge = some data := by
    intro edge mem
    obtain ⟨_, hWire, -⟩ := wired.own u edge (mem_of_mem_eraseIdx mem)
    obtain ⟨data, again, -⟩ := Option.map_eq_some_iff.mp hWire
    exact ⟨data, again⟩
  have readAhead : ((p.operandsOf u).take k).map p.edgeFacet? =
      (facets.take k).map some := by rw [map_take, readFacets, map_take]
  have readBehind : ((p.operandsOf u).drop (k + 1)).map p.edgeFacet? =
      (facets.drop (k + 1)).map some := by rw [map_drop, readFacets, map_drop]
  rw [ops, split, map_append, map_append, ← readAhead]
  congr 1
  · refine map_congr_left fun edge mem => ?_
    have inRest : edge ∈ (p.operandsOf u).eraseIdx k := by
      rw [split]
      exact mem_append_left _ mem
    obtain ⟨data, again⟩ := h edge inRest
    have ahead : edge ∉ (p.operandsOf u).drop (k + 1) := by
      have disjoint := disjoint_of_nodup_append (split ▸ nd.sublist (eraseIdx_sublist _ _))
      exact fun inDrop => disjoint mem inDrop
    have hAfter := places edge inRest
    rw [behind, if_neg ahead, again] at hAfter
    rw [edgeFacet?_of_rewires rew wiredAfter hAfter, edgeFacet?, again, Option.bind_some]
  · have shown : ((p.operandsOf u).drop (k + 1)).map q.edgeFacet? =
        (((p.operandsOf u).drop (k + 1)).map p.edgeFacet?).map
          (Option.map (Facet.closing gone)) := by
      rw [List.map_map]
      refine map_congr_left fun edge mem => ?_
      have inRest : edge ∈ (p.operandsOf u).eraseIdx k := by
        rw [split]
        exact mem_append_right _ mem
      obtain ⟨data, again⟩ := h edge inRest
      have hAfter := places edge inRest
      rw [behind, if_pos mem, again, Option.map_some] at hAfter
      rw [edgeFacet?_of_rewires rew wiredAfter hAfter, comp_apply, edgeFacet?,
        again, Option.bind_some, facet?, facet?, Option.map_map]
      rfl
    rw [shown, readBehind, List.map_map, List.map_map]
    rfl

theorem isLive_of_inst? {s : Program} {d : Inst} (h : s.inst? i = some d) : s.isLive i = true :=
  isLive_of_payload? (inst?_eq_some_iff.mp h)

/-- An instruction that stays one keeps its type below the skeleton. -/
theorem Rewires.type?_of_kind? {u : InstId} (rew : p.Rewires q) (h : q.kind? u = some kind) :
    q.type? u = p.type? u := by
  obtain ⟨d, hInst, -⟩ := map_eq_some_iff.mp h
  exact rew.types u (isLive_of_inst? hInst)

/-- A phi goes on to conform when it gets an entry for a block that it had none for. -/
theorem Conforms.of_entryAdded {phi : InstId} (conf : p.Conforms phi) (wired : p.Wired)
    (wiredAfter : q.Wired)
    (added : p.EdgeAdded q e { user := phi, value := v, slot := .keyed src } home)
    (kinds : q.kind? = p.kind?) (isPhi : p.kind? phi = some .phi)
    (fresh : ∀ edge ∈ p.operandsOf phi, ∀ d, p.edges.get? edge = some d → d.slot ≠ .keyed src)
    (hType : p.type? v = some ty) (hOwn : p.type? phi = some own)
    (agrees : p.types.equal ty own = .ok true) : q.Conforms phi := by
  obtain ⟨_, _, facets, isKind, isOwn, readFacets, accepts⟩ := conf
  obtain rfl := mem_unique isPhi isKind
  obtain rfl := mem_unique hOwn isOwn
  have isPhiAfter : q.kind? phi = some .phi := by rw [kinds, isPhi]
  have seen : p.facet? (.keyed src) v =
      some { slot := .keyed src, type := ty, isBlock := p.isBlock v } := by
    rw [facet?, hType, map_some]
  refine ⟨.phi, own, _, isPhiAfter, (added.rewires.type?_of_kind? isPhiAfter).trans hOwn,
    edgeFacets_of_added wired wiredAfter added readFacets seen, ?_⟩
  rw [types_eq_of_surroundings added.rewires.surroundings]
  refine accepts.phi_append (fun keyed => ?_) agrees
  obtain ⟨facet, mem, isKeyed⟩ := mem_map.mp keyed
  obtain ⟨edge, inOperands, shown⟩ : ∃ edge ∈ p.operandsOf phi, p.edgeFacet? edge = some facet := by
    have shown : some facet ∈ (p.operandsOf phi).map p.edgeFacet? := by
      rw [readFacets]
      exact mem_map_of_mem mem
    exact mem_map.mp shown
  obtain ⟨d, h, shownValue⟩ := bind_eq_some_iff.mp shown
  obtain ⟨_, -, rfl⟩ := map_eq_some_iff.mp shownValue
  exact fresh edge inOperands d h isKeyed

theorem Conforms.of_caseAdded {sw : InstId} {tgt : BlockId} {v : Int64} (conf : p.Conforms sw)
    (wired : p.Wired) (wiredAfter : q.Wired)
    (added : p.EdgeAdded q e { user := sw, value := tgt, slot := .indexed cases.length } home)
    (hsw : p.kind? sw = some (.switch cases))
    (isSwitchAfter : q.kind? sw = some (.switch (cases ++ [v]))) (hb : p.isBlock tgt = true)
    (fresh : v ∉ cases) : q.Conforms sw := by
  obtain ⟨_, own, facets, isKind, isOwn, readFacets, accepts⟩ := conf
  obtain rfl := mem_unique hsw isKind
  obtain ⟨type, hType⟩ : ∃ type, p.type? tgt = some type := by
    obtain ⟨n, h⟩ := Arena.contains_iff_get?.mp added.value
    exact ⟨n.type, by rw [type?, h, map_some]⟩
  have seen : p.facet? (.indexed cases.length) tgt =
      some { slot := .indexed cases.length, type, isBlock := true } := by
    rw [facet?, hType, map_some, hb]
  refine ⟨_, own, _, isSwitchAfter, (added.rewires.type?_of_kind? isSwitchAfter).trans isOwn,
    edgeFacets_of_added wired wiredAfter added readFacets seen, ?_⟩
  rw [types_eq_of_surroundings added.rewires.surroundings]
  exact accepts.switch_append fresh

section Removal

variable {kept gone : List EdgeId} {cut : Option (BlockId × BlockId)} (wired : p.Wired)
  (wiredAfter : q.Wired) (mem : (p.operandsOf u)[k]? = some e) (h : p.edges.get? e = some d)
  (rem : p.OperandsRemoved q u ((p.operandsOf u).eraseIdx k) gone cut)
  (places : ∀ other ∈ (p.operandsOf u).eraseIdx k, q.edges.get? other =
    if other ∈ ((p.operandsOf u).eraseIdx k).drop k then
      (p.edges.get? other).map (Edge.closing d.slot)
    else p.edges.get? other)

include wired wiredAfter mem rem places

/-- What is left of the operands of a user shows in the places that it has then. -/
theorem edgeFacets_of_operandsRemoved
    (readFacets : (p.operandsOf u).map p.edgeFacet? = facets.map some) :
    (q.operandsOf u).map q.edgeFacet? =
      (facets.take k ++ (facets.drop (k + 1)).map (Facet.closing d.slot)).map some := by
  refine edgeFacets_of_removed wired wiredAfter rem.rewires ?_ ?_ places readFacets
  · exact (List.getElem?_eq_some_iff.mp mem).1
  · rw [rem.operands, update_self]

include h

omit wired wiredAfter rem places in
theorem slot_of_edgeFacets (readFacets : (p.operandsOf u).map p.edgeFacet? = facets.map some) :
    (facets.map (·.slot))[k]? = some d.slot := by
  have readHere := congrArg (·[k]?) readFacets
  simp only [getElem?_map, mem, map_some] at readHere
  obtain ⟨facet, found, shown⟩ := map_eq_some_iff.mp readHere.symm
  rw [edgeFacet?, h, bind_some, eq_comm] at shown
  obtain ⟨_, -, rfl⟩ := map_eq_some_iff.mp shown
  rw [getElem?_map, found, map_some]

theorem Conforms.of_entryRemoved (conf : p.Conforms u) (keyed : d.slot = .keyed src)
    (kinds : q.kind? = p.kind?) : q.Conforms u := by
  obtain ⟨kind, own, facets, isKind, isOwn, readFacets, accepts⟩ := conf
  have slot := slot_of_edgeFacets mem h readFacets
  obtain rfl : kind = .phi := accepts.lays.eq_phi_of_keyed (keyed ▸ mem_of_getElem? slot)
  have isKindAfter : q.kind? u = some .phi := by rw [kinds, isKind]
  refine ⟨.phi, own, _, isKindAfter, (rem.rewires.type?_of_kind? isKindAfter).trans isOwn,
    edgeFacets_of_operandsRemoved wired wiredAfter mem rem places readFacets, ?_⟩
  rw [types_eq_of_surroundings rem.rewires.surroundings, keyed]
  exact accepts.phi_remove k

theorem Conforms.of_caseRemoved (conf : p.Conforms u) (hsw : p.kind? u = some (.switch cases))
    (isIndex : k = firstCase + pos) (lt : pos < cases.length)
    (isSwitchAfter : q.kind? u = some (.switch (cases.eraseIdx pos))) : q.Conforms u := by
  obtain ⟨_, own, facets, isKind, isOwn, readFacets, accepts⟩ := conf
  obtain rfl := mem_unique hsw isKind
  have slot := slot_of_edgeFacets mem h readFacets
  have slots := accepts.lays
  simp only [InstKind.Lays] at slots
  obtain rfl : k = 2 + pos := isIndex
  rw [slots, show 2 + pos = pos + 1 + 1 by omega] at slot
  have isIndexed : d.slot = .indexed pos := by simpa [lt, eq_comm] using slot
  refine ⟨_, own, _, isSwitchAfter, (rem.rewires.type?_of_kind? isSwitchAfter).trans isOwn,
    edgeFacets_of_operandsRemoved wired wiredAfter mem rem places readFacets, ?_⟩
  rw [types_eq_of_surroundings rem.rewires.surroundings, isIndexed]
  exact accepts.switch_remove lt

end Removal

end Program

end ValueGraph
