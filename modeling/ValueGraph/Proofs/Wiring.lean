import Mathlib
import ValueGraph.Proofs.Rewiring

open Function

namespace ValueGraph

open Program Arena Option

/-!
# The wiring

The wiring of a program is its edges together with the two lists in which each
edge is mentioned: the operands of its user and the uses of its value.  Every
step that adds, moves or removes edges is described by what it does to the three,
and by the owning handles on constants, which go along with the uses.
-/

variable {new gone : List EdgeId} {value user : ValueId} {e : EdgeId} {k gap : Nat}
  {s between p q r : Program} {a : Unit} {d : Edge} {α : Type}

/-! ### Views of the wiring -/

/-- A place without its position in a list. -/
def Slot.outline : Slot → Slot
  | .indexed _ => .indexed 0
  | slot => slot

@[simp]
theorem InstKind.isTargetSlot_outline (kind : InstKind) (slot : Slot) :
    kind.isTargetSlot slot.outline = kind.isTargetSlot slot := by
  cases kind <;> cases slot <;> rfl

/-- An edge without its position in a list. -/
def Edge.outline (edge : Edge) : Edge :=
  { edge with slot := edge.slot.outline }

/-- The place of an edge once the edge at some place is gone: list members beyond it
have moved one down. -/
def Slot.closing : Slot → Slot → Slot
  | .indexed gap, .indexed position =>
    if gap < position then .indexed (position - 1) else .indexed position
  | _, slot => slot

/-- An edge once the edge at some place is gone. -/
def Edge.closing (gone : Slot) (edge : Edge) : Edge :=
  { edge with slot := Slot.closing gone edge.slot }

@[simp]
theorem Slot.outline_closing (gone slot : Slot) :
    (Slot.closing gone slot).outline = slot.outline := by
  unfold Slot.closing
  split
  · split <;> rfl
  · rfl

@[simp]
theorem Edge.outline_closing (gone : Slot) (e : Edge) : (e.closing gone).outline = e.outline := by
  simp [Edge.closing, Edge.outline]

namespace Program

/-- The edge behind a handle, without its position in a list. -/
def wire? (program : Program) (edge : EdgeId) : Option Edge :=
  (program.edges.get? edge).map Edge.outline

theorem wire?_of_get? {e : EdgeId} {d : Edge} (h : s.edges.get? e = some d) :
    s.wire? e = some d.outline := by
  rw [wire?, h, Option.map_some]

/-- The owning handles on a node beyond those that the uses of a constant hold. -/
def spare (program : Program) (value : ValueId) : Int :=
  program.countOf value -
    if program.isConstant value then ((program.usesOf value).length : Int) else 0

variable {n : Node}

section

variable (found : s.values.get? value = some n) (change : Node → Node)
include found change

theorem operandsOf_modify :
    operandsOf { s with values := s.values.modify value change } =
      update s.operandsOf value (change n).operands := by
  funext other
  by_cases eq : other = value
  · simp [operandsOf, get?_modify, eq, found]
  · simp [operandsOf, get?_modify, eq]

theorem usesOf_modify :
    usesOf { s with values := s.values.modify value change } =
      update s.usesOf value (change n).usedBy := by
  funext other
  by_cases eq : other = value
  · simp [usesOf, get?_modify, eq, found]
  · simp [usesOf, get?_modify, eq]

theorem payload?_modify_of_kept (kept : (change n).payload = n.payload) :
    payload? { s with values := s.values.modify value change } = s.payload? := by
  funext other
  by_cases eq : other = value
  · simp [payload?, get?_modify, eq, found, kept]
  · simp [payload?, get?_modify, eq]

end

@[simp]
theorem countOf_modify (change : Node → Node) :
    countOf { s with values := s.values.modify value change } = s.countOf := by
  funext other
  simp [countOf]

@[simp]
theorem operandsOf_withPayload (s : Program) (v : ValueId) (payload : Payload) :
    (s.withPayload v payload).operandsOf = s.operandsOf := by
  funext value
  simp only [operandsOf, get?_withPayload]
  split <;> cases s.values.get? value <;> rfl

@[simp]
theorem usesOf_withPayload (s : Program) (v : ValueId) (payload : Payload) :
    (s.withPayload v payload).usesOf = s.usesOf := by
  funext value
  simp only [usesOf, get?_withPayload]
  split <;> cases s.values.get? value <;> rfl

theorem isConstant_eq_of_payload? (eq : between.payload? = s.payload?) :
    between.isConstant = s.isConstant := by
  funext value
  simp only [isConstant, eq]

theorem isLive_iff : s.isLive value = (s.payload? value).isSome := by
  simp [isLive, contains, payload?, get?]

theorem isLive_of_payload? {payload : Payload} (h : s.payload? value = some payload) :
    s.isLive value = true := by
  rw [isLive_iff, h]
  rfl

theorem isLive_of_category {category : Category}
    (named : ((s.payload? value).map (·.category) == some category) = true) :
    s.isLive value = true := by
  cases h : s.payload? value with
  | none => simp [h] at named
  | some payload => exact isLive_of_payload? h

/-- What a node has to spare depends on what it is, who reads it and who owns it. -/
theorem spare_eq (payloads : between.payload? value = s.payload? value)
    (uses : between.usesOf value = s.usesOf value)
    (count : between.countOf value = s.countOf value) :
    between.spare value = s.spare value := by
  unfold spare isConstant
  rw [payloads, uses, count]

/-! ### Counts of the flow graph -/

/-- How many edges to another block a block counts. -/
def jumps (program : Program) (source target : BlockId) : Nat :=
  (program.block? source).elim 0 (·.jumpsTo.count target)

/-- How many edges from another block a block counts. -/
def arrivals (program : Program) (source target : BlockId) : Nat :=
  (program.block? target).elim 0 (·.comesFrom.count source)

/-- The counts at both ends of each edge of the flow graph agree. -/
def FlowMirrored (program : Program) : Prop :=
  ∀ source target, program.arrivals source target = program.jumps source target

theorem jumps_eq_bind (s : Program) (src tgt : BlockId) :
    s.jumps src tgt = ((s.payload? src).bind fun payload => payload.block?.map (·.jumpsTo)).elim 0
        (·.count tgt) := by
  unfold jumps block?
  rcases s.payload? src with _ | _ | _ | _ | _ | _ | _ | _ <;> rfl

theorem arrivals_eq_bind (s : Program) (src tgt : BlockId) :
    s.arrivals src tgt =
      ((s.payload? tgt).bind fun payload => payload.block?.map (·.comesFrom)).elim 0
        (·.count src) := by
  unfold arrivals block?
  rcases s.payload? tgt with _ | _ | _ | _ | _ | _ | _ | _ <;> rfl

theorem jumps_eq_of_block? (eq : q.block? = p.block?) : q.jumps = p.jumps := by
  funext source target
  simp only [jumps, eq]

theorem arrivals_eq_of_block? (eq : q.block? = p.block?) : q.arrivals = p.arrivals := by
  funext source target
  simp only [arrivals, eq]

theorem FlowMirrored.of_block? (eq : q.block? = p.block?) (mirrored : p.FlowMirrored) :
    q.FlowMirrored := by
  intro src tgt
  rw [arrivals_eq_of_block? eq, jumps_eq_of_block? eq]
  exact mirrored src tgt

end Program

/-! ### Payloads -/

/-- Every node keeps what it is, unless it is a constant that leaves. -/
def Program.KeepsPayloads (before after : Program) : Prop :=
  ∀ value, after.payload? value = before.payload? value ∨
    (before.isConstant value = true ∧ after.payload? value = none)

namespace Program.KeepsPayloads

theorem of_eq (eq : q.payload? = p.payload?) : p.KeepsPayloads q :=
  fun value => Or.inl (congrFun eq value)

theorem trans (earlier : p.KeepsPayloads q) (later : q.KeepsPayloads r) : p.KeepsPayloads r := by
  intro value
  rcases earlier value with kept | ⟨c, gone⟩
  · rcases later value with keptLater | ⟨c, gone⟩
    · exact Or.inl (keptLater.trans kept)
    · refine Or.inr ⟨?_, gone⟩
      simpa only [isConstant, kept] using c
  · refine Or.inr ⟨c, ?_⟩
    rcases later value with keptLater | ⟨-, goneLater⟩
    · exact keptLater.trans gone
    · exact goneLater

/-- A reading that shows no constant shows what it showed. -/
theorem bind {β : Type} (kept : p.KeepsPayloads q) {reading : Payload → Option β}
    (unread : ∀ c, reading (.constant c) = none) :
    (fun value => (q.payload? value).bind reading) = fun value =>
    (p.payload? value).bind reading := by
  funext value
  rcases kept value with eq | ⟨c, gone⟩
  · rw [eq]
  · rw [gone]
    cases shape : p.payload? value with
    | none => rfl
    | some payload => cases payload <;> simp_all [isConstant, Payload.category]

theorem inst? (kept : p.KeepsPayloads q) : q.inst? = p.inst? :=
  kept.bind fun _ => rfl

theorem kind? (kept : p.KeepsPayloads q) : q.kind? = p.kind? := by
  funext inst
  simp only [Program.kind?, kept.inst?]

theorem block? (kept : p.KeepsPayloads q) : q.block? = p.block? :=
  kept.bind fun _ => rfl

end Program.KeepsPayloads

/-! ### Owning constants -/

namespace Program

/-- Only instructions and globals read others. -/
def Placid (program : Program) : Prop :=
  ∀ value, program.operandsOf value ≠ [] →
    program.isInst value = true ∨ program.isGlobal value = true

theorem Placid.operandsOf_eq_nil (placid : s.Placid) (c : s.isConstant value = true) :
    s.operandsOf value = [] := by
  by_contra some
  have shape := placid value some
  simp only [isInst, isGlobal, isConstant, beq_iff_eq] at shape c
  simp [c] at shape

section

variable (retained : p.Retained q value)
include retained

theorem Retained.operandsOf : q.operandsOf = p.operandsOf := by
  funext other
  simp only [Program.operandsOf, retained.nodes]

theorem Retained.usesOf : q.usesOf = p.usesOf := by
  funext other
  simp only [Program.usesOf, retained.nodes]

theorem Retained.payload? : q.payload? = p.payload? := by
  funext other
  simp only [Program.payload?, retained.nodes]

theorem Retained.edges : q.edges = p.edges := by
  rw [retained.others]

theorem Retained.spare : q.spare = update p.spare value (p.spare value + 1) := by
  funext other
  by_cases eq : other = value
  · subst eq
    simp only [spare, retained.usesOf, retained.counts,
      isConstant_eq_of_payload? retained.payload?, update_self]
    push_cast
    ring
  · rw [update_of_ne eq]
    exact spare_eq (congrFun retained.payload? other) (congrFun retained.usesOf other)
      (by rw [retained.counts, update_of_ne eq])

end

section

variable (drop : p.Dropped q value)
include drop

theorem Dropped.edges : q.edges = p.edges := by
  rw [drop.others]

/-- Nothing read a node that is gone, so no use is lost. -/
theorem Dropped.usesOf : q.usesOf = p.usesOf := by
  funext other
  rcases drop.outcome with ⟨-, nodes⟩ | ⟨-, -, unread, nodes⟩
  · simp only [Program.usesOf, nodes]
  · by_cases eq : other = value
    · rw [eq, unread]
      simp [Program.usesOf, nodes]
    · simp [Program.usesOf, nodes, eq]

/-- Giving up an owning handle leaves one less to spare. -/
theorem Dropped.spare : q.spare = update p.spare value (p.spare value - 1) := by
  funext other
  by_cases eq : other = value
  · subst eq
    rw [update_self]
    rcases drop.outcome with ⟨more, nodes⟩ | ⟨last, live, unread, nodes⟩
    · have payloads : q.payload? = p.payload? := by
        funext third
        simp only [payload?, nodes]
      simp only [spare, drop.usesOf, drop.counts, isConstant_eq_of_payload? payloads, update_self]
      omega
    · have gone : q.isConstant other = false := by
        simp [isConstant, payload?, nodes]
      simp [spare, drop.counts, gone, unread, last]
  · rw [update_of_ne eq]
    refine spare_eq ?_ (congrFun drop.usesOf other) ?_
    · rcases drop.outcome with ⟨-, nodes⟩ | ⟨-, -, -, nodes⟩
      · simp only [payload?, nodes]
      · simp [payload?, nodes, eq]
    · rw [drop.counts, update_of_ne eq]

theorem Dropped.operandsOf_of_constant (placid : p.Placid) (c : p.isConstant value = true) :
    q.operandsOf = p.operandsOf := by
  funext other
  rcases drop.outcome with ⟨-, nodes⟩ | ⟨-, -, -, nodes⟩
  · simp only [operandsOf, nodes]
  · by_cases eq : other = value
    · rw [eq, placid.operandsOf_eq_nil c]
      simp [operandsOf, nodes]
    · simp [operandsOf, nodes, eq]

theorem Dropped.keepsPayloads (c : p.isConstant value = true) : p.KeepsPayloads q := by
  intro other
  rcases drop.outcome with ⟨-, nodes⟩ | ⟨-, -, -, nodes⟩
  · exact Or.inl (by simp only [payload?, nodes])
  · by_cases eq : other = value
    · exact Or.inr (by simp [payload?, nodes, eq, c])
    · exact Or.inl (by simp [payload?, nodes, eq])

end

end Program

namespace Step

theorem retainConstant_spec (run : (retainConstant value).run p = .ok (a, q)) :
    q.payload? = p.payload? ∧ q.edges = p.edges ∧
      q.operandsOf = p.operandsOf ∧ q.usesOf = p.usesOf ∧ q.spare = update p.spare value
          (p.spare value + if p.isConstant value then 1 else 0) := by
  obtain ⟨c, read, run⟩ := run_look.mp run
  rw [constant?_isSome_iff read] at run
  split at run
  next isConstant =>
    have retained := retainHandle_spec run
    exact ⟨retained.payload?, retained.edges, retained.operandsOf, retained.usesOf,
      by rw [retained.spare, if_pos isConstant]⟩
  next varies =>
    obtain ⟨-, rfl⟩ := run_pure.mp run
    exact ⟨rfl, rfl, rfl, rfl, by simp [varies]⟩

theorem dropConstant_spec (stored : p.Stored) (placid : p.Placid)
    (run : (dropConstant value).run p = .ok (a, q)) :
    p.KeepsPayloads q ∧ q.edges = p.edges ∧ q.operandsOf = p.operandsOf ∧ q.usesOf = p.usesOf ∧
        q.spare = update p.spare value (p.spare value - if p.isConstant value then 1 else 0) := by
  obtain ⟨c, read, run⟩ := run_look.mp run
  rw [constant?_isSome_iff read] at run
  split at run
  next isConstant =>
    have drop := dropHandle_spec stored run
    exact ⟨drop.keepsPayloads isConstant, drop.edges,
      drop.operandsOf_of_constant placid isConstant, drop.usesOf,
      by rw [drop.spare, if_pos isConstant]⟩
  next varies =>
    obtain ⟨-, rfl⟩ := run_pure.mp run
    exact ⟨.of_eq rfl, rfl, rfl, rfl, by simp [varies]⟩

end Step

/-! ### Single lists -/

namespace Program

/-- The operands of one node are other edges. -/
structure OperandsSet (before after : Program) (user : ValueId) (new : List EdgeId) : Prop where
  live : before.isLive user = true
  payloads : after.payload? = before.payload?
  edges : after.edges = before.edges
  operands : after.operandsOf = update before.operandsOf user new
  uses : after.usesOf = before.usesOf
  spare : after.spare = before.spare

/-- The uses of one node are other edges. -/
structure UsesSet (before after : Program) (value : ValueId) (new : List EdgeId) : Prop where
  live : before.isLive value = true
  payloads : after.payload? = before.payload?
  edges : after.edges = before.edges
  operands : after.operandsOf = before.operandsOf
  uses : after.usesOf = update before.usesOf value new
  spare : after.spare = update before.spare value
    (before.spare value + if before.isConstant value then
      ((before.usesOf value).length : Int) - new.length else 0)

end Program

namespace Step

theorem setOperands_spec (change : List EdgeId → List EdgeId)
    (run : (modifyNode value fun n => { n with operands := change n.operands }).run
      p = .ok (a, q)) : p.OperandsSet q value (change (p.operandsOf value)) := by
  obtain ⟨⟨n, found⟩, rfl⟩ := modifyNode_run.mp run
  have pls := payload?_modify_of_kept found
    (fun n => { n with operands := change n.operands }) rfl
  have uses : usesOf _ = p.usesOf := (usesOf_modify found
    fun n => { n with operands := change n.operands }).trans
      (by rw [← usesOf_eq found, update_eq_self])
  exact
    { live := contains_iff_get?.mpr ⟨n, found⟩
      payloads := pls
      edges := rfl
      operands := by rw [operandsOf_modify found, operandsOf_eq found]
      uses
      spare := funext fun other => spare_eq (congrFun pls other)
        (congrFun uses other) (congrFun (countOf_modify _) other) }

theorem setUses_spec (change : List EdgeId → List EdgeId)
    (run : (modifyNode value fun n => { n with usedBy := change n.usedBy }).run p = .ok (a, q)) :
    p.UsesSet q value (change (p.usesOf value)) := by
  obtain ⟨⟨n, found⟩, rfl⟩ := modifyNode_run.mp run
  have pls := payload?_modify_of_kept found (fun n => { n with usedBy := change n.usedBy }) rfl
  have uses := usesOf_modify found fun n => { n with usedBy := change n.usedBy }
  have oldUses := usesOf_eq found
  refine
    { live := contains_iff_get?.mpr ⟨n, found⟩
      payloads := pls
      edges := rfl
      operands := (operandsOf_modify found _).trans
        (by rw [← operandsOf_eq found, update_eq_self])
      uses := uses.trans (by rw [oldUses])
      spare := ?_ }
  funext other
  by_cases eq : other = value
  · subst eq
    simp only [spare, isConstant_eq_of_payload? pls, uses,
      countOf_modify, update_self, oldUses]
    split <;> ring
  · rw [update_of_ne eq]
    exact spare_eq (congrFun pls other) (by rw [uses, update_of_ne eq])
      (congrFun (countOf_modify _) other)

end Step

/-! ### Adding and removing edges -/

namespace Program

/-- One program has an edge that the other does not have.  If it leads away from a
block, the flow graph has it too. -/
structure EdgeAdded
    (before after : Program)
    (edge : EdgeId)
    (data : Edge)
    (home : Option BlockId) : Prop where
  rewires : before.Rewires after
  fresh : before.wire? edge = none
  user : before.isLive data.user = true
  value : before.isLive data.value = true
  edges : after.edges.get? = update before.edges.get? edge (some data)
  kinds : ∀ other, other ≠ data.user → after.kind? other = before.kind? other
  operands : after.operandsOf =
    update before.operandsOf data.user (before.operandsOf data.user ++ [edge])
  uses : after.usesOf =
    update before.usesOf data.value (before.usesOf data.value ++ [edge])
  spare : after.spare = before.spare
  jumps : ∀ source target, after.jumps source target =
    before.jumps source target + if home = some source ∧ target = data.value then 1 else 0
  mirrored : before.FlowMirrored → after.FlowMirrored

theorem EdgeAdded.wires {home : Option BlockId} (added : p.EdgeAdded q e d home) :
    q.wire? = update p.wire? e (some d.outline) := by
  funext other
  simp only [wire?, added.edges, update_apply]
  split <;> rfl

/-- Each use of a node is one edge that reads it, and every edge is a use. -/
structure UsesAgree (program : Program) : Prop where
  nodup : ∀ value, (program.usesOf value).Nodup
  mem_iff : ∀ value edge, edge ∈ program.usesOf value ↔
    ∃ data, program.wire? edge = some data ∧ data.value = value

theorem UsesAgree.of_same (agree : p.UsesAgree) (uses : q.usesOf = p.usesOf)
    (wires : q.wire? = p.wire?) : q.UsesAgree where
  nodup value := by
    rw [uses]
    exact agree.nodup value
  mem_iff value e := by
    rw [uses, wires]
    exact agree.mem_iff value e

/-- Some edges are gone, together with the uses that they were. -/
structure EdgesRemoved (before after : Program) (gone : List EdgeId) : Prop where
  payloads : before.KeepsPayloads after
  edges : ∀ edge, after.edges.get? edge = if edge ∈ gone then none else before.edges.get? edge
  operands : after.operandsOf = before.operandsOf
  uses : ∀ value, (after.usesOf value).Perm ((before.usesOf value).filter (· ∉ gone))
  spare : after.spare = before.spare

namespace EdgesRemoved

variable {more : List EdgeId}

theorem wires (rem : p.EdgesRemoved q gone) (e : EdgeId) :
    q.wire? e = if e ∈ gone then none else p.wire? e := by
  simp only [wire?, rem.edges]
  split <;> rfl

theorem usesAgree (rem : p.EdgesRemoved q gone) (agree : p.UsesAgree) : q.UsesAgree where
  nodup value := (rem.uses value).nodup_iff.mpr ((agree.nodup value).filter _)
  mem_iff value e := by
    rw [(rem.uses value).mem_iff, List.mem_filter, agree.mem_iff, rem.wires]
    split
    next mem => simp [mem]
    next stays => simp [stays]

theorem trans (earlier : p.EdgesRemoved q gone) (later : q.EdgesRemoved r more) :
    p.EdgesRemoved r (gone ++ more) where
  payloads := earlier.payloads.trans later.payloads
  edges e := by
    rw [later.edges, earlier.edges]
    by_cases inGone : e ∈ gone <;> by_cases inMore : e ∈ more <;> simp [inGone, inMore]
  operands := later.operands.trans earlier.operands
  uses value := by
    refine (later.uses value).trans (((earlier.uses value).filter _).trans ?_)
    rw [List.filter_filter]
    refine List.Perm.of_eq (List.filter_congr fun e _ => ?_)
    simp only [List.mem_append, not_or, Bool.decide_and]
    exact Bool.and_comm ..
  spare := later.spare.trans earlier.spare

end EdgesRemoved

end Program

theorem not_mem_eraseIdx {items : List α} {item : α} (nd : items.Nodup)
    (found : items[k]? = some item) : item ∉ items.eraseIdx k := by
  obtain ⟨lt, rfl⟩ := List.getElem?_eq_some_iff.mp found
  rw [List.mem_eraseIdx_iff_getElem]
  rintro ⟨number, otherInBounds, ne, eq⟩
  exact ne ((nd.getElem_inj_iff).mp eq)

theorem swapRemove_perm [DecidableEq α] (items : List α) (item : α) :
    (swapRemove items item).Perm (items.erase item) := by
  rw [List.erase_eq_eraseIdx]
  unfold swapRemove
  cases absent : items.idxOf? item with
  | none => exact List.Perm.refl _
  | some k =>
    obtain ⟨lt, -⟩ := List.idxOf?_eq_some_iff.mp absent
    rcases List.eq_nil_or_concat items with rfl | ⟨front, last, rfl⟩
    · simp at lt
    · simp only [List.concat_eq_append, List.getLast?_append, List.getLast?_singleton,
        Option.some_or, List.length_append, List.length_singleton] at lt ⊢
      by_cases inFront : k < front.length
      · rw [List.set_append_left _ _ inFront, List.eraseIdx_append_of_lt_length inFront,
          List.dropLast_concat]
        exact (List.set_perm_cons_eraseIdx inFront last).trans (List.perm_append_singleton _ _).symm
      · obtain rfl : k = front.length := by omega
        simp [List.eraseIdx_append_of_length_le]

namespace Program.UsesAgree

section

variable (agree : s.UsesAgree) (h : s.wire? e = some d)
include agree h

theorem mem_uses : e ∈ s.usesOf d.value :=
  (agree.mem_iff d.value e).mpr ⟨d, h, rfl⟩

theorem removed_perm (v : ValueId) :
    (update s.usesOf d.value (swapRemove (s.usesOf d.value) e) v).Perm
        ((s.usesOf v).filter (· ≠ e)) := by
  by_cases eq : v = d.value
  · subst eq
    rw [update_self]
    refine (swapRemove_perm _ e).trans (List.Perm.of_eq ?_)
    rw [(agree.nodup _).erase_eq_filter]
    exact List.filter_congr fun edge _ => by simp [bne, beq_eq_decide]
  · rw [update_of_ne eq, List.filter_eq_self.mpr]
    intro edge mem
    have ne : edge ≠ e := by
      rintro rfl
      obtain ⟨_, found, reads⟩ := (agree.mem_iff _ _).mp mem
      obtain rfl := Option.mem_unique found h
      exact eq reads.symm
    simpa using ne

theorem removed_length :
    (swapRemove (s.usesOf d.value) e).length + 1 = (s.usesOf d.value).length := by
  rw [(swapRemove_perm _ e).length_eq, List.length_erase_add_one (agree.mem_uses h)]

end

end Program.UsesAgree

namespace Step

theorem addOperand_spec {slot : Slot} (stored : p.Stored)
    (run : (addOperand user slot value).run p = .ok (a, q)) :
    ∃ e, p.EdgeAdded q e { user, value, slot } none ∧ q.kind? = p.kind? := by
  have rew := addOperand_rewires user slot value run
  replace run := run_get_bind.mp run
  simp only [run_bind, run_set] at run
  obtain ⟨_, _, rfl, _, withOperand, runUser, _, withUse, runValue, runCount⟩ := run
  set e := (p.edges.insert { user, value, slot }).1 with edgeShape
  have atUser := setOperands_spec (· ++ [e]) runUser
  have atValue := setUses_spec (· ++ [e]) runValue
  obtain ⟨pls, edges, ops, uses, spare⟩ := retainConstant_spec runCount
  have kept : p.KeepsPayloads q := .of_eq (pls.trans (atValue.payloads.trans atUser.payloads))
  have sameKinds := kept.kind?
  have sameBlocks := kept.block?
  refine ⟨e,
    { rewires := rew
      fresh := ?_
      user := atUser.live
      value := ?_
      edges := ?_
      kinds := fun other _ => congrFun sameKinds other
      operands := ops.trans (atValue.operands.trans atUser.operands)
      uses := uses.trans (atValue.uses.trans (by rw [atUser.uses]; rfl))
      spare := ?_
      jumps := fun src tgt => by simp [jumps_eq_of_block? sameBlocks]
      mirrored := FlowMirrored.of_block? sameBlocks }, sameKinds⟩
  · rw [wire?, get?_insert_before stored.edges, map_none]
  · have live := atValue.live
    rwa [isLive_iff, atUser.payloads, ← isLive_iff] at live
  · funext edge
    simp only [edges, atValue.edges, atUser.edges, get?_insert stored.edges,
      update_apply, edgeShape]
  · rw [spare, atValue.spare, isConstant_eq_of_payload? atValue.payloads]
    simp only [update_self, update_idem, List.length_append, List.length_singleton]
    have settled : ∀ (spare length : Int) (c : Bool),
        (spare + if c then length - (length + 1) else 0) + (if c then 1 else 0) =
          spare := by
      intro spare length c
      cases c
      · simp
      · simp
    rw [Nat.cast_add, Nat.cast_one, settled, update_eq_self, atUser.spare]
    rfl

end Step

namespace Program

theorem Placid.of_rewires (placid : p.Placid) (rew : p.Rewires q)
    (ops : ∀ value, q.operandsOf value ≠ [] →
      p.operandsOf value ≠ [] ∨ p.isInst value = true ∨ p.isGlobal value = true) : q.Placid := by
  intro value reads
  rw [rew.skeleton.isInst, rew.skeleton.isGlobal]
  rcases ops value reads with readsBefore | shape
  · exact placid value readsBefore
  · exact shape

theorem OperandsSet.usesAgree (changed : p.OperandsSet q user new) (agree : p.UsesAgree) :
    q.UsesAgree :=
  agree.of_same changed.uses (by
    funext e
    simp only [wire?, changed.edges])

/-- A node that reads nothing still reads nothing when operands are taken away. -/
theorem OperandsSet.placid (changed : p.OperandsSet q user new) (rew : p.Rewires q)
    (placid : p.Placid) (fewer : p.operandsOf user = [] → new = []) : q.Placid := by
  refine placid.of_rewires rew fun value reads => Or.inl fun none => ?_
  rw [changed.operands, update_apply] at reads
  split at reads
  next eq => exact reads (fewer (eq ▸ none))
  next => exact reads none

end Program

namespace Step

theorem unlinkEdge_spec (stored : p.Stored) (placid : p.Placid) (agree : p.UsesAgree)
    (run : (unlinkEdge e).run p = .ok (a, q)) : p.EdgesRemoved q [e] := by
  replace run := run_get_bind.mp run
  split at run
  next missing =>
    obtain ⟨-, rfl⟩ := run_pure.mp run
    have absent : p.edges.get? e = none := get?_eq_none_iff.mpr (take?_eq_none_iff.mp missing)
    have unused : ∀ value, e ∉ p.usesOf value := by
      intro value mem
      obtain ⟨d, found, -⟩ := (agree.mem_iff value e).mp mem
      simp [wire?, absent] at found
    refine
      { payloads := .of_eq rfl
        edges := fun edge => ?_
        operands := rfl
        uses := fun value => ?_
        spare := rfl }
    · by_cases eq : edge = e
      · simp [eq, absent]
      · simp [eq]
    · rw [List.filter_eq_self.mpr]
      intro edge mem
      have ne : edge ≠ e := fun eq => unused value (eq ▸ mem)
      simpa using ne
  next d edges taken =>
    simp only [run_bind, run_set] at run
    obtain ⟨_, _, rfl, _, withoutUse, runValue, runCount⟩ := run
    have rewiresValue := (modifyNode_rewires _) runValue
    have atValue := setUses_spec (swapRemove · e) runValue
    have storedBetween : withoutUse.Stored :=
      rewiresValue.stored ⟨stored.values, stored.edges.take? taken, stored.owned⟩
    have placidFirst : Placid { p with edges } := placid
    have placidBetween : withoutUse.Placid :=
      placidFirst.of_rewires rewiresValue
        fun value reads => Or.inl (by rwa [atValue.operands] at reads)
    obtain ⟨pls, edgesKept, ops, uses, spare⟩ :=
      dropConstant_spec storedBetween placidBetween runCount
    have h : p.wire? e = some d.outline := by
      rw [wire?, take?_item taken, map_some]
    refine
      { payloads := (KeepsPayloads.of_eq atValue.payloads).trans pls
        edges := fun edge => ?_
        operands := ops.trans atValue.operands
        uses := fun value => ?_
        spare := ?_ }
    · simp only [edgesKept, atValue.edges, get?_take? taken, List.mem_singleton]
    · rw [uses, atValue.uses]
      simp only [List.mem_singleton]
      exact agree.removed_perm h value
    · rw [spare, atValue.spare, isConstant_eq_of_payload? atValue.payloads]
      simp only [update_self, update_idem]
      have settled : ∀ (spare length shorter : Int) (c : Bool), shorter + 1 = length →
          (spare + if c then length - shorter else 0) - (if c then 1 else 0) =
            spare := by
        intro spare length shorter c difference
        cases c
        · simp
        · simp [← difference]
      refine (congrArg (update _ _) (settled _ _ _ _ ?_)).trans (update_eq_self _ _)
      exact_mod_cast agree.removed_length h

theorem unlinkEdges_spec (stored : p.Stored) (placid : p.Placid) (agree : p.UsesAgree)
    (run : (gone.forM unlinkEdge).run p = .ok (a, q)) : p.EdgesRemoved q gone := by
  induction gone generalizing p with
  | nil =>
    obtain rfl := run_forM_nil.mp run
    exact
      { payloads := .of_eq rfl
        edges := fun _ => by simp
        operands := rfl
        uses := fun _ => by simp
        spare := rfl }
  | cons e rest ih =>
    obtain ⟨m, run1, run'⟩ := run_forM_cons.mp run
    have first := unlinkEdge_spec stored placid agree run1
    have rew := unlinkEdge_rewires e run1
    have others := ih (rew.stored stored) (placid.of_rewires rew
        fun value reads => Or.inl (by rwa [first.operands] at reads))
      (first.usesAgree agree) run'
    exact first.trans others

theorem closeGap_spec (run : (closeGap gap e).run p = .ok (a, q)) :
    q = { p with edges := q.edges } ∧ ∀ edge, q.edges.get? edge =
        if edge = e then (p.edges.get? edge).map (Edge.closing (.indexed gap))
        else p.edges.get? edge := by
  obtain ⟨slot, read, run⟩ := run_look.mp run
  simp only [edgeSlot, bind_eq_ok, pure_eq_ok, edge_eq_ok] at read
  obtain ⟨d, found, rfl⟩ := read
  have unmoved : d.closing (.indexed gap) = d → ∀ edge, p.edges.get? edge =
      if edge = e then (p.edges.get? edge).map (Edge.closing (.indexed gap))
      else p.edges.get? edge := by
    intro eq edge
    split
    next here => rw [here, found, map_some, eq]
    next => rfl
  split at run
  next pos place =>
    split at run
    next beyond =>
      obtain ⟨-, rfl⟩ := modifyEdge_run.mp run
      refine ⟨rfl, fun edge => ?_⟩
      simp only [get?_modify]
      split
      next eq => simp [eq, found, Edge.closing, Slot.closing, place, beyond]
      next => rfl
    next within =>
      obtain ⟨-, rfl⟩ := run_pure.mp run
      refine ⟨rfl, unmoved ?_⟩
      unfold Edge.closing
      rw [place, Slot.closing, if_neg within, ← place]
  next others =>
    obtain ⟨-, rfl⟩ := run_pure.mp run
    refine ⟨rfl, unmoved ?_⟩
    unfold Edge.closing Slot.closing
    split
    next _ pos _ place => exact absurd place (others pos)
    next => rfl

theorem closeGaps_spec {edges : List EdgeId} (nd : edges.Nodup)
    (run : (edges.forM (closeGap gap)).run p = .ok (a, q)) :
    q = { p with edges := q.edges } ∧ ∀ edge, q.edges.get? edge =
        if edge ∈ edges then (p.edges.get? edge).map (Edge.closing (.indexed gap))
        else p.edges.get? edge := by
  induction edges generalizing p with
  | nil =>
    obtain rfl := run_forM_nil.mp run
    exact ⟨rfl, fun _ => by simp⟩
  | cons e rest ih =>
    obtain ⟨m, run1, run'⟩ := run_forM_cons.mp run
    obtain ⟨sameFirst, edgesFirst⟩ := closeGap_spec run1
    obtain ⟨sameRest, edgesRest⟩ := ih (List.nodup_cons.mp nd).2 run'
    refine ⟨by rw [sameRest, sameFirst], fun edge => ?_⟩
    rw [edgesRest, edgesFirst]
    by_cases eq : edge = e
    · simp [eq, (List.nodup_cons.mp nd).1]
    · simp [eq]

end Step

namespace Program

/-- A user has lost some of its operands, and the flow graph at most one edge. -/
structure OperandsRemoved
    (before after : Program)
    (user : ValueId)
    (kept gone : List EdgeId)
    (cut : Option (BlockId × BlockId)) : Prop where
  rewires : before.Rewires after
  live : before.isLive user = true
  wires : ∀ edge, after.wire? edge = if edge ∈ gone then none else before.wire? edge
  edges : ∀ edge, edge ∉ kept →
    after.edges.get? edge = if edge ∈ gone then none else before.edges.get? edge
  kinds : ∀ other, other ≠ user → after.kind? other = before.kind? other
  operands : after.operandsOf = update before.operandsOf user kept
  uses : ∀ value, (after.usesOf value).Perm ((before.usesOf value).filter (· ∉ gone))
  spare : after.spare = before.spare
  jumps : ∀ source target, after.jumps source target =
    before.jumps source target - if cut = some (source, target) then 1 else 0
  mirrored : before.FlowMirrored → after.FlowMirrored

end Program

namespace Step

theorem clearOperands_spec (stored : p.Stored) (placid : p.Placid) (agree : p.UsesAgree)
    (run : (clearOperands user).run p = .ok (a, q)) :
    p.OperandsRemoved q user [] (p.operandsOf user) none ∧ q.kind? = p.kind? := by
  have rew := clearOperands_rewires user run
  obtain ⟨_, read, run⟩ := run_look.mp run
  obtain ⟨n, found, rfl⟩ := operands_eq_ok.mp read
  obtain ⟨_, bare, runUser, runEdges⟩ := run_bind.mp run
  have atUser := setOperands_spec (fun _ => []) runUser
  have rewiresUser := (modifyNode_rewires user) runUser
  have rem := unlinkEdges_spec (rewiresUser.stored stored)
    (atUser.placid rewiresUser placid fun _ => rfl) (atUser.usesAgree agree) runEdges
  rw [← operandsOf_eq found] at rem
  have keptPayloads : p.KeepsPayloads q := (KeepsPayloads.of_eq atUser.payloads).trans rem.payloads
  have sameBlocks := keptPayloads.block?
  refine ⟨?_, keptPayloads.kind?⟩
  exact
    { rewires := rew
      live := atUser.live
      wires := fun e => by
        rw [rem.wires]
        simp only [wire?, atUser.edges]
      edges := fun e _ => by rw [rem.edges, atUser.edges]
      kinds := fun other _ => congrFun keptPayloads.kind? other
      operands := rem.operands.trans atUser.operands
      uses := fun value => by
        have uses := rem.uses value
        rwa [atUser.uses] at uses
      spare := rem.spare.trans atUser.spare
      jumps := fun src tgt => by simp [jumps_eq_of_block? sameBlocks]
      mirrored := FlowMirrored.of_block? sameBlocks }

theorem removeOperandAt_spec (stored : p.Stored) (placid : p.Placid) (agree : p.UsesAgree)
    (nd : (p.operandsOf user).Nodup) (run : (removeOperandAt user k).run p = .ok (a, q)) :
    ∃ e d, (p.operandsOf user)[k]? = some e ∧ p.edges.get? e = some d ∧
      p.OperandsRemoved q user ((p.operandsOf user).eraseIdx k) [e] none ∧
      (∀ edge ∈ (p.operandsOf user).eraseIdx k, q.edges.get? edge =
        if edge ∈ ((p.operandsOf user).eraseIdx k).drop k then
          (p.edges.get? edge).map (Edge.closing d.slot)
        else p.edges.get? edge) ∧
      p.KeepsPayloads q := by
  have rew := removeOperandAt_rewires user k run
  obtain ⟨_, readOperands, run⟩ := run_look.mp run
  obtain ⟨n, found, rfl⟩ := operands_eq_ok.mp readOperands
  rw [← operandsOf_eq found] at run
  split at run
  next => exact absurd run (run_throw_ne_ok _ _ _)
  next e mem =>
    simp only [run_bind, run_lift] at run
    obtain ⟨_, shorter, runUser, slot, _, ⟨read, rfl⟩, _, removedEdge, runEdge, runGaps⟩ := run
    simp only [edgeSlot, bind_eq_ok, pure_eq_ok, edge_eq_ok] at read
    obtain ⟨d, h, rfl⟩ := read
    have atUser := setOperands_spec (fun _ => (p.operandsOf user).eraseIdx k) runUser
    have rewiresUser := (modifyNode_rewires user) runUser
    have rem := unlinkEdge_spec (rewiresUser.stored stored)
      (atUser.placid rewiresUser placid fun none => by simp [none]) (atUser.usesAgree agree) runEdge
    have restNodup : ((p.operandsOf user).eraseIdx k).Nodup := nd.eraseIdx k
    have closed : q = { removedEdge with edges := q.edges } ∧ ∀ edge, q.edges.get? edge =
          if edge ∈ ((p.operandsOf user).eraseIdx k).drop k then
            (removedEdge.edges.get? edge).map (Edge.closing d.slot)
          else removedEdge.edges.get? edge := by
      split at runGaps
      next gap place =>
        rw [place]
        exact closeGaps_spec (restNodup.sublist (List.drop_sublist _ _)) runGaps
      next others =>
        obtain ⟨-, rfl⟩ := run_pure.mp runGaps
        have unmoved : ∀ kept : Edge, kept.closing d.slot = kept := by
          intro kept
          unfold Edge.closing Slot.closing
          split
          next place _ => exact absurd place (others _)
          next => rfl
        exact ⟨rfl, fun edge => by simp [funext unmoved]⟩
    obtain ⟨others, edges⟩ := closed
    have pls : q.payload? = removedEdge.payload? := by
      rw [others]
      rfl
    have ops : q.operandsOf = removedEdge.operandsOf := by
      rw [others]
      rfl
    have uses : q.usesOf = removedEdge.usesOf := by
      rw [others]
      rfl
    have spare : q.spare = removedEdge.spare := by
      rw [others]
      rfl
    have keptPayloads : p.KeepsPayloads q :=
      (KeepsPayloads.of_eq atUser.payloads).trans (rem.payloads.trans (.of_eq pls))
    have sameBlocks := keptPayloads.block?
    have gone : e ∉ (p.operandsOf user).eraseIdx k := not_mem_eraseIdx nd mem
    refine ⟨e, d, mem, h,
      { rewires := rew
        live := atUser.live
        wires := fun edge => ?_
        edges := fun edge out => ?_
        kinds := fun other _ => congrFun keptPayloads.kind? other
        operands := ops.trans (rem.operands.trans atUser.operands)
        uses := fun value => by
          have kept := rem.uses value
          rwa [atUser.uses, ← uses] at kept
        spare := spare.trans (rem.spare.trans atUser.spare)
        jumps := fun src tgt => by simp [jumps_eq_of_block? sameBlocks]
        mirrored := FlowMirrored.of_block? sameBlocks }, fun edge kept => ?_, keptPayloads⟩
    · rw [wire?, edges, rem.edges, atUser.edges]
      split <;> split <;>
        simp [wire?, map_map, comp_def]
    · have beyond : edge ∉ ((p.operandsOf user).eraseIdx k).drop k :=
        fun mem => out (List.mem_of_mem_drop mem)
      rw [edges, if_neg beyond, rem.edges, atUser.edges]
    · have ne : edge ≠ e := by
        rintro rfl
        exact gone kept
      have stays : removedEdge.edges.get? edge = p.edges.get? edge := by
        rw [rem.edges, if_neg (by simpa using ne), atUser.edges]
      rw [edges, stays]

end Step

end ValueGraph
