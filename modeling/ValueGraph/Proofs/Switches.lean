import Mathlib
import ValueGraph.Proofs.Progress
import ValueGraph.Proofs.Rerouting

namespace ValueGraph

open Program List Option

/-!
# Switches

Case values and case targets are kept in two lists.  A switch that is not finalized pairs
them up: its operands are the condition, the default and one target for each value, and
edits of its targets are edits of one list of cases.
-/

variable {p q s : Program} {sw i : InstId} {cond u : ValueId} {fallback tgt old new : BlockId}
  {cases rest : List (Int64 × BlockId)} {values : List Int64} {pos : Nat} {edges : List EdgeId}
  {v : Int64} {kind : InstKind} {ty : TypeId}

namespace Program

/-- The operands of a switch are its condition, its default and the targets of its cases. -/
structure Switches (program : Program) (switch : InstId) (condition : ValueId)
    (fallback : BlockId) (cases : List (Int64 × BlockId)) : Prop where
  kind : program.kind? switch = some (.switch (cases.map (·.1)))
  distinct : (cases.map (·.1)).Nodup
  reads : (program.operandsOf switch).map program.readBy? =
    (condition :: fallback :: cases.map (·.2)).map some
  places : (program.operandsOf switch).map (fun edge => (program.edges.get? edge).map (·.slot)) =
    (.fixed 0 :: .fixed 1 :: (List.range cases.length).map .indexed).map some
  blocks : ∀ target ∈ fallback :: cases.map (·.2), program.isBlock target = true
  integer : ∃ type, program.type? condition = some type ∧ program.types.isInt type = .ok true

/-- Edges that show something to their users read values in the places that they show. -/
theorem exists_reads {facets : List Facet} (seen : edges.map s.edgeFacet? = facets.map some) :
    ∃ values : List ValueId, edges.map s.readBy? = values.map some ∧
      edges.map (fun edge => (s.edges.get? edge).map (·.slot)) = (facets.map (·.slot)).map some ∧
      facets.map (·.isBlock) = values.map s.isBlock ∧
      values.map s.type? = (facets.map (·.type)).map some := by
  induction edges generalizing facets with
  | nil =>
    obtain rfl : facets = [] := by simpa using seen.symm
    exact ⟨[], rfl, rfl, rfl, rfl⟩
  | cons edge others ih =>
    cases facets with
    | nil => simp at seen
    | cons facet facets =>
      obtain ⟨shows, seen⟩ := cons.inj seen
      obtain ⟨values, reads, places, blocks, types⟩ := ih seen
      obtain ⟨d, h, shows⟩ := bind_eq_some_iff.mp shows
      obtain ⟨ty, isType, rfl⟩ := map_eq_some_iff.mp shows
      exact ⟨d.value :: values, by simp [readBy?, h, reads], by simp [h, places],
        by simp [blocks], by simp [isType, types]⟩

theorem Conforms.exists_switches (conf : s.Conforms sw) (hsw : s.kind? sw = some (.switch values)) :
    ∃ cond fallback cases, s.Switches sw cond fallback cases ∧ cases.map (·.1) = values := by
  obtain ⟨kind, own, facets, isKind, -, seen, accepts⟩ := conf
  obtain ⟨others, reads, places, blocks, types⟩ := exists_reads seen
  obtain rfl := mem_unique hsw isKind
  have slots : facets.map (·.slot) = .fixed 0 :: .fixed 1 :: (range values.length).map .indexed :=
    accepts.lays
  have length : others.length = values.length + 2 := by
    have first := congrArg length slots
    have second := congrArg length blocks
    simp at first second
    omega
  obtain ⟨cond, fallback, targets, rfl⟩ : ∃ cond fallback targets,
      others = cond :: fallback :: targets := by
    rcases others with _ | ⟨cond, _ | ⟨fallback, targets⟩⟩
    · simp at length
    · simp at length
    · exact ⟨_, _, _, rfl⟩
  have eq : values.length = targets.length := by simpa using length.symm
  have fst : (values.zip targets).map (·.1) = values := map_fst_zip eq.le
  have snd : (values.zip targets).map (·.2) = targets := map_snd_zip eq.ge
  refine ⟨cond, fallback, values.zip targets, ⟨by rw [fst, hsw], ?_, by rw [snd, reads],
    by rw [length_zip, ← eq, Nat.min_self, places, slots], fun tgt mem => ?_, ?_⟩, fst⟩
  · rw [fst]
    exact accepts.differ _ rfl
  · rw [snd] at mem
    have ht : ∀ facet ∈ facets.tail, facet.isBlock = true := by
      intro facet inTail
      refine accepts.targets facet (mem_of_mem_tail inTail) ?_
      have place : facet.slot ∈ (facets.map (·.slot)).tail := by
        rw [← map_tail]
        exact mem_map_of_mem inTail
      rw [slots, List.tail_cons, List.mem_cons, List.mem_map] at place
      rcases place with isFixed | ⟨_, -, isIndexed⟩
      · simp [isFixed, InstKind.isTargetSlot]
      · simp [← isIndexed, InstKind.isTargetSlot]
    have shown : s.isBlock tgt ∈ facets.tail.map (·.isBlock) := by
      rw [map_tail, blocks]
      exact mem_map_of_mem mem
    obtain ⟨facet, inTail, hb⟩ := mem_map.mp shown
    rw [← hb, ht facet inTail]
  · obtain ⟨ty, _, ops, isInt, -⟩ := accepts.fits
    rw [ops] at types
    exact ⟨ty, (cons.inj types).1, isInt⟩

theorem Conforms.switches (conf : s.Conforms sw)
    (hsw : s.kind? sw = some (.switch (cases.map (·.1))))
    (reads : (s.operandsOf sw).map s.readBy? = (cond :: fallback :: cases.map (·.2)).map some) :
    s.Switches sw cond fallback cases := by
  obtain ⟨_, _, others, switches, values⟩ := conf.exists_switches hsw
  have eq := map_injective_iff.mpr (some_injective _) (switches.reads.symm.trans reads)
  obtain ⟨rfl, rest⟩ := cons.inj eq
  obtain ⟨rfl, targets⟩ := cons.inj rest
  obtain rfl : others = cases := by
    rw [← zip_unzip others, ← zip_unzip cases, unzip_eq_map, unzip_eq_map, values, targets]
  exact switches

theorem isConstant_eq_false_of_isBlock {v : ValueId} (hb : s.isBlock v = true) :
    s.isConstant v = false := by
  rw [Program.isBlock, beq_iff_eq] at hb
  simp [isConstant, hb]

/-- Operands are read in their places. -/
theorem operand?_eq_ok {values : List ValueId} (live : s.isLive u = true)
    (reads : (s.operandsOf u).map s.readBy? = values.map some) (k : Nat) :
    s.operand? u k = .ok values[k]? := by
  have here := congrArg (·[k]?) reads
  simp only [getElem?_map] at here
  refine bind_eq_ok.mpr ⟨_, operands_eq_ok_iff_of_live.mpr ⟨live, rfl⟩, ?_⟩
  cases absent : (s.operandsOf u)[k]? with
  | none =>
    rw [absent, map_none, eq_comm, map_eq_none_iff] at here
    rw [here]
    rfl
  | some edge =>
    rw [absent, map_some, eq_comm, map_eq_some_iff] at here
    obtain ⟨v, isValue, read⟩ := here
    rw [isValue]
    exact bind_eq_ok.mpr ⟨v, edgeValue_eq_ok.mpr (readBy?_eq_some_iff.mp read.symm), rfl⟩

namespace Switches

variable (switches : s.Switches sw cond fallback cases)
include switches

theorem isLive : s.isLive sw = true := by
  obtain ⟨d, h, -⟩ := map_eq_some_iff.mp switches.kind
  exact isLive_of_inst? h

theorem readKind : s.kind sw = .ok (.switch (cases.map (·.1))) := by
  obtain ⟨d, h, isKind⟩ := map_eq_some_iff.mp switches.kind
  exact kind_eq_ok.mpr ⟨d, h, isKind⟩

theorem readValues : s.switchValues? sw = .ok (some (cases.map (·.1))) :=
  bind_eq_ok.mpr ⟨_, switches.readKind, rfl⟩

end Switches

end Program

/-! ### Cases that go -/

namespace Step

end Step

/-- A switch that is not finalized, in a program in which instructions conform. -/
structure Program.Hosts (program : Program) (switch : InstId) (condition : ValueId)
    (fallback : BlockId) (cases : List (Int64 × BlockId)) : Prop
    extends program.Switches switch condition fallback cases where
  sound : program.Sound
  typed : program.WellTyped
  ongoing : program.Ongoing switch

theorem Program.Hosts.of_redrawn {later : List (Int64 × BlockId)}
    (hosts : p.Hosts sw cond fallback cases) (redrawn : Redrawn default p q) (rew : p.Rewires q)
    (hsw : q.kind? sw = some (.switch (later.map (·.1))))
    (reads : (q.operandsOf sw).map q.readBy? = (cond :: fallback :: later.map (·.2)).map some) :
    q.Hosts sw cond fallback later := by
  have typed := (kept_wellTyped _).shrunk hosts.sound (Redrawn.shrunk redrawn) hosts.typed
  have ongoing := hosts.ongoing.of_link?_eq (congrFun rew.skeleton.link? sw).symm
  exact ⟨(typed sw ongoing).switches hsw reads, Redrawn.sound redrawn hosts.sound, typed, ongoing⟩

namespace Step

theorem addCaseTo_succeeds (hs : p.Sound) (hsw : p.kind? sw = some (.switch values))
    (hb : p.isBlock tgt = true) : (addCaseTo sw values v tgt).Succeeds p := by
  obtain ⟨d, h, -⟩ := map_eq_some_iff.mp hsw
  have hi := isInst_of_inst? h
  refine .bind (modifyInst_succeeds _ hi) fun _ recased runKind => ?_
  obtain ⟨kept, -⟩ := setCases_recased (shell?_of_kind? hsw) runKind
  obtain ⟨insts, blocks⟩ := modifyInst_sorts runKind
  refine .bind (addOperand_succeeds (isLive_of_category ((congrFun insts sw).trans hi))
    (isLive_of_category ((congrFun blocks tgt).trans hb))) fun _ grown runEdge => ?_
  obtain ⟨edge, added, -⟩ := addOperand_spec (kept.rewires.stored hs.stored) runEdge
  have skeleton := (kept.rewires.trans added.rewires).skeleton
  apply Succeeds.get_bind
  apply Succeeds.lift_bind (parentBlock?_eq_ok.mpr ⟨by rwa [skeleton.isInst], rfl⟩)
  rw [skeleton.home?]
  split
  next b home =>
    exact modifyPair_succeeds _ _ (by rw [skeleton.isBlock, hs.isBlock_of_home? home])
      (by rwa [skeleton.isBlock])
  next => exact .pure ()

end Step

/-! ### Edits of cases -/

namespace Program

theorem requireTerminator_of_kind (read : s.kind i = .ok kind) (ends : kind.isTerminator = true) :
    s.requireTerminator i = .ok () := by
  obtain ⟨d, h, -⟩ := kind_eq_ok.mp read
  simp only [requireTerminator, requireInst, bind_eq_ok, require_eq_ok, liftHalt_eq_ok]
  exact ⟨(), isInst_of_inst? h, kind, read, ends⟩

theorem ongoing_of_kind (read : s.kind i = .ok kind) (ongoing : s.status i ≠ .ok .finalized) :
    s.Ongoing i := by
  obtain ⟨d, h, -⟩ := kind_eq_ok.mp read
  exact ⟨d.link, link?_of_inst? h, fun fin => ongoing (status_eq_ok.mpr ⟨d, h, fin⟩)⟩

theorem exists_hosts (hs : s.Sound) (typed : s.WellTyped) (hsw : s.kind sw = .ok (.switch values))
    (ongoing : s.status sw ≠ .ok .finalized) :
    ∃ cond fallback cases, s.Hosts sw cond fallback cases ∧ cases.map (·.1) = values := by
  have standing := ongoing_of_kind hsw ongoing
  obtain ⟨cond, fallback, cases, switches, isValues⟩ :=
    (typed sw standing).exists_switches (kind?_of_kind hsw)
  exact ⟨cond, fallback, cases, ⟨switches, hs, typed, standing⟩, isValues⟩

namespace Hosts

variable (hosts : p.Hosts sw cond fallback cases)
include hosts

end Hosts

end Program

/-! ### Targets that move -/

namespace Program

/-- The edges through which a terminator leads to blocks, each with its block. -/
structure Aims (program : Program) (inst : InstId) (aims : List (EdgeId × BlockId)) : Prop where
  sound : program.Sound
  ends : ∃ kind, program.kind? inst = some kind ∧ kind.isTerminator = true
  edges : program.targetEdgesOf inst = aims.map (·.1)
  reads : ∀ aim ∈ aims, program.readBy? aim.1 = some aim.2
  blocks : ∀ aim ∈ aims, program.isBlock aim.2 = true

/-- One block can take the place of another. -/
theorem Sound.replaces (hs : s.Sound) (isOld : s.isBlock old = true)
    (isNew : s.isBlock new = true) : s.Replaces old new where
  leads _ := isNew
  agree oldType newType readOld readNew := by
    rw [hs.registry.labels old _ isOld readOld, hs.registry.labels new _ isNew readNew]
    simp [TypeTable.equal, TypeTable.agreeWithin, pure, Except.pure]

namespace Aims

variable {aims front rest : List (EdgeId × BlockId)} {edge : EdgeId}

theorem isInst (h : s.Aims i aims) : s.isInst i = true := by
  obtain ⟨kind, isKind, -⟩ := h.ends
  obtain ⟨d, held, -⟩ := map_eq_some_iff.mp isKind
  exact isInst_of_inst? held

theorem terminator (h : s.Aims i aims) : s.requireTerminator i = .ok () := by
  obtain ⟨kind, isKind, ends⟩ := h.ends
  exact requireTerminator_of_kind (kind_eq_ok.mpr (map_eq_some_iff.mp isKind)) ends

theorem nodup (h : s.Aims i aims) : (aims.map (·.1)).Nodup := by
  rw [← h.edges, targetEdgesOf]
  cases s.shell? i with
  | none => exact nodup_nil
  | some kind => exact (h.sound.wired.nodup i).filter _

/-- No check stands in the way of the edges that lead to one block. -/
theorem forEach_setUse_eq (h : p.Aims i aims) (hb : p.isBlock new = true) {edges : List EdgeId}
    (part : edges.Sublist ((aims.filter (·.2 = old)).map (·.1))) :
    Edit.forEach (setUse · (some new)) edges p =
      Edit.perform (if new = old then pure () else edges.forM (Step.rebind · new)) p := by
  cases edges with
  | nil => split <;> rfl
  | cons edge rest =>
    have nd := (part.trans (filter_sublist.map _)).nodup h.nodup
    have reads : ∀ e ∈ edge :: rest, ∃ d, p.edges.get? e = some d ∧ d.value = old := by
      intro e mem
      obtain ⟨aim, hit, rfl⟩ := mem_map.mp (part.subset mem)
      obtain ⟨listed, isOld⟩ := mem_filter.mp hit
      exact readBy?_eq_some_iff.mp (of_decide_eq_true isOld ▸ h.reads aim listed)
    obtain ⟨aim, hit, -⟩ := mem_map.mp (part.subset (mem_cons_self (l := rest)))
    obtain ⟨listed, isOld⟩ := mem_filter.mp hit
    have isOld : p.isBlock old = true := of_decide_eq_true isOld ▸ h.blocks aim listed
    exact ValueGraph.forEach_setUse_eq h.sound nd reads hb (h.sound.replaces isOld hb)

/-- One edge is moved, and the others lead where they led. -/
theorem rebind (h : p.Aims i (front ++ (edge, old) :: rest)) (hb : p.isBlock new = true) :
    ∃ q, (Step.rebind edge new).run p = .ok ((), q) ∧ q.isBlock new = true ∧
      q.Aims i (front ++ (edge, new) :: rest) := by
  obtain ⟨d, held, isOld⟩ := readBy?_eq_some_iff.mp (h.reads (edge, old) (by simp))
  have wasBlock : p.isBlock d.value = true := isOld ▸ h.blocks (edge, old) (by simp)
  obtain ⟨⟨⟩, q, run⟩ := Step.rebind_succeeds h.sound.wired.uses held
    (by simp [isConstant_eq_false_of_isBlock wasBlock]) (isLive_of_category hb)
    fun _ src home => h.sound.isBlock_of_home? home
  obtain ⟨_, moved⟩ := Step.rebind_spec h.sound.stored h.sound.wired.placid h.sound.wired.uses run
  obtain rfl := mem_unique held moved.held
  have skeleton := moved.rewires.skeleton
  have nd := h.nodup
  rw [map_append, map_cons, nodup_middle, nodup_cons, ← map_append] at nd
  have isNew : q.isBlock new = true := by rwa [skeleton.isBlock]
  refine ⟨q, run, isNew, moved.sound h.sound, moved.kinds ▸ h.ends, ?_, ?_, ?_⟩
  · rw [(moved.diverts (not_mem_nil) (.refl q new)).targetEdgesOf_eq, h.edges]
    simp
  · intro aim mem
    rcases mem_cons.mp (perm_middle.mem_iff.mp mem) with rfl | others
    · simp [readBy?, moved.edges]
    · have ne : aim.1 ≠ edge := fun eq => nd.1 (mem_map.mpr ⟨aim, others, eq⟩)
      rw [readBy?, moved.edges, Function.update_of_ne ne]
      exact h.reads aim (perm_middle.mem_iff.mpr (mem_cons_of_mem _ others))
  · intro aim mem
    rw [skeleton.isBlock]
    rcases mem_cons.mp (perm_middle.mem_iff.mp mem) with rfl | others
    · exact hb
    · exact h.blocks aim (perm_middle.mem_iff.mpr (mem_cons_of_mem _ others))

end Aims

end Program

/-- Whether a number is among the values of an integer type. -/
def Representable (number : Int) (width : Nat) (signed : Bool) : Prop :=
  if signed = true ∧ width ≠ 0 then -2 ^ (width - 1) ≤ number ∧ number < 2 ^ (width - 1)
  else 0 ≤ number ∧ number < 2 ^ width

instance (number : Int) (width : Nat) (signed : Bool) :
    Decidable (Representable number width signed) :=
  inferInstanceAs (Decidable (ite _ _ _))

/-- The bound of the unsigned numbers of 63 bits is not among the words in which it is computed. -/
theorem fitsWidth_iff (v : Int64) (width : Nat) (signed : Bool) :
    fitsWidth v width signed = true ↔
      Representable v.toInt width signed ∧ ¬ (signed = false ∧ width = 63) := by
  have powers : ∀ shift < 63, ((1 : Int64) <<< Int64.ofNat shift).toInt = 2 ^ shift ∧
      (-((1 : Int64) <<< Int64.ofNat shift)).toInt = -2 ^ shift := by decide
  have last : ((1 : Int64) <<< (63 : Int64)).toInt = -2 ^ 63 := by decide
  have above : v.toInt < 2 ^ 63 := v.toInt_lt
  have below : -2 ^ 63 ≤ v.toInt := v.le_toInt
  have zero : (0 : Int64).toInt = 0 := rfl
  rw [fitsWidth, Representable]
  split
  next none =>
    subst none
    rw [beq_iff_eq, ← Int64.toInt_inj, zero]
    simp
    omega
  next some =>
    split
    next wide =>
      have large : (2 : Int) ^ 63 ≤ 2 ^ (width - 1) := pow_le_pow_right₀ (by decide) (by omega)
      have larger : (2 : Int) ^ 63 ≤ 2 ^ width := pow_le_pow_right₀ (by decide) (by omega)
      cases signed with
      | true => simp [some]; omega
      | false => simp [Int64.le_iff_toInt_le, zero]; omega
    next narrow =>
      cases signed with
      | true =>
        obtain ⟨half, negated⟩ := powers (width - 1) (by omega)
        simp [Int64.lt_iff_toInt_lt, Int64.le_iff_toInt_le, half, negated, some, and_comm]
      | false =>
        by_cases top : width = 63
        · subst top
          simp [Int64.lt_iff_toInt_lt, Int64.le_iff_toInt_le, last, zero]
          omega
        · simp [Int64.lt_iff_toInt_lt, Int64.le_iff_toInt_le, (powers width (by omega)).1, zero,
            top]

theorem TypeTable.exists_shape_of_isInt {t : TypeTable} (isInt : t.isInt ty = .ok true) :
    ∃ bits signed, t.shape ty = .ok (.int bits signed) := by
  obtain ⟨shape, read, decided⟩ := bind_eq_ok.mp isInt
  cases shape with
  | int bits signed => exact ⟨bits, signed, read⟩
  | _ => simp [pure_eq_ok] at decided

/-- A case with a new value is taken if the value fits the condition. -/
theorem Program.Switches.addCase_eq {bits : UInt32} {signed : Bool}
    (switches : p.Switches sw cond fallback cases) (hb : p.isBlock tgt = true)
    (fresh : v ∉ cases.map (·.1)) (isType : p.type? cond = some ty)
    (isInt : p.types.shape ty = .ok (.int bits signed)) :
    addCase sw v tgt p =
      if fitsWidth v bits.toNat signed then
        Edit.perform (Step.addCaseTo sw (cases.map (·.1)) v tgt) p
      else .refused (.edit (.typeMismatch ty .caseFitsCondition)) p := by
  obtain ⟨d, h, -⟩ := map_eq_some_iff.mp switches.kind
  have hi := isInst_of_inst? h
  have first := operand?_eq_ok switches.isLive switches.reads 0
  have readType := typeOf_eq_ok.mpr (map_eq_some_iff.mp isType)
  have readBits : p.types.intBits? ty = .ok (some bits.toNat) := by
    rw [TypeTable.intBits?, isInt]
    rfl
  have readSign : p.types.isSigned ty = .ok signed := by
    rw [TypeTable.isSigned, isInt]
    rfl
  have isNew : (!(cases.map (·.1)).contains v) = true := by simpa using fresh
  have passes : ∀ cause, require true cause = pure () := fun _ => rfl
  have lifts : ∀ {α : Type} (res : α),
      (liftM (Except.ok res : Except Fault α) : Except Halt α) = pure res := fun _ => rfl
  simp only [addCase, Edit.plan, requireInst, requireBlock, hi, switches.readKind, hb, isNew,
    first, readType, readBits, readSign, passes, lifts, pure_bind, getElem?_cons_zero,
    getD_some]
  cases fits : fitsWidth v bits.toNat signed <;> rfl

/-- A switch takes a case with a new value if and only if the type of its condition has the
value, except that it takes none if the condition is an unsigned number of 63 bits. -/
theorem case_is_taken_iff_representable {name : String} {settings : Settings}
    {operations : List Operation} {program : Program} {switch : InstId} {values : List Int64}
    {target : BlockId} {value : Int64}
    (run : (Program.initial name settings).runAll? operations = some program)
    (isSwitch : program.kind switch = .ok (.switch values))
    (ongoing : program.status switch ≠ .ok .finalized) (isBlock : program.isBlock target = true)
    (fresh : value ∉ values) :
    ∃ condition type bits signed, program.operand? switch 0 = .ok (some condition) ∧
      program.typeOf condition = .ok type ∧ program.types.shape type = .ok (.int bits signed) ∧
      if Representable value.toInt bits.toNat signed ∧ ¬ (signed = false ∧ bits = 63) then
        ∃ after, addCase switch value target program = .done () after
      else
        addCase switch value target program =
          .refused (.edit (.typeMismatch type .caseFitsCondition)) program := by
  obtain ⟨condition, fallback, cases, hosts, rfl⟩ := exists_hosts (sound_of_runAll? run)
    (wellTyped_of_runAll? run) isSwitch ongoing
  obtain ⟨type, isType, isInt⟩ := hosts.integer
  obtain ⟨bits, signed, shape⟩ := TypeTable.exists_shape_of_isInt isInt
  have readType := typeOf_eq_ok.mpr (Option.map_eq_some_iff.mp isType)
  refine ⟨condition, type, bits, signed, operand?_eq_ok hosts.isLive hosts.reads 0, readType, shape,
    ?_⟩
  have added := hosts.addCase_eq isBlock fresh isType shape
  have fits := fitsWidth_iff value bits.toNat signed
  have narrow : bits.toNat = 63 ↔ bits = 63 := @UInt32.toNat_inj bits 63
  rw [narrow] at fits
  simp only [← fits, added]
  split
  next =>
    obtain ⟨⟨⟩, after, runCase⟩ := Step.addCaseTo_succeeds hosts.sound hosts.kind isBlock
    exact ⟨after, Edit.perform_eq_done.mpr runCase⟩
  next => rfl

/-- A switch over signed bytes takes the least byte. -/
theorem switch_takes_least_byte :
    ∃ program, (Program.initial "m" .standard).runAll?
        [.createBlock, .constSigned ⟨3⟩ 7, .buildSwitch ⟨1, 0⟩ ⟨0, 0⟩] = some program ∧
      program.kind ⟨2, 0⟩ = .ok (.switch []) ∧ program.typeOf ⟨1, 0⟩ = .ok ⟨3⟩ ∧
      program.types.shape ⟨3⟩ = .ok (.int 8 true) ∧
      ∃ after, addCase ⟨2, 0⟩ (-128) ⟨0, 0⟩ program = .done () after := by
  refine exists_runAll? fun program run => ?_
  obtain ⟨isSwitch, ongoing, isBlock, first, isByte, byte⟩ :
      program.kind ⟨2, 0⟩ = .ok (.switch []) ∧ program.status ⟨2, 0⟩ ≠ .ok .finalized ∧
      program.isBlock ⟨0, 0⟩ = true ∧ program.operand? ⟨2, 0⟩ 0 = .ok (some ⟨1, 0⟩) ∧
      program.typeOf ⟨1, 0⟩ = .ok ⟨3⟩ ∧ program.types.shape ⟨3⟩ = .ok (.int 8 true) := by
    apply holds_of_runAll? run
  obtain ⟨condition, type, bits, signed, reads, isType, isInt, taken⟩ :=
    case_is_taken_iff_representable run isSwitch ongoing isBlock (show (-128 : Int64) ∉ [] by simp)
  obtain rfl : ⟨1, 0⟩ = condition := Option.some.inj (Except.ok.inj (first.symm.trans reads))
  obtain rfl : ⟨3⟩ = type := Except.ok.inj (isByte.symm.trans isType)
  obtain ⟨rfl, rfl⟩ := Shape.int.inj (Except.ok.inj (byte.symm.trans isInt))
  rw [if_pos (by decide)] at taken
  exact ⟨isSwitch, isByte, byte, taken⟩

/-- A switch over unsigned numbers of 63 bits does not even take zero. -/
theorem switch_over_63_bits_refuses_zero :
    ∃ program, (Program.initial "m" .standard).runAll?
        [.requestType (.int 63 false), .createBlock, .constUnsigned ⟨13⟩ 7,
          .buildSwitch ⟨1, 0⟩ ⟨0, 0⟩] = some program ∧
      program.kind ⟨2, 0⟩ = .ok (.switch []) ∧ program.typeOf ⟨1, 0⟩ = .ok ⟨13⟩ ∧
      program.types.shape ⟨13⟩ = .ok (.int 63 false) ∧ Representable 0 63 false ∧
      addCase ⟨2, 0⟩ 0 ⟨0, 0⟩ program =
        .refused (.edit (.typeMismatch ⟨13⟩ .caseFitsCondition)) program := by
  refine exists_runAll? fun program run => ⟨?_, ?_, ?_, by decide, of_decide_eq_true ?_⟩
  · apply holds_of_runAll? run
  · apply holds_of_runAll? run
  · apply holds_of_runAll? run
  · apply holds_of_runAll? run

end ValueGraph
