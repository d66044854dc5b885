import Mathlib
import ValueGraph.Proofs.Runs
import ValueGraph.Proofs.Typing

open Function

namespace ValueGraph

open Program List Option

/-!
# Rules for operands

Factories ask more of some operands than a type: a register to write to, a pointer
to something that is not const, a constant for a global.  Edits of edges look at
types alone, so a rule is kept exactly as long as clients keep it in the edges that
they redirect.
-/

variable {u v : ValueId} {e : EdgeId} {d : Edge} {s : Program} {k : Nat} {i : InstId}

namespace Program

variable {p q : Program} {pr : Promise} {rule : Rule}

/-- All operands that a rule is about are as it asks. -/
def Obeys (rule : Rule) (program : Program) : Prop :=
  ∀ user edge data, edge ∈ program.operandsOf user → program.wire? edge = some data →
    program.rule? user data.slot = some rule → program.Meets data.value rule

theorem Obeys.of_sheds (obeys : p.Obeys rule) (hsq : q.Sound) (wanes : p.Wanes q)
    (sheds : p.Sheds q) : q.Obeys rule := by
  intro u e d mem h asks
  have live := isLive_of_mem_operandsOf mem
  rw [(wanes.sorts u live).rule?] at asks
  have meets := obeys u e d ((sheds.operands u).subset mem) (sheds.wires e d h) asks
  exact (wanes.sorts d.value (hsq.wired.value_live h)).meets wanes.table meets

/-- An operand that was there before goes on to be as its rule asks. -/
theorem Obeys.kept (obeys : p.Obeys rule) (hs : p.Sound) (waxes : p.Waxes q)
    (mem : e ∈ p.operandsOf u) (h : p.wire? e = some d) (asks : q.rule? u d.slot = some rule) :
    q.Meets d.value rule := by
  rw [(waxes.sorts u (isLive_of_mem_operandsOf mem)).rule?] at asks
  exact (waxes.sorts d.value (hs.wired.value_live h)).meets waxes.table (obeys u e d mem h asks)

@[simp]
theorem rule?_outline (s : Program) (u : ValueId) (slot : Slot) :
    s.rule? u slot.outline = s.rule? u slot := by
  simp only [rule?, InstKind.rule?_outline]

/-- An edge that is added is as the rule of its user asks. -/
theorem Obeys.of_joins (obeys : p.Obeys rule) (hs : p.Sound) (joins : p.Joins q e d)
    (fits : p.rule? d.user d.slot = some rule → p.Meets d.value rule) : q.Obeys rule := by
  have hsq := joins.sound hs
  have wanes := joins.added.rewires.wanes
  intro u edge data mem h asks
  have isFound := hsq.wired.value_live h
  refine (wanes.sorts data.value isFound).meets wanes.table ?_
  rw [(wanes.sorts u (isLive_of_mem_operandsOf mem)).rule?] at asks
  by_cases isNew : edge = e
  · subst isNew
    obtain ⟨again, h', isUser⟩ := hsq.wired.own u edge mem
    obtain rfl := mem_unique h h'
    rw [joins.added.wires, update_self, some.injEq] at h
    subst h isUser
    exact fits (by rwa [Edge.outline, rule?_outline] at asks)
  · rw [joins.added.wires, update_of_ne isNew] at h
    refine obeys u edge data ?_ h asks
    rw [joins.added.operands, update_apply] at mem
    split at mem
    next eq => simpa [eq, isNew] using mem
    next => exact mem

/-- An edge that is moved reads what its rule asks for, if it did before. -/
theorem Obeys.of_edgeMoved {new : ValueId} (obeys : p.Obeys rule) (hs : p.Sound) (hsq : q.Sound)
    (moved : p.EdgeMoved q e d new)
    (honours : p.rule? d.user d.slot = some rule → p.Meets d.value rule → p.Meets new rule) :
    q.Obeys rule := by
  have wanes := moved.rewires.wanes
  intro u edge data mem h asks
  have isFound := hsq.wired.value_live h
  refine (wanes.sorts data.value isFound).meets wanes.table ?_
  rw [(wanes.sorts u (isLive_of_mem_operandsOf mem)).rule?] at asks
  rw [moved.operands] at mem
  by_cases eq : edge = e
  · subst eq
    have hBefore : p.wire? edge = some d.outline := by
      rw [wire?, moved.held, map_some]
    rw [moved.wires, update_self, some.injEq] at h
    subst h
    obtain rfl : d.user = u := hs.wired.user_eq mem moved.held
    have asksData : p.rule? d.user d.slot = some rule := by
      rwa [Edge.outline, rule?_outline] at asks
    have metBefore : p.Meets d.outline.value rule := obeys d.user edge d.outline mem hBefore asks
    exact honours asksData metBefore
  · rw [moved.wires, update_of_ne eq] at h
    exact obeys u edge data mem h asks

theorem Shapes.obeys (shapes : p.Shapes pr q) (hs : p.Sound) (keeps : pr.keepsRule rule)
    (obeys : p.Obeys rule) : q.Obeys rule := by
  have hsq := shapes.sound hs
  rcases shapes.sheds_or_redraws hs with sheds | redraws
  · exact obeys.of_sheds hsq shapes.wanes sheds
  · cases redraws with
    | connect e d joins conf growing fits => exact obeys.of_joins hs joins (fits rule)
    | rebind e d new moved leads agree honours =>
      exact obeys.of_edgeMoved hs hsq moved (honours.rules rule keeps)
    | unread u k e d mem h optional rem =>
      exact obeys.of_sheds hsq shapes.wanes (rem.sheds (eraseIdx_sublist _ _))
    | clear g hg rem =>
      exact obeys.of_sheds hsq shapes.wanes (rem.sheds (nil_sublist _))

theorem kept_obeys (keeps : pr.keepsRule rule) : Kept pr (Obeys rule) where
  grow := by
    intro p q v ty payload hs hsq added blank noInst obeys u e d mem h asks
    rw [added.operandsOf] at mem
    rw [wire?, added.edges] at h
    exact obeys.kept hs added.waxes mem h asks
  build := by
    intro p q i ty kind hs built obeys u e d mem h asks
    by_cases eq : u = i
    · subst eq
      refine built.rules e d rule mem h ?_
      have isShell : q.shell? u = some kind.shell := by
        rw [built.shell?, update_self]
      rwa [rule?_of_shell? isShell, InstKind.rule?_shell] at asks
    · obtain ⟨started, added, joined⟩ := built.added
      rw [Joined.others joined eq, added.operandsOf] at mem
      obtain ⟨data, hBefore, -⟩ := hs.wired.own u e mem
      have hAfter : q.wire? e = some data :=
        Joined.wires joined (by rw [wire?, added.edges]; exact hBefore)
      obtain rfl := mem_unique h hAfter
      exact obeys.kept hs (built.waxes hs) mem hBefore asks
  adopt := by
    intro p q i write l hs adopts obeys
    have rea := adopts.relinked.restrings.rearranges
    exact obeys.of_sheds (adopts.sound hs) rea.wanes (.of_same rea.operands rea.edges)
  shape := fun hs shapes => shapes.obeys hs keeps

/-- Whatever runs lead to in which redirected edges keep a rule, the rule is obeyed. -/
theorem obeys_of_runAll? {name : String} {cfg : Settings} {ops : List Operation}
    (run : (initial name cfg).runAll? ops = some s)
    (along : (initial name cfg).Along (fun p op _ => op.KeepsRule p rule) ops) : s.Obeys rule := by
  refine (runAll?_invariant (fun hs obeys keeps leads => ?_) (sound_initial name cfg) ?_
    along run).2
  · exact (kept_obeys keeps).reaches hs leads.reaches obeys
  · intro u e d mem
    simp at mem

/-! ### Reading operands -/

theorem operand?_eq_some_iff :
    s.operand? u k = .ok (some v) ↔ ∃ e d, (s.operandsOf u)[k]? = some e ∧
        s.edges.get? e = some d ∧ d.value = v := by
  unfold operand?
  simp only [bind_eq_ok, operands_eq_ok]
  constructor
  · rintro ⟨_, ⟨n, h, rfl⟩, read⟩
    rw [operandsOf_eq h]
    split at read
    next e listed =>
      simp only [bind_eq_ok, edgeValue_eq_ok, pure_eq_ok, some.injEq] at read
      obtain ⟨_, ⟨d, hEdge, rfl⟩, rfl⟩ := read
      exact ⟨e, d, listed, hEdge, rfl⟩
    next => simp [pure_eq_ok] at read
  · rintro ⟨e, d, listed, hEdge, rfl⟩
    have live := isLive_of_mem_operandsOf (mem_of_getElem? listed)
    obtain ⟨n, h⟩ := Arena.contains_iff_get?.mp live
    refine ⟨_, ⟨n, h, rfl⟩, ?_⟩
    rw [operandsOf_eq h] at listed
    simp only [listed, bind_eq_ok, edgeValue_eq_ok, pure_eq_ok]
    exact ⟨d.value, ⟨d, hEdge, rfl⟩, rfl⟩

theorem operand?_of_facet {facets : List Facet} {facet : Facet}
    (seen : (s.operandsOf i).map s.edgeFacet? = facets.map some) (found : facets[k]? = some facet) :
    ∃ e d, e ∈ s.operandsOf i ∧ s.edges.get? e = some d ∧
      d.slot = facet.slot ∧ s.operand? i k = .ok (some d.value) := by
  have seenAt := congrArg (·[k]?) seen
  simp only [getElem?_map, found, map_some] at seenAt
  obtain ⟨e, listed, shows⟩ := map_eq_some_iff.mp seenAt
  obtain ⟨d, h, shows⟩ := bind_eq_some_iff.mp shows
  obtain ⟨ty, -, rfl⟩ := map_eq_some_iff.mp shows
  exact ⟨e, d, mem_of_getElem? listed, h, rfl, operand?_eq_some_iff.mpr ⟨e, d, listed, h, rfl⟩⟩

/-- An instruction that is not finalized has an operand at each place that its kind lays
out, as the rule for the place asks. -/
theorem Obeys.operand {d : Inst} {slot : Slot} (obeys : s.Obeys rule) (wellTyped : s.WellTyped)
    (h : s.inst? i = some d) (ongoing : d.status ≠ .finalized)
    (lays : ∀ slots, d.kind.Lays slots → slots[k]? = some slot)
    (asks : d.kind.rule? slot = some rule) :
    ∃ v, s.operand? i k = .ok (some v) ∧ s.Meets v rule := by
  have isOngoing : s.Ongoing i := ⟨d.link, link?_of_inst? h, ongoing⟩
  obtain ⟨kind, own, facets, isKind, -, seen, accepts⟩ := wellTyped i isOngoing
  obtain rfl : d.kind = kind := by simpa [kind?, h] using isKind
  have laid := lays _ accepts.lays
  rw [getElem?_map] at laid
  obtain ⟨facet, found, rfl⟩ := map_eq_some_iff.mp laid
  obtain ⟨e, wire, mem, hWire, sameSlot, reads⟩ := operand?_of_facet seen found
  refine ⟨wire.value, reads, obeys i e wire.outline mem ?_ ?_⟩
  · exact wire?_of_get? hWire
  · have isShell : s.shell? i = some d.kind.shell := by
      rw [shell?, h, map_some]
    rw [Edge.outline, rule?_outline, rule?_of_shell? isShell, InstKind.rule?_shell, sameSlot, asks]

/-- An initializer is a constant. -/
theorem Obeys.initializer {g : GlobalId} (obeys : s.Obeys .constant) (hg : s.isGlobal g = true)
    (read : s.initializer? g = .ok (some v)) : s.isConstant v = true := by
  obtain ⟨e, d, listed, h, rfl⟩ := operand?_eq_some_iff.mp read
  refine obeys g e d.outline (mem_of_getElem? listed) ?_ ?_
  · exact wire?_of_get? h
  · rw [rule?, if_pos hg]

end Program

/-- A rule that the redirected edges of a run keep is obeyed in the end: a register write
that is not finalized writes to a register, a store writes through a pointer to something
that is not const, a global is initialized with a constant. -/
theorem redirected_operands_obey_rules {name : String} {settings : Settings}
    {operations : List Operation} {program : Program}
    (run : (Program.initial name settings).runAll? operations = some program) :
    ((Program.initial name settings).Along
        (fun before operation _ => operation.KeepsRule before .register) operations →
      ∀ write data, program.inst? write = some data → data.status ≠ .finalized →
        data.kind = .regWrite → ∃ register, program.operand? write 0 = .ok (some register) ∧
            program.isRegister register = true) ∧
    ((Program.initial name settings).Along
        (fun before operation _ => operation.KeepsRule before .writable) operations →
      ∀ store data align, program.inst? store = some data → data.status ≠ .finalized →
        data.kind = .store align →
          ∃ pointer type pointee, program.operand? store 1 = .ok (some pointer) ∧
            program.type? pointer = some type ∧
            program.types.pointee? type = .ok (some pointee) ∧
            program.types.isConst pointee = .ok false) ∧
    ((Program.initial name settings).Along
        (fun before operation _ => operation.KeepsRule before .constant) operations →
      ∀ global value, program.isGlobal global = true →
        program.initializer? global = .ok (some value) → program.isConstant value = true) := by
  have wellTyped := wellTyped_of_runAll? run
  refine ⟨fun along write data held ongoing isWrite => ?_,
    fun along store data align held ongoing isStore => ?_,
    fun along global value isGlobal read => ?_⟩
  · have laid : ∀ slots, data.kind.Lays slots → slots[0]? = some (.fixed 0) := by
      simp [isWrite, InstKind.Lays]
    exact (obeys_of_runAll? run along).operand wellTyped held ongoing laid (by rw [isWrite]; rfl)
  · have laid : ∀ slots, data.kind.Lays slots → slots[1]? = some (.fixed 1) := by
      simp [isStore, InstKind.Lays]
    obtain ⟨pointer, reads, type, pointee, writable⟩ :=
      (obeys_of_runAll? run along).operand wellTyped held ongoing laid (by rw [isStore]; rfl)
    exact ⟨pointer, type, pointee, reads, writable⟩
  · exact (obeys_of_runAll? run along).initializer isGlobal read

/-- A store that is made to write through another pointer goes on to write to something
that is not const. -/
theorem redirected_store_writable :
    ∃ program, (Program.initial "m" .standard).runAll?
        ([.buildAlloca ⟨5⟩ none, .buildAlloca ⟨5⟩ none, .constSigned ⟨5⟩ 1,
          .buildStore ⟨2, 0⟩ ⟨0, 0⟩ none] ++ [.setUse ⟨1, 0⟩ (some ⟨1, 0⟩)]) = some program ∧
      program.inst? ⟨3, 0⟩ = some (.fresh (.store 4)) ∧
      ∃ pointer type pointee, program.operand? ⟨3, 0⟩ 1 = .ok (some pointer) ∧
        program.type? pointer = some type ∧ program.types.pointee? type = .ok (some pointee) ∧
        program.types.isConst pointee = .ok false := by
  refine exists_runAll? fun program run => ?_
  have held : program.inst? ⟨3, 0⟩ = some (.fresh (.store 4)) := by
    apply holds_of_runAll? run
  refine ⟨held, (redirected_operands_obey_rules run).2.1 ?_ ⟨3, 0⟩ _ 4 held (by decide) rfl⟩
  refine .append (along_of_forall ?_ _) fun middle runFirst after _ => ⟨?_, trivial⟩
  · simp [Operation.KeepsRule, Operation.Rebinds]
  · rintro data new ⟨-, -, isNew⟩ -
    obtain rfl := Option.some.inj isNew
    refine ⟨⟨13⟩, ⟨5⟩, ?_⟩
    apply holds_of_runAll? runFirst

/-- Nothing keeps a client from redirecting a store to a pointer to something that is
const. -/
theorem store_redirected_to_const :
    ∃ program, (Program.initial "m" .standard).runAll?
        [.buildAlloca ⟨5⟩ none, .constSigned ⟨5⟩ 1, .buildStore ⟨1, 0⟩ ⟨0, 0⟩ none,
          .requestType (.withConst ⟨5⟩ true), .requestType (.pointer ⟨14⟩), .constUndefined ⟨15⟩,
          .setUse ⟨1, 0⟩ (some ⟨3, 0⟩)] = some program ∧
      program.inst? ⟨2, 0⟩ = some (.fresh (.store 4)) ∧
      program.operand? ⟨2, 0⟩ 1 = .ok (some ⟨3, 0⟩) ∧ program.type? ⟨3, 0⟩ = some ⟨15⟩ ∧
      program.types.pointee? ⟨15⟩ = .ok (some ⟨14⟩) ∧
      program.types.isConst ⟨14⟩ = .ok true := by
  refine exists_runAll? fun program run => ?_
  apply holds_of_runAll? run

end ValueGraph
