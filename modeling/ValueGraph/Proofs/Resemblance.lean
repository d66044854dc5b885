import Mathlib
import ValueGraph.Proofs.Frames

open Function

namespace ValueGraph

open Option

/-!
# Instructions that stay what they are

Several rules look at the kind of an instruction, its type and its operands.  Moves
leave all that alone, or put an operand of an equal type in the place of another, but
for the operands of the one phi or switch that an edge comes to or is taken from.
-/

variable {v : ValueId} {e : EdgeId} {d : Edge} {first second r : TypeTable} {ty : TypeId}

/-! ### Operands that stand for each other -/

theorem TypeTable.Alike.trans {m type : TypeId} (earlier : first.Alike second ty m)
    (later : second.Alike r m type) : first.Alike r ty type :=
  ⟨earlier.registered, later.registeredOther, later.trees.trans earlier.trees⟩

theorem Facet.Stands.trans {facet m other : Facet} (earlier : Facet.Stands first second facet m)
    (later : Facet.Stands second r m other) : Facet.Stands first r facet other :=
  ⟨later.slot.trans earlier.slot, earlier.type.trans later.type, later.isBlock ∘ earlier.isBlock⟩

namespace Program

variable {p q : Program} {pr : Promise} {i : InstId}

theorem Resembles.trans {first second r : Program} (earlier : first.Resembles second i)
    (later : second.Resembles r i) : first.Resembles r i where
  kind := later.kind.trans earlier.kind
  own := later.own.trans earlier.own
  operands facets readFacets := by
    obtain ⟨m, readMiddle, stands⟩ := earlier.operands facets readFacets
    obtain ⟨others, readOthers, standsLater⟩ := later.operands m readMiddle
    refine ⟨others, readOthers, ?_⟩
    clear readFacets readMiddle readOthers
    induction stands generalizing others with
    | nil =>
      cases standsLater
      exact .nil
    | cons here _ ih =>
      cases standsLater with
      | cons hereLater restLater =>
        exact .cons (here.trans hereLater) (ih _ restLater)

theorem exists_type? (live : p.isLive v = true) : ∃ ty, p.type? v = some ty := by
  rw [isLive, Arena.contains_iff_get?] at live
  obtain ⟨n, h⟩ := live
  exact ⟨n.type, by rw [type?, h, map_some]⟩

theorem Ongoing.isLive (ongoing : p.Ongoing i) : p.isLive i = true := by
  obtain ⟨l, h, -⟩ := ongoing
  obtain ⟨d, hInst, -⟩ := map_eq_some_iff.mp h
  exact isLive_of_inst? hInst

theorem Ongoing.of_link?_eq (ongoing : q.Ongoing i) (eq : q.link? i = p.link? i) : p.Ongoing i := by
  rwa [Ongoing, eq] at ongoing

/-- What stands in a block is not finalized. -/
theorem Sound.ongoing_of_mem {b : BlockId} (hs : p.Sound) (mem : i ∈ p.threads b) :
    p.Ongoing i := by
  obtain ⟨l, h, st, -⟩ := hs.chains.link_of_mem mem
  exact ⟨l, h, by simp [st]⟩

/-- An instruction with the edges that it had stays what it is while all nodes are what they
were. -/
theorem Resembles.of_sorts (hs : p.Sound) (hsq : q.Sound) (grows : p.types.Extends q.types)
    (sorts : ∀ v, p.isLive v = true → q.isLive v = true → p.SameSort q v)
    (live : p.isLive i = true) (liveAfter : q.isLive i = true) (kind : q.kind? i = p.kind? i)
    (ops : q.operandsOf i = p.operandsOf i)
    (edges : ∀ e ∈ p.operandsOf i, q.edges.get? e = p.edges.get? e) : p.Resembles q i := by
  refine .of_kept hs.registry grows kind (sorts i live liveAfter).types ops fun e mem d h => ?_
  have hAfter : q.edges.get? e = some d := by rw [edges e mem, h]
  have liveValue := hs.wired.value_live (wire?_of_get? h)
  have liveValueAfter := hsq.wired.value_live (wire?_of_get? hAfter)
  have eq := sorts d.value liveValue liveValueAfter
  exact ⟨hAfter, eq.types, fun hb => eq.blocks.trans hb⟩

section Sorts

variable (hs : p.Sound) (hsq : q.Sound)
include hs hsq

/-- Moves that add no node. -/
theorem Wanes.resembles (wanes : p.Wanes q) (live : q.isLive i = true)
    (kind : q.kind? i = p.kind? i) (ops : q.operandsOf i = p.operandsOf i)
    (edges : ∀ e ∈ p.operandsOf i, q.edges.get? e = p.edges.get? e) : p.Resembles q i :=
  .of_sorts hs hsq wanes.table (fun v _ => wanes.sorts v) (wanes.isLive live) live kind ops edges

/-- Moves that add no node and change no edge. -/
theorem Wanes.resembles_of_same (wanes : p.Wanes q) (live : q.isLive i = true)
    (kinds : q.kind? = p.kind?) (ops : q.operandsOf = p.operandsOf) (edges : q.edges = p.edges) :
    p.Resembles q i :=
  wanes.resembles hs hsq live (congrFun kinds i) (congrFun ops i) fun e _ => by rw [edges]

/-! ### Nodes that come -/

theorem Added.resembles {payload : Payload} (added : p.Added q v ty payload)
    (live : p.isLive i = true) :
    p.Resembles q i := by
  have ne : i ≠ v := by
    rintro rfl
    simp [isLive_iff, added.payload?_eq_none] at live
  have waxes := added.waxes
  refine .of_sorts hs hsq waxes.table (fun value live _ => waxes.sorts value live) live
    (waxes.isLive live) ?_ ?_ fun e _ => by rw [added.edges]
  · rw [kind?, kind?, inst?, inst?, show q.payload? = _ from added.exchanged, update_of_ne ne]
  · rw [added.operandsOf]

end Sorts

theorem Joins.resembles (joins : p.Joins q e d) (hs : p.Sound) (live : p.isLive i = true)
    (ne : i ≠ d.user) : p.Resembles q i := by
  refine joins.added.rewires.wanes.resembles hs (joins.sound hs)
    ((joins.waxes hs).isLive live) (joins.added.kinds i ne) ?_ fun edge mem => ?_
  · rw [joins.added.operands, update_of_ne ne]
  · have isOld : edge ≠ e := by
      rintro rfl
      obtain ⟨_, h, -⟩ := hs.wired.own i edge mem
      simp [joins.added.fresh] at h
    rw [joins.added.edges, update_of_ne isOld]

/-- An instruction that was there when another was built stays what it is. -/
theorem Built.resembles {new : InstId} {kind : InstKind} (built : p.Built q new ty kind)
    (hs : p.Sound) (live : p.isLive i = true) : p.Resembles q i := by
  obtain ⟨started, added, joined⟩ := built.added
  have hsStarted := built.sound_started added hs
  have ne : i ≠ new := by
    rintro rfl
    simp [isLive_iff, added.payload?_eq_none] at live
  have resembles := added.resembles hs hsStarted live
  have liveStarted := added.waxes.isLive live
  clear built added
  induction joined with
  | refl => exact resembles
  | tail earlier last ih =>
    obtain ⟨e, d, joins, rfl⟩ := last
    have hsm := Joined.sound earlier hsStarted
    exact ih.trans (joins.resembles hsm ((Joined.waxes earlier hsStarted).isLive liveStarted) ne)

/-! ### Edges that move -/

/-- An edge that is moved reads something of an equal type, a block in place of a block. -/
theorem EdgeMoved.resembles {new : ValueId} (moved : p.EdgeMoved q e d new) (hs : p.Sound)
    (live : q.isLive i = true) (leads : p.isBlock d.value = true → p.isBlock new = true)
    (agree : ∀ old ty, p.type? d.value = some old → p.type? new = some ty →
      p.types.equal old ty = .ok true) : p.Resembles q i := by
  have wiredAfter := hs.wired.of_edgeMoved moved
  have sameTypes := types_eq_of_surroundings moved.rewires.surroundings
  refine .of_stands (congrFun moved.kinds i) (moved.rewires.types i live)
    (congrFun moved.operands i) fun edge mem facet seen => ?_
  rw [sameTypes]
  obtain ⟨data, h, seenValue⟩ := bind_eq_some_iff.mp seen
  by_cases eq : edge = e
  · subst eq
    obtain rfl := mem_unique moved.held h
    obtain ⟨old, hOld, rfl⟩ := map_eq_some_iff.mp seenValue
    obtain ⟨ty, hNew⟩ := exists_type? moved.live
    have hAfter : q.edges.get? edge = some { d with value := new } := by
      rw [moved.edges, update_self]
    refine ⟨⟨d.slot, ty, p.isBlock new⟩, ?_, rfl, ?_, leads⟩
    · rw [edgeFacet?_of_rewires moved.rewires wiredAfter hAfter, facet?, hNew, map_some]
    · exact .of_equal hs.registry.layered (hs.registry.nodes _ _ hOld)
        (hs.registry.nodes _ _ hNew) (agree old ty hOld hNew)
  · have hAfter : q.edges.get? edge = some data := by
      rw [moved.edges, update_of_ne eq, h]
    refine ⟨facet, ?_, rfl, ?_, id⟩
    · rw [edgeFacet?_of_rewires moved.rewires wiredAfter hAfter, seenValue]
    · obtain ⟨ty, hType, rfl⟩ := map_eq_some_iff.mp seenValue
      exact .of_extends (.refl _) hs.registry.layered (hs.registry.nodes _ _ hType)

/-- An instruction that loses operands is the only one to lose any. -/
theorem OperandsRemoved.resembles {u : ValueId} {kept gone : List EdgeId}
    {cut : Option (BlockId × BlockId)} (rem : p.OperandsRemoved q u kept gone cut) (hs : p.Sound)
    (hsq : q.Sound) (live : q.isLive i = true)
    (listed : ∀ e, e ∈ kept ∨ e ∈ gone → e ∈ p.operandsOf u) (ne : i ≠ u) : p.Resembles q i := by
  refine rem.rewires.wanes.resembles hs hsq live (rem.kinds i ne) ?_ fun e mem => ?_
  · rw [rem.operands, update_of_ne ne]
  · have stays : ¬ (e ∈ kept ∨ e ∈ gone) := fun inUser =>
      ne (hs.wired.user_unique mem (listed e inUser))
    rw [not_or] at stays
    rw [rem.edges e stays.1, if_neg stays.2]

/-! ### Moves -/

/-- Instructions that are not taken apart keep their operands. -/
theorem Razed.resembles (razed : p.Razed q) (hs : p.Sound) (ongoing : q.Ongoing i) :
    p.Resembles q i := by
  have dw := razed.dwindles hs
  have hsq := Wrecked.sound razed.wrecked hs
  have kept := razed.spares.kept i ongoing
  refine (Wrecked.wanes razed.wrecked).resembles hs hsq ongoing.isLive ?_ kept fun e mem => ?_
  · obtain ⟨l, h, -⟩ := ongoing
    obtain ⟨d, hInst, -⟩ := map_eq_some_iff.mp h
    have hKind : q.kind? i = some d.kind := by rw [kind?, hInst, map_some]
    rw [hKind, dw.kinds i d.kind hKind]
  · obtain ⟨_, h, -⟩ := hsq.wired.own i e (kept ▸ mem)
    obtain ⟨d, hEdge, -⟩ := map_eq_some_iff.mp h
    rw [hEdge, dw.edges e d hEdge]

theorem Dropped.resembles (drop : p.Dropped q v) (hs : p.Sound) (hsq : q.Sound)
    (live : q.isLive i = true) : p.Resembles q i := by
  obtain ⟨n, h⟩ := Arena.contains_iff_get?.mp live
  have kept : q.values.get? i = p.values.get? i := by
    rw [h, drop.node_before h]
  refine drop.wanes.resembles hs hsq live ?_ ?_ fun e _ => by rw [drop.others]
  · simp only [kind?, inst?, payload?, kept]
  · simp only [operandsOf, kept]

/-- What returns from a function is seen from its outline. -/
theorem ret_iff_shell? : p.kind? i = some .ret ↔ p.shell? i = some .ret := by
  simp only [shell?_eq_kind?]
  cases p.kind? i with
  | none => simp
  | some kind => cases kind <;> simp [InstKind.shell]

theorem Sound.slotsOf_ret (hs : p.Sound) (isRet : p.kind? i = some .ret) :
    p.slotsOf i <+: [.fixed 0] :=
  hs.laid i .ret (ret_iff_shell?.mp isRet)

/-- The one instruction that an edge comes to or is taken from goes on to conform, and does
not return from a function. -/
theorem Redraws.resembles_or (redraws : p.Redraws pr q) (hs : p.Sound) (hi : q.isInst i = true) :
    p.Resembles q i ∨ p.kind? i ≠ some .ret ∧ (p.Conforms i → q.Conforms i) := by
  have hsq := redraws.sound hs
  have live := isLive_of_category hi
  have liveBefore := redraws.rewires.isLive live
  cases redraws with
  | connect e d joins conf growing spares =>
    by_cases eq : i = d.user
    · subst eq
      refine Or.inr ⟨fun isRet => ?_, conf⟩
      rcases growing .ret (ret_iff_shell?.mp isRet) with isPhi | hsw
      · cases isPhi
      · cases hsw
    · exact Or.inl (joins.resembles hs liveBefore eq)
  | rebind e d new moved leads agree honours =>
    exact Or.inl (moved.resembles hs live leads agree)
  | unread u k e d mem h optional rem conf =>
    by_cases eq : i = u
    · subst eq
      refine Or.inr ⟨fun isRet => ?_, conf⟩
      rcases optional with ⟨b, keyed⟩ | ⟨hsw, -⟩
      · have inPlaces := (hs.slotsOf_ret isRet).subset
          (List.mem_map_of_mem (List.mem_of_getElem? mem))
        simp [slotOf, h, keyed] at inPlaces
      · rw [ret_iff_shell?.mp isRet] at hsw
        cases hsw
    · refine Or.inl (rem.resembles hs hsq live ?_ eq)
      rintro edge (inKept | isEdge)
      · exact List.mem_of_mem_eraseIdx inKept
      · rw [List.mem_singleton.mp isEdge]
        exact List.mem_of_getElem? mem
  | clear g hg rem =>
    refine Or.inl (rem.resembles hs hsq live (by simp) ?_)
    rintro rfl
    have noLink := (shell?_of_isGlobal hg).2.1
    rw [← rem.rewires.skeleton.link?] at noLink
    simp [isInst_eq, noLink] at hi

/-- A move that takes no instruction apart leaves every instruction what it is, but for the one
that an edge comes to or is taken from. -/
theorem Shapes.razed_or_resembles (shapes : p.Shapes pr q) (hs : p.Sound) (hi : q.isInst i = true) :
    p.Razed q ∨ p.Resembles q i ∨ p.kind? i ≠ some .ret ∧ (p.Conforms i → q.Conforms i) := by
  have hsq := shapes.sound hs
  have live := isLive_of_category hi
  have wanes := shapes.wanes
  cases shapes with
  | raze razed => exact .inl razed
  | relabel lab =>
    refine .inr (.inl (wanes.resembles_of_same hs hsq live ?_ lab.operands lab.edges))
    funext other
    rw [kind?, kind?, lab.insts]
  | retain v retained =>
    refine .inr (.inl (wanes.resembles_of_same hs hsq live ?_ ?_ retained.edges))
    · funext other
      simp only [kind?, inst?, payload?, retained.nodes]
    · funext other
      simp only [operandsOf, retained.nodes]
  | drop v dropped => exact .inr (.inl (dropped.resembles hs hsq live))
  | redraw redraws => exact .inr (redraws.resembles_or hs hi)
  | thread threads reth =>
    exact .inr (.inl (wanes.resembles_of_same hs hsq live reth.kinds reth.operands reth.edges))
  | resettle settle =>
    exact .inr (.inl (wanes.resembles_of_same hs hsq live settle.kinds settle.operands
      settle.edges))

/-- What is not finalized after a move was not before. -/
theorem Shapes.ongoing (shapes : p.Shapes pr q) (hs : p.Sound) (ongoing : q.Ongoing i) :
    p.Ongoing i := by
  cases shapes with
  | raze razed => exact (razed.dwindles hs).ongoing ongoing
  | relabel lab => exact ongoing.of_link?_eq (congrFun lab.link? i)
  | retain v retained =>
    exact ongoing.of_link?_eq (by simp only [link?, inst?, payload?, retained.nodes])
  | drop v dropped =>
    obtain ⟨l, h, st⟩ := ongoing
    exact ⟨l, dropped.link?_before h, st⟩
  | redraw redraws => exact ongoing.of_link?_eq (congrFun redraws.rewires.skeleton.link? i)
  | thread threads reth =>
    rcases reth.refloats i with eq | ⟨old, _, h, -, floats, -⟩
    · exact ongoing.of_link?_eq eq
    · refine ⟨old, h, fun fin => ?_⟩
      rcases floats with conn | disconnected <;> simp_all
  | resettle settle => exact ongoing.of_link?_eq (congrFun settle.links i)

/-- Whatever a move does, every instruction that is not finalized stays what it is or is the one
that an edge comes to or is taken from. -/
theorem Shapes.resembles_or (shapes : p.Shapes pr q) (hs : p.Sound) (ongoing : q.Ongoing i) :
    p.Ongoing i ∧ (p.Resembles q i ∨ p.kind? i ≠ some .ret ∧ (p.Conforms i → q.Conforms i)) := by
  refine ⟨shapes.ongoing hs ongoing, ?_⟩
  obtain ⟨l, h, st⟩ := ongoing
  rcases shapes.razed_or_resembles hs (i := i) (isInst_of_link? h) with razed | stays
  · exact .inl (razed.resembles hs ⟨l, h, st⟩)
  · exact stays

theorem Adopts.resembles {adopted write : InstId} {l : Link} (adopts : p.Adopts q adopted write l)
    (hs : p.Sound) (live : q.isLive i = true) : p.Resembles q i := by
  have rea := adopts.relinked.restrings.rearranges
  exact rea.wanes.resembles_of_same hs (adopts.sound hs) live rea.kinds rea.operands rea.edges

end Program

end ValueGraph
