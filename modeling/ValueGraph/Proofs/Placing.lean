import Mathlib
import ValueGraph.Proofs.Lodging
import ValueGraph.Proofs.Redirecting

open Function

namespace ValueGraph

open Program List

/-!
# Edits of chains and blocks

Instructions are put into blocks and taken out of them, and blocks into functions.
Each edit finds its place by reading the chains, so it lands where the threads of
the program say.
-/

variable {threads : BlockId → List InstId} {front rest : List InstId} {l : Link} {answer : Unit}
  {seat : Option FuncId} {anchor start i jump : InstId} {pos : Position} {f : FuncId}
  {tail b : BlockId} {p q tailed built placed : Program} {pr : Promise} {old : Option InstId}

/-! ### Places in a thread -/

/-- A position marks a gap between two parts of a list of instructions. -/
inductive Position.Marks : Position → List InstId → List InstId → Prop where
  | only : Marks .back [] []
  | back (front : List InstId) (last : InstId) : Marks .back front [last]
  | front (rest : List InstId) : Marks .front [] rest
  | before (front : List InstId) (anchor : InstId) (rest : List InstId) :
      Marks (.before anchor) front (anchor :: rest)
  | after (front : List InstId) (anchor : InstId) (rest : List InstId) :
      Marks (.after anchor) (front ++ [anchor]) rest

namespace Program

/-- An instruction that is put into a thread leaves the client. -/
theorem standing_insert (out : ∀ b, i ∉ threads b) (split : threads b = front ++ rest) :
    standing threads - standing (update threads b (front ++ i :: rest)) = Pi.single i (-1) := by
  funext inst
  rw [Pi.sub_apply]
  by_cases eq : inst = i
  · subst eq
    have here : ∃ home, inst ∈ update threads b (front ++ inst :: rest) home := ⟨b, by simp⟩
    have away : ¬ ∃ home, inst ∈ threads home := fun ⟨home, mem⟩ => out home mem
    rw [Pi.single_eq_same, standing, standing, if_neg away, if_pos here, zero_sub]
  · rw [Pi.single_eq_of_ne eq, sub_eq_zero]
    refine standing_congr (exists_congr fun home => ?_)
    by_cases atBlock : home = b
    · subst atBlock
      simp [split, eq]
    · rw [update_of_ne atBlock]

theorem Leads.of_rethreads {shift : ValueId → Int} (reth : p.Rethreads q threads) (hs : p.Sound)
    (closes : p.Closes threads) (passes : standing p.threads - standing threads = shift) :
    p.Leads pr q shift :=
  .of_shapes (.thread threads reth closes) (passes ▸ reth.tally hs.chains)

/-- A disconnected instruction stands in no thread. -/
theorem Sound.outside_of_status (hs : p.Sound) (h : p.link? i = some l)
    (st : l.status ≠ .connected) (b : BlockId) : i ∉ p.threads b :=
  hs.chains.not_mem_of_status h st b

/-- What an edit finds out about an instruction that is to be put into a block. -/
theorem checkCandidate_eq_ok (checked : p.checkCandidate b i = .ok answer) :
    p.isBlock b = true ∧ ∃ l, p.link? i = some l ∧ l.status = .disconnected := by
  simp only [checkCandidate, requireBlock, requireInst, requireStatus, bind_eq_ok,
    liftHalt_eq_ok, require_eq_ok, status_eq_ok] at checked
  obtain ⟨_, hb, _, -, _, ⟨d, h, rfl⟩, isStatus⟩ := checked
  exact ⟨hb, d.link, link?_of_inst? h, beq_iff_eq.mp isStatus⟩

/-- A connected instruction stands in the thread of the block that is its home. -/
theorem Sound.mem_threads (hs : p.Sound) (h : p.link? i = some l) (conn : l.status = .connected)
    (isHome : p.home? i = some b) : i ∈ p.threads b := by
  obtain ⟨block, holder, mem⟩ := hs.chains.attached i l h conn
  rw [home?, h, Option.bind_some, holder] at isHome
  obtain rfl := Option.some.inj isHome
  exact mem

theorem Sound.home?_of_mem (hs : p.Sound) (mem : i ∈ p.threads b) : p.home? i = some b := by
  obtain ⟨l, held, -, holder⟩ := hs.chains.link_of_mem mem
  simp [home?, held, holder, Holder.home?]

theorem Sound.seat?_of_mem (hs : p.Sound) (mem : i ∈ p.threads b) :
    ∃ seat, p.seat? b = some seat := by
  obtain ⟨ends, h⟩ := hs.chains.isBlock_of_mem mem
  obtain ⟨d, h, -⟩ := Option.map_eq_some_iff.mp h
  exact ⟨d.parent, by rw [seat?, h, Option.map_some]⟩

theorem ne_of_seated {v : ValueId} (absent : p.values.get? v = none)
    (seated : p.seat? b = some seat) : v ≠ b := by
  rintro rfl
  simp [seat?, block?, payload?, absent] at seated

theorem Sound.anchorBlock_eq_ok (hs : p.Sound) (read : p.anchorBlock anchor = .ok b) :
    anchor ∈ p.threads b := by
  simp only [anchorBlock, requireInst, requireStatus, bind_eq_ok, liftHalt_eq_ok,
    require_eq_ok, status_eq_ok, parentBlock?_eq_ok] at read
  obtain ⟨_, -, _, ⟨_, ⟨d, h, rfl⟩, isStatus⟩, home, ⟨-, isHome⟩, read⟩ := read
  cases home with
  | none => exact absurd read (refuse_ne_ok _ _)
  | some home =>
    obtain rfl := pure_eq_ok.mp read
    have hLink := link?_of_inst? h
    exact hs.mem_threads hLink (beq_iff_eq.mp isStatus) isHome

/-- Every position in a thread marks one of its gaps. -/
theorem exists_gap
    (anchored : ∀ anchor, pos = .before anchor ∨ pos = .after anchor → anchor ∈ p.threads b) :
    ∃ front rest, p.threads b = front ++ rest ∧ pos.Marks front rest := by
  cases pos with
  | back =>
    rcases eq_nil_or_concat (p.threads b) with empty | ⟨front, last, split⟩
    · exact ⟨[], [], empty, .only⟩
    · exact ⟨front, [last], by simpa using split, .back front last⟩
  | front => exact ⟨[], p.threads b, rfl, .front _⟩
  | before anchor =>
    obtain ⟨front, rest, split⟩ := append_of_mem (anchored anchor (.inl rfl))
    exact ⟨front, anchor :: rest, split, .before front anchor rest⟩
  | after anchor =>
    obtain ⟨front, rest, split⟩ := append_of_mem (anchored anchor (.inr rfl))
    exact ⟨front ++ [anchor], rest, by simp [split], .after front anchor rest⟩

/-- The neighbours at a position are those of its gap, and behind the last instruction there
is none to put anything into. -/
theorem Sound.neighbours_eq_ok {last : InstId} {neighbour : Option InstId × Option InstId}
    (hs : p.Sound)
    (split : p.threads b = front ++ rest) (marks : pos.Marks front rest)
    (isLast : (p.threads b).getLast? = some last) :
    p.neighbours b last pos = .ok neighbour ↔ rest ≠ [] ∧
    neighbour = (front.getLast?, rest.head?) := by
  have linkOf : ∀ ahead value behind, p.threads b = ahead ++ value :: behind →
      ∃ d, p.inst? value = some d ∧ d.prev = ahead.getLast? ∧ d.next = behind.head? := by
    intro ahead value behind shape
    obtain ⟨d, h, isLink⟩ := Option.map_eq_some_iff.mp (hs.chains.linked b ahead value behind shape)
    exact ⟨d, h, congrArg Link.prev isLink, congrArg Link.next isLink⟩
  cases marks with
  | only => simp [split] at isLast
  | back front inst =>
    obtain rfl : inst = last := by simpa [split] using isLast
    obtain ⟨d, h, isPrev, -⟩ := linkOf front inst [] split
    simp only [neighbours, bind_eq_ok, liftHalt_eq_ok, inst_eq_ok, pure_eq_ok]
    simp [h, isPrev, eq_comm]
  | front rest =>
    obtain ⟨ends, hEnds⟩ := hs.chains.isBlock_of_mem (mem_of_getLast? isLast)
    obtain ⟨d, h, rfl⟩ := Option.map_eq_some_iff.mp hEnds
    have isFirst : d.first = rest.head? := by
      have ends := congrArg Ends.first (hs.chains.ends b d.ends hEnds)
      rwa [split] at ends
    have followed : rest ≠ [] := by
      rintro rfl
      simp [split] at isLast
    simp only [neighbours, bind_eq_ok, liftHalt_eq_ok, block_eq_ok, pure_eq_ok]
    simp [h, isFirst, followed, eq_comm]
  | before front anchor rest =>
    obtain ⟨d, h, isPrev, -⟩ := linkOf front anchor rest split
    simp only [neighbours, bind_eq_ok, liftHalt_eq_ok, inst_eq_ok, pure_eq_ok]
    simp [h, isPrev, eq_comm]
  | after front anchor rest =>
    have shape : p.threads b = front ++ anchor :: rest := by simp [split]
    obtain ⟨d, h, -, isNext⟩ := linkOf front anchor rest shape
    have behind : anchor ≠ last ↔ rest ≠ [] := by
      have alone : anchor ∉ rest := by
        have nd := hs.chains.nodup b
        rw [shape] at nd
        exact (nodup_cons.mp nd.of_append_right).1
      have ending := @getLast?_eq_self_iff _ front _ _ alone
      rw [← shape, isLast, Option.some.injEq, getLast?_eq_none_iff] at ending
      rw [Ne, eq_comm, ending]
    simp only [neighbours, bind_eq_ok, liftHalt_eq_ok, inst_eq_ok, pure_eq_ok,
      require_eq_ok, bne_iff_ne, behind]
    simp [h, isNext, eq_comm]

/-- An instruction that is put into a block passes from the client to the block. -/
theorem Sound.planInsertion_leads {step : Step Unit} (hs : p.Sound)
    (anchored : ∀ anchor, pos = .before anchor ∨ pos = .after anchor → anchor ∈ p.threads b)
    (plan : p.planInsertion b i pos = .ok step) (run : step.run p = .ok (answer, q)) :
    p.Leads pr q (Pi.single i (-1)) := by
  simp only [planInsertion, bind_eq_ok, liftHalt_eq_ok, isTerminator_eq_ok, block_eq_ok] at plan
  obtain ⟨_, checked, isTerminator, ⟨d, h, ending⟩, home, hHome, plan⟩ := plan
  obtain ⟨-, l, hLink, st⟩ := checkCandidate_eq_ok checked
  obtain rfl := Option.mem_unique (link?_of_inst? h) hLink
  have out : ∀ b, i ∉ p.threads b := hs.outside_of_status hLink (by simp [st])
  have isLast := hs.chains.last_eq hHome
  cases absent : home.last with
  | none =>
    simp only [absent, bind_eq_ok, require_eq_ok, pure_eq_ok] at plan
    obtain ⟨_, accepted, _, checkedReturn, rfl⟩ := plan
    have empty : p.threads b = [] ++ [] := getLast?_eq_none_iff.mp (isLast.symm.trans absent)
    have reth := Step.place_rethreads hs.chains hLink st empty
      (by simp [Inst.link, ending, accepted]) run
    refine .of_rethreads reth hs ?_ (standing_insert out empty)
    exact closes_update (by simp) fun f d seated hFn =>
      hs.returns_of_checkReturnIn seated hFn checkedReturn
  | some last =>
    simp only [absent, bind_eq_ok, require_eq_ok, pure_eq_ok] at plan
    obtain ⟨front, rest, split, marks⟩ := exists_gap anchored
    obtain ⟨_, accepted, _, read, rfl⟩ := plan
    obtain ⟨followed, rfl⟩ := (hs.neighbours_eq_ok split marks (isLast.symm.trans absent)).mp read
    have reth := Step.place_rethreads hs.chains hLink st split
      (by simpa [Inst.link, ending, Bool.not_eq_eq_eq_not.mp accepted] using followed) run
    refine .of_rethreads reth hs ?_ (standing_insert out split)
    refine closes_update (fun inst mem => ?_) fun _ _ _ _ =>
      returns_of_plain h (by simpa [ending] using accepted) _
    rw [split]
    simpa [or_assoc, or_comm (a := inst = i)] using mem

end Program

/-! ### Insertion, removal and exchange -/

section

variable (hs : p.Sound)
include hs

theorem pushBack_leads (run : pushBack b i p = .done answer q) :
    p.Leads pr q (Pi.single i (-1)) := by
  obtain ⟨step, plan, run⟩ := Edit.plan_eq_done.mp run
  exact hs.planInsertion_leads (by simp) plan run

theorem pushFront_leads (run : pushFront b i p = .done answer q) :
    p.Leads pr q (Pi.single i (-1)) := by
  obtain ⟨step, plan, run⟩ := Edit.plan_eq_done.mp run
  exact hs.planInsertion_leads (by simp) plan run

theorem insertBefore_leads (run : insertBefore anchor i p = .done answer q) :
    p.Leads pr q (Pi.single i (-1)) := by
  obtain ⟨step, plan, run⟩ := Edit.plan_eq_done.mp run
  obtain ⟨b, read, plan⟩ := bind_eq_ok.mp plan
  refine hs.planInsertion_leads ?_ plan run
  rintro _ (eq | eq)
  · cases eq
    exact hs.anchorBlock_eq_ok read
  · cases eq

theorem insertAfter_leads (run : insertAfter anchor i p = .done answer q) :
    p.Leads pr q (Pi.single i (-1)) := by
  obtain ⟨step, plan, run⟩ := Edit.plan_eq_done.mp run
  obtain ⟨b, read, plan⟩ := bind_eq_ok.mp plan
  refine hs.planInsertion_leads ?_ plan run
  rintro _ (eq | eq)
  · cases eq
  · cases eq
    exact hs.anchorBlock_eq_ok read

/-- What is removed has another instruction behind it. -/
theorem remove_rethreads (run : remove i p = .done answer q) :
    ∃ b front rest, p.threads b = front ++ i :: rest ∧
      p.Rethreads q (update p.threads b (front ++ rest)) := by
  obtain ⟨step, plan, run⟩ := Edit.plan_eq_done.mp run
  simp only [requireInst, requireStatus, bind_eq_ok, liftHalt_eq_ok,
    require_eq_ok, pure_eq_ok, status_eq_ok,
    isTerminator_eq_ok] at plan
  obtain ⟨_, -, _, ⟨_, ⟨d, h, rfl⟩, isStatus⟩, _, ⟨_, held', rfl⟩, _, plain, rfl⟩ := plan
  obtain rfl : d = _ := Option.mem_unique h held'
  have hLink := link?_of_inst? h
  obtain ⟨b, -, mem⟩ := hs.chains.attached i d.link hLink (beq_iff_eq.mp isStatus)
  obtain ⟨front, rest, split⟩ := append_of_mem mem
  have followed : rest ≠ [] := by
    rintro rfl
    have linked := hs.chains.linked b front i [] split
    rw [hLink, Option.some.injEq] at linked
    have isLast : d.kind.isTerminator = true := (congrArg Link.isTerminator linked).trans (by simp)
    simp [isLast] at plain
  exact ⟨b, front, rest, split, Step.unlink_rethreads hs.chains split followed run⟩

theorem remove_leads (run : remove i p = .done answer q) : p.Leads pr q (Pi.single i 1) := by
  obtain ⟨b, front, rest, split, reth⟩ := remove_rethreads hs run
  have mem : i ∈ p.threads b := by simp [split]
  rw [hs.chains.erase_eq split] at reth
  refine .of_rethreads reth hs (fun home inst stays out => ?_) (standing_erase hs.chains mem)
  exact absurd (mem_of_mem_erase stays) out

/-- A new terminator comes to stand behind all but the old one. -/
theorem setTerminator_rethreads (run : setTerminator b i p = .done old q) :
    p.isBlock b = true ∧ (∀ b, i ∉ p.threads b) ∧ p.checkReturnIn b i = .ok () ∧
      ∃ front, p.threads b = front ++ old.toList ∧ (old = none → front = []) ∧
        p.Rethreads q (update p.threads b (front ++ [i])) := by
  obtain ⟨step, plan, run⟩ := Edit.plan_eq_done.mp run
  simp only [bind_eq_ok, liftHalt_eq_ok, require_eq_ok, pure_eq_ok, kind_eq_ok] at plan
  obtain ⟨_, checked, _, ⟨d, h, rfl⟩, _, ending, _, checkedReturn, rfl⟩ := plan
  obtain ⟨hb, l, hLink, st⟩ := checkCandidate_eq_ok checked
  obtain rfl := Option.mem_unique (link?_of_inst? h) hLink
  exact ⟨hb, hs.outside_of_status hLink (by simp [st]), checkedReturn,
    Step.exchangeTerminator_rethreads hs.chains hLink st ending run⟩

theorem setTerminator_leads (run : setTerminator b i p = .done old q) :
    p.Leads pr q (Pi.single i (-1) + old.elim 0 (Pi.single · 1)) := by
  obtain ⟨-, out, checkedReturn, front, split, alone, reth⟩ := setTerminator_rethreads hs run
  have closes : p.Closes (update p.threads b (front ++ [i])) := by
    refine closes_update (fun inst mem => ?_) fun f data seated hFn =>
      hs.returns_of_checkReturnIn seated hFn checkedReturn
    rw [split]
    simp only [mem_append, mem_singleton] at mem
    exact mem.imp_left (mem_append_left _)
  refine .of_rethreads reth hs closes ?_
  cases old with
  | none =>
    obtain rfl := alone rfl
    rw [Option.elim_none, add_zero]
    exact standing_insert out split
  | some old =>
    have taken : standing p.threads -
        Program.standing (update p.threads b front) = Pi.single old 1 := by
      have mem : old ∈ p.threads b := by simp [split]
      have erased := hs.chains.erase_eq split
      rw [append_nil] at erased
      rw [erased]
      exact standing_erase hs.chains mem
    have put : Program.standing (update p.threads b front) -
        Program.standing (update p.threads b (front ++ [i])) = Pi.single i (-1) := by
      rw [← update_idem (a := b) front (front ++ [i]) p.threads]
      refine standing_insert (fun home mem => ?_) (by simp)
      by_cases eq : home = b
      · subst eq
        rw [update_self] at mem
        exact out home (split ▸ mem_append_left _ mem)
      · rw [update_of_ne eq] at mem
        exact out home mem
    rw [← sub_add_sub_cancel, taken, put, add_comm, Option.elim_some]

end

/-! ### Blocks -/

theorem Step.addBlock_raises (hs : p.Sound) (run : addBlock.run p = .ok (b, q)) :
    p.Raises pr q ∧ p.Added q b TypeId.label (.block Block.detached) := by
  have added := addNode_spec hs.stored run
  exact ⟨.grow b TypeId.label _ added rfl (by decide) (hs.registry.builtin (by decide))
    (by simp [Payload.category]), added⟩

theorem createBlock_grown (hs : p.Sound) (run : createBlock p = .done b q) :
    Grown pr p q ∧ p.Tally q (Pi.single b 1) := by
  obtain ⟨raises, added⟩ := Step.addBlock_raises hs (Edit.perform_eq_done.mp run)
  exact ⟨.single raises, added.tally hs rfl⟩

theorem createBlock_leads (hs : p.Sound) (run : createBlock p = .done b q) :
    p.Leads pr q (Pi.single b 1) := by
  obtain ⟨grown, tally⟩ := createBlock_grown hs run
  exact .of_grown grown tally

namespace Step

theorem seatBlock_shrunk {layout : Function → List BlockId} (hs : p.Sound)
    (free : p.seat? b = some none)
    (adds : ∀ d, p.function? f = some d → (layout d).Perm (b :: d.blocks))
    (returns : pr.agrees → ∀ d, p.function? f = some d → ∀ i ∈ p.threads b, p.Returns d.type i)
    (run : (do
      modifyBlock b fun d => { d with parent := some f }
      modifyFunction f fun d => { d with body := some (layout d) } :
        Step Unit).run p = .ok (answer, q)) : Shrunk pr p q ∧ p.Tally q (Pi.single b (-1)) := by
  obtain ⟨_, m, runBlock, runFn⟩ := run_bind.mp run
  have reseat := setSeat_reseated runBlock
  obtain ⟨old, refit⟩ := modifyFunction_refitted runFn
  have h : p.function? f = some old := by
    rw [← reseat.bodies]
    exact refit.held
  have unlisted : ∀ value d, p.function? value = some d → b ∉ d.blocks :=
    fun value d => hs.not_mem_blocks free (by simp)
  have staffedMiddle := hs.staffed.of_reseated reseat unlisted
  have hsm := hs.of_resettles reseat.toResettles staffedMiddle
  have fits := staffedMiddle f old refit.held
  have perm := adds old h
  have fitsMore : m.Fits f { old with body := some (layout old) } :=
    { params := fits.params
      granted := fits.granted
      blocks := fun block mem => by
        rcases mem_cons.mp (perm.mem_iff.mp mem) with rfl | listed
        · rw [reseat.seats, update_self]
        · exact fits.blocks block listed
      paramsNodup := fits.paramsNodup
      grantedNodup := fits.grantedNodup
      blocksNodup := perm.nodup_iff.mpr
        (nodup_cons.mpr ⟨unlisted f old h, fits.blocksNodup⟩) }
  have lodges : p.Lodges pr q := by
    refine ⟨fun block home d _ _ hHome listed _ => ?_, fun block home was isSeated => ?_⟩
    · rw [refit.bodies, update_apply]
      split
      next eq =>
        subst eq
        obtain rfl := Option.mem_unique h hHome
        exact ⟨_, rfl, rfl, perm.mem_iff.mpr (mem_cons_of_mem _ listed)⟩
      next => exact ⟨d, by rw [reseat.bodies, hHome], rfl, listed⟩
    · rw [refit.seats, reseat.seats, update_apply] at isSeated
      split at isSeated
      next eq =>
        subst eq
        obtain rfl : f = home := by simpa using isSeated
        refine ⟨{ old with body := some (layout old) }, ?_, perm.mem_iff.mpr mem_cons_self,
          fun agrees => returns agrees old h⟩
        rw [refit.bodies, update_self]
      next => exact absurd isSeated was
  have shapes : p.Shapes pr q :=
    .resettle (reseat.toResettles.trans refit.toResettles)
      (staffedMiddle.of_refitted refit fitsMore)
      (fun _ allotted =>
        (allotted.of_reseated reseat).of_refitted refit (·.of_registers_eq rfl))
      lodges
  refine ⟨.single shapes, ?_⟩
  refine ((reseat.tally free).trans (refit.tally hsm fitsMore)).of_eq ?_
  have sameLists : ({ old with body := some (layout old) } : Function).lists = old.lists := rfl
  rw [sameLists, sub_self, add_zero]
  simp

end Step

theorem Program.checkAttachable_eq_ok (checked : p.checkAttachable f b = .ok answer) :
    p.isFunction f = true ∧ p.seat? b = some none := by
  simp only [checkAttachable, requireBlock, bind_eq_ok, liftHalt_eq_ok, require_eq_ok,
    block_eq_ok] at checked
  obtain ⟨_, isFn, _, -, d, h, _, free, -⟩ := checked
  exact ⟨isFn, by rw [seat?, h, Option.map_some, Option.isNone_iff_eq_none.mp free]⟩

theorem Program.Sound.returns_of_checkAttachable {d : Function} (hs : p.Sound)
    (h : p.function? f = some d) (checked : p.checkAttachable f b = .ok answer)
    (mem : i ∈ p.threads b) : p.Returns d.type i := by
  intro isRet
  simp only [checkAttachable, bind_eq_ok, liftHalt_eq_ok] at checked
  obtain ⟨_, -, _, -, _, -, _, -, term, read, checked⟩ := checked
  rw [hs.chains.terminator?_eq (by simp) read, hs.eq_getLast?_of_ret mem isRet] at checked
  exact hs.returns_of_checkReturn h checked isRet

theorem appendBlock_shrunk (hs : p.Sound) (run : appendBlock f b p = .done answer q) :
    Shrunk pr p q ∧ p.Tally q (Pi.single b (-1)) := by
  obtain ⟨step, plan, run⟩ := Edit.plan_eq_done.mp run
  simp only [bind_eq_ok, pure_eq_ok] at plan
  obtain ⟨_, checked, rfl⟩ := plan
  obtain ⟨-, free⟩ := checkAttachable_eq_ok checked
  exact Step.seatBlock_shrunk hs free (fun d _ => perm_append_singleton b d.blocks)
    (fun _ d h i => hs.returns_of_checkAttachable h checked) run

/-- A block that is put into a function passes from the client to the function. -/
theorem appendBlock_leads (hs : p.Sound) (run : appendBlock f b p = .done answer q) :
    p.Leads pr q (Pi.single b (-1)) := by
  obtain ⟨shrunk, tally⟩ := appendBlock_shrunk hs run
  exact ⟨.of_shrunk shrunk, fun _ => tally⟩

theorem Step.placeBlockAfter_shrunk {anchor : BlockId} (hs : p.Sound)
    (free : p.seat? b = some none)
    (returns : pr.agrees → ∀ d, p.function? f = some d → ∀ i ∈ p.threads b, p.Returns d.type i)
    (run : (placeBlockAfter f anchor b).run p = .ok (answer, q)) :
    Shrunk pr p q ∧ p.Tally q (Pi.single b (-1)) := by
  refine seatBlock_shrunk hs free (fun d _ => ?_) returns run
  refine perm_insertIdx b d.blocks ?_
  cases absent : d.blocks.idxOf? anchor with
  | none => exact le_refl _
  | some k =>
    obtain ⟨lt, -⟩ := idxOf?_eq_some_iff.mp absent
    exact lt

theorem insertBlockAfter_leads {anchor : BlockId} (hs : p.Sound)
    (run : insertBlockAfter anchor b p = .done answer q) : p.Leads pr q (Pi.single b (-1)) := by
  obtain ⟨step, plan, run⟩ := Edit.plan_eq_done.mp run
  simp only [bind_eq_ok, liftHalt_eq_ok, block_eq_ok] at plan
  obtain ⟨d, -, plan⟩ := plan
  cases absent : d.parent with
  | none =>
    rw [absent] at plan
    exact absurd plan (refuse_ne_ok _ _)
  | some f =>
    simp only [absent, bind_eq_ok, pure_eq_ok] at plan
    obtain ⟨_, checked, rfl⟩ := plan
    obtain ⟨-, free⟩ := checkAttachable_eq_ok checked
    obtain ⟨shrunk, tally⟩ := Step.placeBlockAfter_shrunk hs free
      (fun _ d h i => hs.returns_of_checkAttachable h checked) run
    exact ⟨.of_shrunk shrunk, fun _ => tally⟩

theorem addBlock_leads (hs : p.Sound) (run : addBlock f p = .done b q) : p.Leads pr q 0 := by
  simp only [addBlock, Edit.andThen_eq_done, Edit.map_eq_done] at run
  obtain ⟨_, m, runCreate, answer, runAppend, rfl⟩ := run
  obtain ⟨grown, tally⟩ := createBlock_grown hs runCreate
  obtain ⟨shrunk, tallyLater⟩ := appendBlock_shrunk (grown.sound hs) runAppend
  refine ⟨⟨m, m, grown, Or.inl rfl, shrunk⟩, fun _ => ?_⟩
  refine (tally.trans tallyLater).of_eq ?_
  rw [← Pi.single_add, add_neg_cancel, Pi.single_zero]

/-! ### Cutting a block -/

theorem Program.standing_cut (out : ∀ b, i ∉ threads b) (split : threads b = front ++ rest)
    (ne : tail ≠ b) (empty : threads tail = []) :
    standing threads - standing (update (update threads b (front ++ [i])) tail rest) =
      Pi.single i (-1) := by
  rw [← standing_insert out split]
  congr 1
  funext other
  refine standing_congr ⟨fun ⟨home, mem⟩ => ?_, fun ⟨home, mem⟩ => ?_⟩
  · by_cases atTail : home = tail
    · subst atTail
      rw [update_self] at mem
      exact ⟨b, by simp [mem]⟩
    rw [update_of_ne atTail] at mem
    by_cases atBlock : home = b
    · subst atBlock
      rw [update_self, mem_append, mem_singleton] at mem
      rcases mem with inFront | rfl <;> exact ⟨home, by simp [*]⟩
    · rw [update_of_ne atBlock] at mem
      exact ⟨home, by rwa [update_of_ne atBlock]⟩
  · by_cases atBlock : home = b
    · subst atBlock
      rw [update_self, mem_append, mem_cons] at mem
      rcases mem with inFront | rfl | inRest
      · exact ⟨home, by simp [update_of_ne ne.symm, inFront]⟩
      · exact ⟨home, by simp [update_of_ne ne.symm]⟩
      · exact ⟨tail, by simp [inRest]⟩
    rw [update_of_ne atBlock] at mem
    have notTail : home ≠ tail := by
      rintro rfl
      simp [empty] at mem
    exact ⟨home, by rwa [update_of_ne notTail, update_of_ne atBlock]⟩

theorem Program.Returns.of_cut {ty : TypeId} (returns : p.Returns ty i) (hs : p.Sound)
    (live : p.isLive i = true) (added : p.Added tailed tail TypeId.label (.block Block.detached))
    (hsTailed : tailed.Sound) (isBuilt : tailed.Built built jump TypeId.void .br)
    (hsBuilt : built.Sound) (reth : built.Rethreads placed threads) (hsPlaced : placed.Sound) :
    placed.Returns ty i := by
  have waxes := added.waxes.trans (isBuilt.waxes hsTailed)
  have wanes := reth.wanes
  have livePlaced : placed.isLive i = true := by
    rw [reth.isLive]
    exact waxes.isLive live
  have resembles := (added.resembles hs hsTailed live).trans
    (isBuilt.resembles hsTailed (added.waxes.isLive live))
  refine (returns.of_resembles hs.registry waxes.table resembles).of_resembles
    hsBuilt.registry wanes.table ?_
  exact wanes.resembles_of_same hsBuilt hsPlaced livePlaced reth.kinds reth.operands reth.edges

/-- The stages of cutting a block in two in front of an instruction: a new block comes, then a
jump to it, then the end of the thread moves over and the jump takes its place. -/
structure Program.Cuts
    (before tailed built placed : Program)
    (block tail : BlockId)
    (start jump : InstId)
    (front rest : List InstId) : Prop where
  split : before.threads block = front ++ start :: rest
  added : before.Added tailed tail TypeId.label (.block Block.detached)
  soundTailed : tailed.Sound
  isBuilt : tailed.Built built jump TypeId.void .br
  rethreads : built.Rethreads placed
    (update (update before.threads block (front ++ [jump])) tail (start :: rest))

namespace Program.Cuts

variable (cuts : p.Cuts tailed built placed b tail start jump front rest)

include cuts

theorem raisesTail (hs : p.Sound) : p.Raises pr tailed :=
  .grow tail TypeId.label _ cuts.added rfl (by decide) (hs.registry.builtin (by decide))
    (by simp [Payload.category])

theorem raisesJump : tailed.Raises pr built :=
  .build jump TypeId.void .br cuts.isBuilt

theorem grown (hs : p.Sound) : Grown pr p built :=
  .tail (.single (cuts.raisesTail hs)) cuts.raisesJump

theorem soundBuilt : built.Sound :=
  (cuts.raisesJump : tailed.Raises default built).sound cuts.soundTailed

theorem soundPlaced : placed.Sound :=
  cuts.soundBuilt.of_rearranges cuts.rethreads.toRearranges cuts.rethreads.chains

/-- Neither the new block nor the jump was there. -/
theorem tail_ne (seated : p.seat? b = some seat) : tail ≠ b :=
  ne_of_seated cuts.added.fresh seated

theorem seatsTailed : tailed.seat? = update p.seat? tail (some none) :=
  cuts.added.exchanged.seat?

theorem jump_ne (seated : p.seat? b = some seat) : jump ≠ b := by
  have seatedTailed : tailed.seat? b = some seat := by
    rw [cuts.seatsTailed, update_of_ne (cuts.tail_ne seated).symm, seated]
  exact ne_of_seated cuts.isBuilt.fresh seatedTailed

theorem jump_ne_tail : jump ≠ tail :=
  ne_of_seated cuts.isBuilt.fresh (by rw [cuts.seatsTailed, update_self])

theorem threadsTailed (hs : p.Sound) : tailed.threads = p.threads :=
  (cuts.added.chains hs.chains rfl).threads_eq

theorem threadsBuilt (hs : p.Sound) : built.threads = p.threads :=
  (cuts.isBuilt.chains (cuts.added.chains hs.chains rfl)).threads_eq

theorem threads_tail (hs : p.Sound) : p.threads tail = [] := by
  refine hs.chains.outside tail ?_
  rw [ends?_eq_bind]
  simp [cuts.added.payload?_eq_none]

theorem outside (hs : p.Sound) (home : BlockId) : jump ∉ p.threads home := by
  intro stands
  rw [← cuts.threadsTailed hs] at stands
  obtain ⟨l, h, -⟩ := cuts.soundTailed.chains.link_of_mem stands
  simp [link?, inst?, payload?, cuts.isBuilt.fresh] at h

theorem seats : placed.seat? = update (update p.seat? tail (some none)) jump none := by
  rw [cuts.rethreads.seats, cuts.isBuilt.seat?, cuts.seatsTailed]

theorem functions : placed.function? = p.function? := by
  rw [cuts.rethreads.bodies, cuts.isBuilt.function?, cuts.added.exchanged.function?]
  refine update_eq_self_iff.mpr ?_
  simp [function?, cuts.added.payload?_eq_none, Payload.function?]

/-- The new block gets the seat of the old one. -/
theorem follow_run (seated : p.seat? b = some seat) :
    (Step.follow b tail).run placed = .ok (answer, q) ↔
      (seat.elim (pure ()) (Step.placeBlockAfter · b tail)).run placed = .ok (answer, q) := by
  have seatedPlaced : placed.seat? b = some seat := by
    rw [cuts.seats, update_of_ne (cuts.jump_ne seated).symm,
      update_of_ne (cuts.tail_ne seated).symm, seated]
  obtain ⟨d, held, rfl⟩ := Option.map_eq_some_iff.mp seatedPlaced
  simp only [Step.follow, Step.run_bind, Step.run_get, Step.run_lift, block_eq_ok]
  constructor
  · rintro ⟨_, _, ⟨rfl, rfl⟩, _, _, ⟨again, rfl⟩, run⟩
    obtain rfl := Option.mem_unique held again
    cases isSeat : d.parent <;> simpa only [isSeat, Option.elim] using run
  · intro run
    refine ⟨_, _, ⟨rfl, rfl⟩, d, _, ⟨held, rfl⟩, ?_⟩
    cases isSeat : d.parent <;> simpa only [isSeat, Option.elim] using run

/-- The jump returns nothing, and the new block is in no function yet. -/
theorem closes (hs : p.Sound) :
    built.Closes (update (update p.threads b (front ++ [jump])) tail (start :: rest)) := by
  intro home inst stands out f data seatedHome _ isRet
  have notTail : home ≠ tail := by
    rintro rfl
    rw [← cuts.rethreads.seats, cuts.seats, update_of_ne cuts.jump_ne_tail.symm] at seatedHome
    simp at seatedHome
  rw [update_of_ne notTail, update_apply] at stands
  rw [cuts.threadsBuilt hs] at out
  split at stands
  next eq =>
    subst eq
    rw [cuts.split] at out
    obtain rfl : inst = jump := by
      simp only [mem_append, mem_singleton, not_or] at stands out
      exact stands.resolve_left out.1
    have isShell := ret_iff_shell?.mp isRet
    rw [cuts.isBuilt.shell?, update_self] at isShell
    cases isShell
  next => exact absurd stands out

/-- The new block goes to the client, the jump to the old block. -/
theorem tally (hs : p.Sound) (seated : p.seat? b = some seat) :
    p.Tally placed (Pi.single tail 1) := by
  have passes := standing_cut (cuts.outside hs) cuts.split (cuts.tail_ne seated)
    (cuts.threads_tail hs)
  have rethreaded := cuts.rethreads.tally cuts.soundBuilt.chains
  rw [cuts.threadsBuilt hs, passes] at rethreaded
  refine (((cuts.added.tally hs rfl).trans (cuts.isBuilt.tally cuts.soundTailed)).trans
    rethreaded).of_eq ?_
  rw [add_assoc, ← Pi.single_add, add_neg_cancel, Pi.single_zero, add_zero]

end Program.Cuts

theorem Program.Added.isBlock (added : p.Added q tail TypeId.label (.block Block.detached)) :
    q.isBlock tail = true := by
  simp [isBlock_eq_ends?, added.exchanged.ends?, Payload.block?]

/-- Cutting a block goes through its stages. -/
theorem Step.cut_cuts (hs : p.Sound) (split : p.threads b = front ++ start :: rest)
    (seated : p.seat? b = some seat) (runTail : addBlock.run p = .ok (tail, tailed))
    (runJump : (addInst TypeId.void .br [(.fixed 0, tail)]).run tailed = .ok (jump, built))
    (run : (cut b tail start jump).run built = .ok (a, placed)) :
    p.Cuts tailed built placed b tail start jump front rest := by
  obtain ⟨raisesTail, added⟩ : p.Raises default tailed ∧
      p.Added tailed tail TypeId.label (.block Block.detached) := addBlock_raises hs runTail
  have hsTailed := raisesTail.sound hs
  have isBuilt := addBr_built hsTailed added.isBlock runJump
  have raisesJump : tailed.Raises default built := .build jump TypeId.void .br isBuilt
  have threadsBuilt : built.threads = p.threads :=
    (isBuilt.chains (added.chains hs.chains rfl)).threads_eq
  have empty : p.threads tail = [] := by
    refine hs.chains.outside tail ?_
    rw [Program.ends?_eq_bind]
    simp [added.payload?_eq_none]
  have hJump : built.link? jump = some (Inst.fresh .br).link := by
    rw [isBuilt.link?, update_self]
  have reth := cut_rethreads (raisesJump.sound hsTailed).chains hJump rfl rfl
    (Program.ne_of_seated added.fresh seated) (by rw [threadsBuilt, split])
    (by rw [threadsBuilt, empty]) run
  rw [threadsBuilt] at reth
  exact ⟨split, added, hsTailed, isBuilt, reth⟩

/-- Cutting a block in two: a new block and a jump to it come, the end of the thread
moves over, and the function of the old block gets the new one. -/
theorem Program.Cuts.leads (cuts : p.Cuts tailed built placed b tail start jump front rest)
    (hs : p.Sound) (seated : p.seat? b = some seat)
    (returns : pr.agrees → ∀ f d, seat = some f → p.function? f = some d →
        ∀ i ∈ p.threads b, p.Returns d.type i)
    (run : (Step.follow b tail).run placed = .ok (answer, q)) :
    p.Leads pr q (if seat = none then Pi.single tail 1 else 0) := by
  have thread : built.Shapes pr placed := .thread _ cuts.rethreads (cuts.closes hs)
  have tally := cuts.tally hs seated
  rw [cuts.follow_run seated] at run
  cases seat with
  | none =>
    obtain ⟨-, rfl⟩ := Step.run_pure.mp run
    exact ⟨⟨built, built, cuts.grown hs, Or.inl rfl, .single thread⟩, fun _ => tally⟩
  | some f =>
    have free : placed.seat? tail = some none := by
      rw [cuts.seats, update_of_ne cuts.jump_ne_tail.symm, update_self]
    have returnsPlaced : pr.agrees → ∀ d, placed.function? f = some d →
        ∀ i ∈ placed.threads tail, placed.Returns d.type i := by
      intro agrees d hFn i stands
      rw [cuts.rethreads.chains.threads_eq, update_self] at stands
      rw [cuts.functions] at hFn
      have stood : i ∈ p.threads b := cuts.split ▸ mem_append_right _ stands
      exact (returns agrees f d rfl hFn i stood).of_cut hs
        (hs.ongoing_of_mem stood).isLive cuts.added cuts.soundTailed cuts.isBuilt
        cuts.soundBuilt cuts.rethreads cuts.soundPlaced
    obtain ⟨shrunk, tallyLater⟩ :=
      Step.placeBlockAfter_shrunk cuts.soundPlaced free returnsPlaced run
    refine ⟨⟨built, built, cuts.grown hs, Or.inl rfl, .head thread shrunk⟩, fun _ => ?_⟩
    refine (tally.trans tallyLater).of_eq ?_
    rw [← Pi.single_add, add_neg_cancel, Pi.single_zero, if_neg (by simp)]

/-- A block is split where an instruction stands in it. -/
theorem splitPoint_eq_done (hs : p.Sound) :
    splitPoint start p = .done b q ↔ p = q ∧ start ∈ p.threads b := by
  simp only [splitPoint, Edit.look_eq_done, requireInst, requireStatus, bind_eq_ok, liftHalt_eq_ok,
    require_eq_ok, status_eq_ok, parentBlock?_eq_ok]
  constructor
  · rintro ⟨⟨_, -, _, ⟨_, ⟨d, held, rfl⟩, isStatus⟩, home, ⟨-, isHome⟩, found⟩, rfl⟩
    cases home with
    | none => exact absurd found (refuse_ne_ok _ _)
    | some home =>
      obtain rfl := pure_eq_ok.mp found
      exact ⟨rfl, hs.mem_threads (link?_of_inst? held) (beq_iff_eq.mp isStatus) isHome⟩
  · rintro ⟨rfl, mem⟩
    obtain ⟨l, hLink, connected, -⟩ := hs.chains.link_of_mem mem
    obtain ⟨d, held, rfl⟩ := Option.map_eq_some_iff.mp hLink
    have isInst := isInst_of_link? hLink
    exact ⟨⟨(), isInst, (), ⟨_, ⟨d, held, rfl⟩, beq_iff_eq.mpr connected⟩, some b,
      ⟨isInst, hs.home?_of_mem mem⟩, rfl⟩, rfl⟩

/-- A block is split once there is a new block and a jump to it.  The jump is never refused. -/
theorem splitBlock_eq_done (hs : p.Sound) : splitBlock start p = .done tail q ↔
    ∃ b tailed jump built placed, start ∈ p.threads b ∧ Step.addBlock.run p = .ok (tail, tailed) ∧
      (Step.addInst TypeId.void .br [(.fixed 0, tail)]).run tailed = .ok (jump, built) ∧
      (Step.cut b tail start jump).run built = .ok ((), placed) ∧
      (Step.follow b tail).run placed = .ok ((), q) := by
  simp only [splitBlock, createBlock, buildBr, requireBlock, Edit.andThen_eq_done,
    splitPoint_eq_done hs, Edit.perform_eq_done, Edit.plan_eq_done, Step.run_bind, Step.run_pure,
    bind_eq_ok, require_eq_ok, pure_eq_ok]
  constructor
  · rintro ⟨b, _, ⟨rfl, mem⟩, _, tailed, runTail, jump, built, ⟨_, ⟨_, -, rfl⟩, runJump⟩, _, placed,
      runCut, _, _, runFollow, rfl, rfl⟩
    exact ⟨b, tailed, jump, built, placed, mem, runTail, runJump, runCut, runFollow⟩
  · rintro ⟨b, tailed, jump, built, placed, mem, runTail, runJump, runCut, runFollow⟩
    obtain ⟨-, added⟩ : p.Raises default tailed ∧ _ := Step.addBlock_raises hs runTail
    exact ⟨b, p, ⟨rfl, mem⟩, tail, tailed, runTail, jump, built,
      ⟨_, ⟨(), added.isBlock, rfl⟩, runJump⟩, (), placed, runCut, (), q, runFollow, rfl, rfl⟩

/-- A split that is refused leaves the program as it was: the jump, for which there is a new block
already, is never refused. -/
theorem splitBlock_reverts {cause : Refusal} (hs : p.Sound)
    (run : splitBlock start p = .refused cause q) : q = p := by
  simp only [splitBlock, Edit.andThen_eq_refused] at run
  rcases run with refused | ⟨b, m, found,
    refused | ⟨tail, tailed, runTail, refused | ⟨_, _, _, refused⟩⟩⟩
  · exact (Edit.look_eq_refused.mp refused).2.symm
  · exact absurd refused (Edit.perform_ne_refused _ _ _ _)
  · obtain ⟨rfl, -⟩ := (splitPoint_eq_done hs).mp found
    obtain ⟨-, added⟩ : p.Raises default tailed ∧ _ :=
      Step.addBlock_raises hs (Edit.perform_eq_done.mp runTail)
    have isTail : tailed.requireBlock tail .branchTarget = .ok () := require_eq_ok.mpr added.isBlock
    simp only [buildBr, Edit.plan_eq_refused, isTail] at refused
    cases refused.1
  · exact absurd refused (Edit.perform_ne_refused _ _ _ _)

theorem splitBlock_leads (hs : p.Sound) (agrees : pr.agrees → p.Lodged fun _ => False)
    (run : splitBlock start p = .done tail q) :
    ∃ b seat, p.home? start = some b ∧ p.seat? b = some seat ∧
      p.Leads pr q (if seat = none then Pi.single tail 1 else 0) := by
  obtain ⟨b, tailed, jump, built, placed, mem, runTail, runJump, runCut, run⟩ :=
    (splitBlock_eq_done hs).mp run
  obtain ⟨seat, seated⟩ := hs.seat?_of_mem mem
  obtain ⟨front, rest, split⟩ := append_of_mem mem
  have cuts := Step.cut_cuts hs split seated runTail runJump runCut
  refine ⟨b, seat, hs.home?_of_mem mem, seated, cuts.leads hs seated ?_ run⟩
  rintro agreed f d rfl hFn
  obtain ⟨_, held, -, returns⟩ := agrees agreed b f seated id
  obtain rfl := Option.mem_unique hFn held
  exact returns

end ValueGraph
