import Mathlib
import ValueGraph.Proofs.Progress

open Function

namespace ValueGraph

open Program List Option

/-!
# Placeholders

Before some blocks are collected, every edge that reads one of their instructions from
outside is made to read a placeholder: a new constant whose value is left open, one for
each instruction that is read.  An edge reads from outside unless its user stands in one
of the blocks, itself or through what it is nested under.
-/

variable {outer i : InstId} {insts : List InstId} {fuel : Nat} {blocks : List BlockId}
  {edges moved : List EdgeId} {new : ValueId} {e : EdgeId} {d : Edge}
  {s p q : Program} {inside : InstId → Prop}

namespace Program

variable {root : InstId} {b : BlockId}

/-! ### What stands in some blocks -/

theorem Within.isInst (within : s.Within insts i) (hi : ∀ root ∈ insts, s.isInst root = true) :
    s.isInst i = true := by
  obtain ⟨root, mem, path⟩ := within
  rcases Relation.ReflTransGen.cases_tail path with rfl | ⟨outer, -, holds⟩
  · exact hi _ mem
  · exact holds.isInst

theorem Holds.unique {inst : InstId} (holds : s.Holds outer i) (again : s.Holds inst i) :
    outer = inst := by
  obtain ⟨l, h, holder⟩ := holds
  obtain ⟨_, h', holderAgain⟩ := again
  obtain rfl := mem_unique h h'
  simpa [holder] using holderAgain

theorem isInst_of_home? (home : s.home? i = some b) : s.isInst i = true := by
  cases h : s.link? i with
  | none => simp [home?, h] at home
  | some l => simp [isInst_eq, h]

theorem not_holds_of_home? (home : s.home? i = some b) : ¬ s.Holds outer i := by
  rintro ⟨l, h, holder⟩
  simp [home?, h, holder, Holder.home?] at home

/-- Whatever an instruction is nested under is there, if it is nested under one that stands in
a block. -/
theorem isInst_of_path (home : s.home? root = some b)
    (path : Relation.ReflTransGen s.Holds root i) (above : Relation.TransGen s.Holds outer i) :
    s.isInst outer = true := by
  induction path with
  | refl =>
    obtain ⟨m, -, holds⟩ := Relation.TransGen.tail'_iff.mp above
    exact absurd holds (not_holds_of_home? home)
  | @tail m i earlier holds ih =>
    obtain ⟨inst, p, holdsAgain⟩ := Relation.TransGen.tail'_iff.mp above
    obtain rfl := holds.unique holdsAgain
    rcases Relation.reflTransGen_iff_eq_or_transGen.mp p with rfl | further
    · rcases Relation.ReflTransGen.cases_tail earlier with rfl | ⟨_, -, holdsMiddle⟩
      · exact isInst_of_home? home
      · exact holdsMiddle.isInst
    · exact ih further

/-- The block that is found by following holders outwards is the one at the end of the way. -/
theorem enclosingBlockWithin_eq_of_path {a : Option BlockId} (home : s.home? root = some b)
    (path : Relation.ReflTransGen s.Holds root i) (read : s.enclosingBlockWithin fuel i = .ok a) :
    a = some b := by
  induction fuel generalizing i with
  | zero => simp [enclosingBlockWithin] at read
  | succ fuel ih =>
    simp only [enclosingBlockWithin, bind_eq_ok, inst_eq_ok] at read
    obtain ⟨d, h, read⟩ := read
    have hLink := link?_of_inst? h
    rcases Relation.ReflTransGen.cases_tail path with rfl | ⟨outer, earlier, l, h', holder⟩
    · rw [home?, hLink, bind_some] at home
      split at read
      next noHolder => simp [Inst.link, noHolder, Holder.home?] at home
      next block isHome =>
        rw [show d.link.holder = _ from isHome, Holder.home?] at home
        rw [← home]
        exact (pure_eq_ok.mp read).symm
      next outer isOuter => simp [Inst.link, isOuter, Holder.home?] at home
    · obtain rfl := mem_unique hLink h'
      rw [show d.holder = _ from holder] at read
      exact ih earlier read

theorem exists_root_of_enclosingBlockWithin (read : s.enclosingBlockWithin fuel i = .ok (some b)) :
    ∃ root, s.home? root = some b ∧ Relation.ReflTransGen s.Holds root i := by
  induction fuel generalizing i with
  | zero => simp [enclosingBlockWithin] at read
  | succ fuel ih =>
    simp only [enclosingBlockWithin, bind_eq_ok, inst_eq_ok] at read
    obtain ⟨d, h, read⟩ := read
    have hLink := link?_of_inst? h
    split at read
    next => simp [pure_eq_ok] at read
    next home isHome =>
      obtain rfl := some.inj (pure_eq_ok.mp read)
      refine ⟨i, ?_, .refl⟩
      rw [home?, hLink, bind_some, show d.link.holder = _ from isHome, Holder.home?]
    next outer isOuter =>
      obtain ⟨root, home, path⟩ := ih read
      exact ⟨root, home, path.tail ⟨d.link, hLink, isOuter⟩⟩

/-- An instruction stands in one of some blocks, itself or through what it is nested under, if
and only if following its holders outwards leads there. -/
theorem Sound.within_iff (hs : s.Sound) (rooted : s.Rooted) :
    s.Within (blocks.flatMap s.threads) i ↔ ∃ b ∈ blocks, s.enclosingBlock? i = .ok (some b) := by
  constructor
  · rintro ⟨root, mem, path⟩
    obtain ⟨b, inBlocks, inThread⟩ := mem_flatMap.mp mem
    obtain ⟨l, h, -, holder⟩ := hs.chains.link_of_mem inThread
    have home : s.home? root = some b := by
      simp [home?, h, holder, Holder.home?]
    have hi : s.isInst i = true :=
      Within.isInst ⟨root, mem, path⟩ fun inst inThreads => by
        obtain ⟨_, -, inThread⟩ := mem_flatMap.mp inThreads
        exact hs.isInst_of_mem_threads inThread
    obtain ⟨a, read⟩ := (enclosingBlock?_answers_iff rooted hi).mpr
      fun outer above => isInst_of_path home path above
    obtain rfl := enclosingBlockWithin_eq_of_path home path read
    exact ⟨b, inBlocks, read⟩
  · rintro ⟨b, inBlocks, read⟩
    obtain ⟨root, home, path⟩ := exists_root_of_enclosingBlockWithin read
    exact ⟨root, mem_flatMap.mpr ⟨b, inBlocks, hs.mem_threads_of_home? home⟩, path⟩

theorem Sound.mem_usesOutside_iff (hs : s.Sound) (rooted : s.Rooted)
    (reading : s.usesOutside i blocks = .ok edges) :
    edges.Nodup ∧ ∀ e, e ∈ edges ↔ ∃ d, s.edges.get? e = some d ∧
      d.value = i ∧ ¬ s.Within (blocks.flatMap s.threads) d.user := by
  simp only [usesOutside, bind_eq_ok, usedBy_eq_ok, filterM_eq_ok] at reading
  obtain ⟨_, ⟨n, found, rfl⟩, answers, rfl⟩ := reading
  rw [← usesOf_eq found] at answers ⊢
  refine ⟨(hs.wired.uses.nodup i).filter _, fun e => ?_⟩
  rw [List.mem_filter]
  refine Iff.trans (and_congr_right fun mem => ?_)
    (?_ : e ∈ s.usesOf i ∧ (∀ d, s.edges.get? e = some d →
      ¬ s.Within (blocks.flatMap s.threads) d.user) ↔ _)
  · obtain ⟨d, h, -⟩ := hs.wired.edge_of_use mem
    obtain ⟨a, u, hr', reading⟩ := answers e mem
    have readUser : s.edgeUser e = .ok d.user := by
      simp only [edgeUser, bind_eq_ok, edge_eq_ok, pure_eq_ok]
      exact ⟨d, h, rfl⟩
    obtain rfl := Except.ok.inj (readUser.symm.trans hr')
    simp only [h, Option.some.injEq, forall_eq']
    rw [readUser, hs.within_iff rooted]
    by_cases hi : s.isInst d.user = true
    · simp only [bind, Except.bind, hi, if_true] at reading ⊢
      cases failed : s.enclosingBlock? d.user with
      | error fault => simp [failed] at reading
      | ok home =>
        cases home with
        | none => simp [pure, Except.pure, Except.accepts]
        | some home => simp [pure, Except.pure, Except.accepts]
    · simp only [bind, Except.bind, hi]
      refine iff_of_true rfl ?_
      rintro ⟨b, -, read⟩
      rw [enclosingBlock?, chainBound, enclosingBlockWithin] at read
      obtain ⟨i, hInst, -⟩ := bind_eq_ok.mp read
      exact hi (by simp [isInst_eq, link?, inst_eq_ok.mp hInst])
  · constructor
    · rintro ⟨mem, out⟩
      obtain ⟨d, h, reads⟩ := hs.wired.edge_of_use mem
      exact ⟨d, h, reads, out d h⟩
    · rintro ⟨d, h, rfl, out⟩
      refine ⟨?_, fun again h' => ?_⟩
      · exact (hs.wired.uses.mem_iff _ e).mpr ⟨d.outline, by rw [wire?, h, Option.map_some], rfl⟩
      · rwa [← mem_unique h h']

end Program

/-! ### All placeholders -/

namespace Program

variable {m : Program}

/-- Every edge that reads one of some instructions and whose user is not inside reads a constant
that is new; all else is the same, and constants stay covered. -/
structure Planted
    (before after : Program)
    (insts : List InstId)
    (inside : InstId → Prop) : Prop where
  kinds : after.kind? = before.kind?
  operands : after.operandsOf = before.operandsOf
  placed : ∀ edge data, before.edges.get? edge = some data →
    ∃ now, after.edges.get? edge = some now ∧ now.user = data.user ∧ now.slot = data.slot
  kept : ∀ edge data, before.edges.get? edge = some data →
    (data.value ∈ insts → inside data.user) → after.edges.get? edge = some data
  edge_before : ∀ edge data, after.edges.get? edge = some data →
    before.isLive data.value = true →
      before.edges.get? edge = some data ∧ (data.value ∈ insts → inside data.user)
  covered : before.Covered → after.Covered

theorem Planted.refl (s : Program) (inside : InstId → Prop) : s.Planted s [] inside where
  kinds := rfl
  operands := rfl
  placed _ data held := ⟨data, held, rfl, rfl⟩
  kept _ _ held _ := held
  edge_before _ _ held _ := ⟨held, by simp⟩
  covered := id

/-- The placeholder of one instruction comes first, then those of others. -/
theorem Replanted.cons {rest : List InstId} (replanted : p.Replanted m moved new)
    (mem_moved : ∀ e, e ∈ moved ↔ ∃ d, p.edges.get? e = some d ∧ d.value = i ∧ ¬ inside d.user)
    (planted : m.Planted q rest inside) : p.Planted q (i :: rest) inside where
  kinds := planted.kinds.trans replanted.kinds
  operands := planted.operands.trans replanted.operands
  placed e d h := by
    obtain ⟨between, hBetween, user, slot⟩ : ∃ now, m.edges.get? e = some now ∧
        now.user = d.user ∧ now.slot = d.slot := by
      rw [replanted.edges, h]
      split
      · exact ⟨_, rfl, rfl, rfl⟩
      · exact ⟨d, rfl, rfl, rfl⟩
    obtain ⟨now, hNow, userNow, slotNow⟩ := planted.placed e between hBetween
    exact ⟨now, hNow, userNow.trans user, slotNow.trans slot⟩
  kept e d h isInside := by
    refine planted.kept e d ?_ fun mem => isInside (mem_cons_of_mem _ mem)
    rw [replanted.edges, if_neg, h]
    intro mem
    obtain ⟨_, again, reads, out⟩ := (mem_moved e).mp mem
    obtain rfl := mem_unique h again
    exact out (isInside (reads ▸ mem_cons_self))
  edge_before e d h live := by
    obtain ⟨hBetween, isInside⟩ := planted.edge_before e d h (replanted.nodes _ live).live
    rw [replanted.edges] at hBetween
    split at hBetween
    · next isMoved =>
      -- a moved edge reads the new constant
      obtain ⟨_, -, rfl⟩ := map_eq_some_iff.mp hBetween
      have fresh := replanted.fresh (ne_nil_of_mem isMoved)
      simp [show p.isLive new = true from live] at fresh
    · next unmoved =>
      refine ⟨hBetween, fun mem => ?_⟩
      obtain isInst | inRest := mem_cons.mp mem
      · by_contra out
        exact unmoved ((mem_moved e).mpr ⟨d, hBetween, isInst, out⟩)
      · exact isInside inRest
  covered := planted.covered ∘ replanted.covered

theorem SameSkeleton.holds_eq (eq : p.SameSkeleton q) : q.Holds = p.Holds := by
  funext outer inner
  simp only [Holds, eq.link?]

theorem SameSkeleton.within_iff (eq : p.SameSkeleton q) (hs : p.Sound) :
    q.Within (blocks.flatMap q.threads) i ↔ p.Within (blocks.flatMap p.threads) i := by
  rw [Within, Within, eq.holds_eq, eq.threads_eq hs]

/-- The block that encloses each reader of an instruction can be told. -/
def Placed (program : Program) (inst : InstId) : Prop :=
  ∀ edge data, program.edges.get? edge = some data → data.value = inst →
    program.isInst data.user = true → Answers (program.enclosingBlock? data.user)

/-- The edges that read an instruction from outside some blocks can be told as well. -/
theorem Sound.usesOutside_answers (blocks : List BlockId) (hs : s.Sound)
    (live : s.isLive i = true) (placed : s.Placed i) : Answers (s.usesOutside i blocks) := by
  obtain ⟨n, found⟩ := Arena.contains_iff_get?.mp live
  apply Answers.bind (usedBy_eq_ok.mpr ⟨n, found, rfl⟩)
  refine ⟨_, filterM_eq_ok.mpr ⟨fun e mem => ?_, rfl⟩⟩
  rw [← usesOf_eq found] at mem
  obtain ⟨d, h, reads⟩ := hs.wired.edge_of_use mem
  have readUser : s.edgeUser e = .ok d.user := by
    simp only [edgeUser, bind_eq_ok, edge_eq_ok, pure_eq_ok]
    exact ⟨d, h, rfl⟩
  apply Answers.bind readUser
  split
  · next hi =>
    refine (placed e d h reads hi).andThen fun home => ?_
    cases home <;> exact .pure _
  · exact .pure _

theorem Replanted.placed {value : ValueId} (replanted : p.Replanted q moved new)
    (skeleton : p.SameSkeleton q) (rooted : p.Rooted) (live : p.isLive value = true)
    (placed : p.Placed value) : q.Placed value := by
  have rootedAfter : q.Rooted := rooted.mono fun _ _ holds => by rwa [← skeleton.holds_eq]
  have isInst_eq : q.isInst = p.isInst := by
    funext user
    rw [isInst_eq, isInst_eq, skeleton.link?]
  intro e d h reads hi
  rw [replanted.edges] at h
  split at h
  · next isMoved =>
    -- a moved edge reads the new constant
    obtain ⟨_, -, rfl⟩ := map_eq_some_iff.mp h
    have fresh := replanted.fresh (ne_nil_of_mem isMoved)
    rw [show new = value from reads, live] at fresh
    simp at fresh
  · have isInstBefore : p.isInst d.user = true := by rwa [← isInst_eq]
    have answers := placed e d h reads isInstBefore
    rw [enclosingBlock?_answers_iff rooted isInstBefore] at answers
    rw [enclosingBlock?_answers_iff rootedAfter hi, isInst_eq, skeleton.holds_eq]
    exact answers

end Program

namespace Step

variable {pr : Promise}

theorem plantAll_planted {a : Unit} (hs : p.Sound) (rooted : p.Rooted)
    (isInside : ∀ i, inside i ↔ p.Within (blocks.flatMap p.threads) i)
    (standing : ∀ i ∈ insts, p.home? i ≠ none)
    (run : (insts.forM (rebindToPlaceholder blocks)).run p = .ok (a, q)) :
    p.Plants pr q ∧ p.Planted q insts inside := by
  induction insts generalizing p with
  | nil =>
    obtain rfl := run_forM_nil.mp run
    exact ⟨.refl _, .refl _ _⟩
  | cons i rest ih =>
    obtain ⟨m, run1, run'⟩ := run_forM_cons.mp run
    obtain ⟨plants, moved, new, read, replanted⟩ : p.Plants pr m ∧ _ :=
      rebindToPlaceholder_plants hs (standing i (by simp)) run1
    have skeleton := plants.skeleton
    obtain ⟨plantsRest, planted⟩ := ih (plants.sound hs)
      (rooted.mono fun outer inner holds => by rwa [← skeleton.holds_eq])
      (fun inst => (isInside inst).trans (skeleton.within_iff hs).symm)
      (fun inst mem => by
        rw [skeleton.home?]
        exact standing inst (by simp [mem])) run'
    refine ⟨plants.trans plantsRest, replanted.cons (fun e => ?_) planted⟩
    rw [(hs.mem_usesOutside_iff rooted read).2 e]
    simp only [isInside]

theorem rebindAll_succeeds (hs : p.Sound) (standing : p.home? i ≠ none)
    (c : p.isConstant new = true) (sameType : p.type? new = p.type? i) (nd : edges.Nodup)
    (uses : ∀ e ∈ edges, ∃ d, p.wire? e = some d ∧ d.value = i) :
    (edges.forM (rebind · new)).Succeeds p := by
  induction edges generalizing p with
  | nil => exact .pure ()
  | cons e rest ih =>
    obtain ⟨away, nd'⟩ := nodup_cons.mp nd
    obtain ⟨outline, wire, reads⟩ := uses e (by simp)
    obtain ⟨d, h, rfl⟩ := map_eq_some_iff.mp wire
    obtain rfl : d.value = i := reads
    obtain ⟨_, hInst⟩ := inst?_of_home? standing
    have notConstant : p.isConstant d.value = false := by
      simp [isConstant, inst?_eq_some_iff.mp hInst, Payload.category]
    refine .bind (rebind_succeeds hs.wired.uses h (by simp [notConstant]) (isConstant_iff.mp c).1
      fun _ _ => hs.isBlock_of_home?) fun _ m run1 => ?_
    have runOne : ([e].forM (rebind · new)).run p = .ok ((), m) :=
      run_forM_cons.mpr ⟨m, run1, run_forM_nil.mpr rfl⟩
    obtain ⟨plants, rerouted, constm, -, -⟩ : p.Plants default m ∧ _ :=
      rebindAll_plants hs standing c sameType (by simp) (by simpa using uses e) runOne
    apply ih (plants.sound hs) _ constm _ nd'
    · intro edge mem
      have ne : edge ∉ [e] := by
        rintro eq
        exact away (mem_singleton.mp eq ▸ mem)
      rw [wire?, rerouted.edges, if_neg ne]
      exact uses edge (by simp [mem])
    · rwa [plants.skeleton.home?]
    · rw [(rerouted.nodes new (isConstant_iff.mp c).1).type,
        (rerouted.nodes _ (isLive_of_inst? hInst)).type, sameType]

theorem rebindToPlaceholder_succeeds (hs : p.Sound) (rooted : p.Rooted)
    (standing : p.home? i ≠ none) (placed : p.Placed i) :
    (rebindToPlaceholder blocks i).Succeeds p := by
  obtain ⟨_, hInst⟩ := inst?_of_home? standing
  have live := isLive_of_inst? hInst
  obtain ⟨out, readOutside⟩ := hs.usesOutside_answers blocks live placed
  obtain ⟨nd, mem_outside⟩ := hs.mem_usesOutside_iff rooted readOutside
  apply Succeeds.get_bind
  apply Succeeds.lift_bind readOutside
  split
  · exact .pure ()
  next some =>
  obtain ⟨n, found⟩ := Arena.contains_iff_get?.mp live
  have hType : p.type? i = Option.some n.type := by
    rw [type?, found, Option.map_some]
  apply Succeeds.lift_bind (typeOf_eq_ok.mpr ⟨n, found, rfl⟩)
  refine .bind ⟨_, _, addNode_run.mpr ⟨rfl, rfl⟩⟩ fun new planted runAdd => ?_
  have added := addNode_spec hs.stored runAdd
  obtain ⟨hsPlanted, c, sameType, one⟩ := added.placeholder hs hType
  have standingPlanted : planted.home? i ≠ none := by
    rwa [added.skeleton_of_constant.home?]
  have uses : ∀ e ∈ out, ∃ d, planted.wire? e = Option.some d ∧ d.value = i := by
    intro e mem
    obtain ⟨d, h, reads, -⟩ := (mem_outside e).mp mem
    refine ⟨d.outline, ?_, reads⟩
    rw [added.wire?, wire?, h, Option.map_some]
  refine .bind (rebindAll_succeeds hsPlanted standingPlanted c sameType nd uses)
    fun _ moved runReb => ?_
  obtain ⟨plants, rerouted, constantMoved, spare, isRead⟩ : planted.Plants default moved ∧ _ :=
    rebindAll_plants hsPlanted standingPlanted c sameType nd uses runReb
  have shared : 1 < moved.countOf new :=
    one_lt_countOf constantMoved (by rw [spare, one]) (isRead (by simpa using some))
  exact dropHandle_succeeds (isConstant_iff.mp constantMoved).1 (by omega)

/-- All placeholders come if the block that encloses each reader can be told. -/
theorem plantAll_succeeds (hs : p.Sound) (rooted : p.Rooted)
    (standing : ∀ i ∈ insts, p.home? i ≠ none) (placed : ∀ i ∈ insts, p.Placed i) :
    (insts.forM (rebindToPlaceholder blocks)).Succeeds p := by
  induction insts generalizing p with
  | nil => exact .pure ()
  | cons i rest ih =>
    refine .bind (rebindToPlaceholder_succeeds hs rooted (standing i (by simp))
      (placed i (by simp))) fun _ m run => ?_
    obtain ⟨plants, moved, new, -, replanted⟩ : p.Plants default m ∧ _ :=
      rebindToPlaceholder_plants hs (standing i (by simp)) run
    have skeleton := plants.skeleton
    apply ih (plants.sound hs)
    · exact rooted.mono fun outer inner holds => by rwa [← skeleton.holds_eq]
    · intro inst mem
      rw [skeleton.home?]
      exact standing inst (by simp [mem])
    · intro inst mem
      obtain ⟨_, h⟩ := inst?_of_home? (standing inst (by simp [mem]))
      exact replanted.placed skeleton rooted (isLive_of_inst? h) (placed inst (by simp [mem]))

end Step

end ValueGraph
