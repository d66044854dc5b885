import Mathlib
import ValueGraph.Proofs.Progress

namespace ValueGraph

/-!
# How far finalization reaches

Finalizing instructions takes along what is nested under them and nothing else: all
other instructions keep their status, and all other nodes their operands.  What is
nested under them and read by what holds it does go along, however deep it is nested.
-/

variable {i : InstId} {p q start : Program} {ended insts rest : List InstId}

/-- Instructions stand in the order of their threads and are nested under nothing. -/
structure Program.Ranked (program : Program) (insts : List InstId) : Prop where
  ordered : program.Ordered insts
  connected : ∀ inst ∈ insts, program.status? inst = some .connected
  shielded : ∀ inst ∈ insts, program.Shielded inst
  isInst : ∀ inst ∈ insts, program.isInst inst = true

theorem Program.Sound.ranked {s : Program} (hs : s.Sound) (blocks : List BlockId) :
    s.Ranked (blocks.flatMap s.threads) := by
  have conn : ∀ i ∈ blocks.flatMap s.threads,
      s.status? i = some .connected := fun i => hs.status?_of_mem_flatMap
  refine ⟨ordered_flatMap hs.chains blocks, conn, fun i mem => ?_, fun i mem => ?_⟩
  · obtain ⟨l, h, st⟩ := Option.map_eq_some_iff.mp (conn i mem)
    exact hs.shielded_of_floats h (by simp [st])
  · obtain ⟨l, h, -⟩ := Option.map_eq_some_iff.mp (conn i mem)
    exact isInst_of_link? h

namespace Step

variable {a : Unit} {region : ValueId → Prop}

/-! ### What stays -/

theorem finalizeAll_confined (hs : p.Sound) (ord : p.Ordered insts)
    (shield : ∀ i ∈ insts, p.Shielded i) (closed : p.Closed region)
    (inside : ∀ i ∈ insts, region i) (run : (insts.forM finalizeInst).run p = .ok (a, q)) :
    Program.Confined region p q := by
  induction insts generalizing p with
  | nil =>
    obtain rfl := run_forM_nil.mp run
    exact .refl _
  | cons i rest ih =>
    obtain ⟨m, run1, run'⟩ := run_forM_cons.mp run
    have fin := finalizeInst_finalized hs ord.removable (shield i (by simp)) run1
    have dw := fin.razed.dwindles hs
    refine (fin.confined region closed (inside i (by simp))).trans ?_
    apply ih (fin.razed.sound hs) _ _ (closed.of_dwindles dw) _ run'
    · exact ord.tail hs.chains fun b => congrFun fin.threads b
    · exact fun inst mem => (shield inst (by simp [mem])).of_dwindles dw
    · exact fun inst mem => inside inst (by simp [mem])

theorem dropAll_confined {values : List ValueId} (stored : p.Stored)
    (inside : ∀ v ∈ values, region v) (run : (values.forM dropHandle).run p = .ok (a, q)) :
    Program.Confined region p q := by
  induction values generalizing p with
  | nil =>
    obtain rfl := run_forM_nil.mp run
    exact .refl _
  | cons v rest ih =>
    obtain ⟨m, run1, run'⟩ := run_forM_cons.mp run
    have drop := dropHandle_spec stored run1
    refine (drop.confined (inside v (by simp))).trans ?_
    exact ih drop.stored (fun value mem => inside value (by simp [mem])) run'

theorem dropInstructions_confined (hs : p.Sound) (ranked : p.Ranked insts)
    (closed : p.Closed region) (inside : ∀ i ∈ insts, region i)
    (run : (dropInstructions insts).run p = .ok (a, q)) : Program.Confined region p q := by
  obtain ⟨_, cleared, runFin, runRelease⟩ := run_bind.mp run
  obtain ⟨razed, -⟩ := finalizeAll_razed hs ranked.ordered ranked.shielded runFin
  exact (finalizeAll_confined hs ranked.ordered ranked.shielded closed inside runFin).trans
    (dropAll_confined (razed.sound hs).stored inside runRelease)

end Step

namespace Program

variable {outer inner : InstId}

/-! ### What goes along -/

/-- What is nested and not finalized stays nested where it is. -/
theorem Wrecks.holds (wrecks : p.Wrecks q) (hs : p.Sound) (holds : p.Holds outer inner)
    (ongoing : q.Ongoing inner) : q.Holds outer inner := by
  obtain ⟨l, h, holder⟩ := holds
  obtain ⟨now, hNow, notFinalized⟩ := ongoing
  cases wrecks with
  | detach i reth =>
    rcases reth.refloats inner with kept | ⟨old, _, hOld, -, floats, -⟩
    · exact ⟨l, kept.trans h, holder⟩
    · obtain rfl := Option.mem_unique h hOld
      simp [Status.Floats, hs.reparent_of_holder h holder] at floats
  | strip i _ _ _ rem _ =>
    exact ⟨l, by rw [rem.rewires.skeleton.link?, h], holder⟩
  | mark i old st stripped relink =>
    rw [relink.links, Function.update_apply] at hNow
    split at hNow
    · obtain rfl := Option.some.inj hNow
      simp [Link.finalized] at notFinalized
    · next ne =>
      exact ⟨l, by rw [relink.links, Function.update_of_ne ne, h], holder⟩
  | drop i _ _ _ dropped =>
    have hBefore := dropped.link?_before hNow
    obtain rfl := Option.mem_unique h hBefore
    exact ⟨l, hNow, holder⟩

theorem Wrecked.holds (wrecked : Wrecked p q) (hs : p.Sound) (holds : p.Holds outer inner)
    (ongoing : q.Ongoing inner) : q.Holds outer inner := by
  induction wrecked with
  | refl => exact holds
  | tail earlier last ih =>
    have hsm := Wrecked.sound earlier hs
    refine last.holds hsm (ih ?_) ongoing
    exact (last.dwindles hsm).ongoing ongoing

/-- What an instruction carries is finalized along with it. -/
theorem Razed.carried (razed : p.Razed q) (hs : p.Sound) (carries : p.Carries outer inner)
    (wasOngoing : p.Ongoing outer) (fin : ¬ q.Ongoing outer) : ¬ q.Ongoing inner := by
  intro ongoing
  obtain ⟨l, h, holder⟩ := Wrecked.holds razed.wrecked hs carries.holds ongoing
  exact fin (razed.spares.nested _ l _ h holder carries.reads wasOngoing)

/-- When instructions have been finalized to the end, so has everything that is nested under
them and read by what holds it. -/
theorem Razed.not_ongoing {root : InstId} (razed : p.Razed q) (hs : p.Sound)
    (reads : ∀ outer inner, Relation.ReflTransGen p.Holds root outer →
      p.Holds outer inner → p.Reads outer inner ∧ p.Ongoing outer) (fin : ¬ q.Ongoing root)
    (path : Relation.ReflTransGen p.Holds root i) : ¬ q.Ongoing i := by
  induction path with
  | refl => exact fin
  | tail earlier last ih =>
    obtain ⟨isRead, wasOngoing⟩ := reads _ _ earlier last
    exact razed.carried hs ⟨last, isRead⟩ wasOngoing ih

theorem Settled.not_ongoing (settled : q.Settled i) : ¬ q.Ongoing i := by
  rintro ⟨l, h, notFinalized⟩
  obtain ⟨_, hInst, -⟩ := Option.map_eq_some_iff.mp h
  obtain ⟨again, h', fin⟩ := settled (isLive_of_inst? hInst)
  obtain rfl := Option.mem_unique h h'
  exact notFinalized fin

/-! ### Taking apart in order -/

/-- Instructions can be taken apart one after another.  Constants are covered, what is nested
within them is read once by what holds it, and apart from that only by what is nested within an
instruction that comes earlier. -/
structure Unravels (program : Program) (insts : List InstId) : Prop where
  sound : program.Sound
  covered : program.Covered
  rooted : program.Rooted
  ongoing : ∀ inst, program.Within insts inst → program.Ongoing inst
  lone : ∀ front root rest, insts = front ++ root :: rest →
    ∀ outer inner, program.Within [root] outer → program.Holds outer inner →
      ∃ edge ∈ program.operandsOf outer, edge ∈ program.usesOf inner ∧
        ∀ other ∈ program.usesOf inner, other ≠ edge →
          ∃ user, program.Within front user ∧ other ∈ program.operandsOf user

namespace Unravels

/-- Once some of the instructions are finalized, so is what is nested within them. -/
theorem not_ongoing (unravels : p.Unravels insts) (razed : p.Razed q) (some : ended ⊆ insts)
    (fin : ∀ inst ∈ ended, ¬ q.Ongoing inst) (within : p.Within ended i) : ¬ q.Ongoing i := by
  obtain ⟨root, mem, path⟩ := within
  refine razed.not_ongoing unravels.sound (fun outer inner above holds => ?_) (fin root mem) path
  obtain ⟨front, rest, split⟩ := List.append_of_mem (some mem)
  obtain ⟨e, isOperand, isUse, -⟩ :=
    unravels.lone front root rest split outer inner ⟨root, by simp, above⟩ holds
  obtain ⟨d, h, isValue⟩ := (unravels.sound.wired.uses.mem_iff inner e).mp isUse
  exact ⟨⟨e, d, isOperand, h, isValue⟩, unravels.ongoing outer ⟨root, some mem, above⟩⟩

/-- When it is an instruction's turn, nothing but its holder reads what is nested within it. -/
theorem clearable (unravels : start.Unravels (ended ++ i :: rest)) (razed : start.Razed p)
    (fin : ∀ inst ∈ ended, ¬ p.Ongoing inst) : p.Clearable (start.Within [i]) := by
  have hs := unravels.sound
  have hsp := razed.sound hs
  have dw := razed.dwindles hs
  -- an edge is left only if its user is
  have listed : ∀ user e v, start.Within (ended ++ i :: rest) user → e ∈ start.operandsOf user →
      e ∈ p.usesOf v → p.Ongoing user ∧ e ∈ p.operandsOf user := by
    intro user e v within isOperand isUse
    obtain ⟨d, there, -⟩ := (hsp.wired.uses.mem_iff v e).mp isUse
    exact Wrecked.listed razed.wrecked hs (unravels.ongoing user within) isOperand there
  have only : ∀ outer inner, p.Holds outer inner → start.Within [i] outer →
      ∃ edge ∈ start.operandsOf outer, ∀ e ∈ p.usesOf inner, e = edge := by
    intro outer inner holds within
    obtain ⟨edge, isOperand, -, others⟩ :=
      unravels.lone ended i rest rfl outer inner within (dw.holds_before holds)
    refine ⟨edge, isOperand, fun e isUse => ?_⟩
    by_contra ne
    obtain ⟨user, earlier, isOther⟩ := others e (dw.mem_usesOf_before hs hsp isUse) ne
    have ongoing := (listed user e inner (earlier.mono (by simp)) isOther isUse).1
    exact unravels.not_ongoing razed (by simp) fin earlier ongoing
  constructor
  case sound => exact hsp
  case covered => exact unravels.covered.mono fun _ => Wrecked.spare_of_constant razed.wrecked
  case rooted => exact unravels.rooted.mono fun _ _ => dw.holds_before
  case closed => exact fun outer inner carries within => within.tail (dw.holds_before carries.holds)
  case once =>
    intro outer inner holds within
    obtain ⟨edge, -, all⟩ := only outer inner holds within
    exact ((hsp.wired.uses.nodup inner).subperm fun e isUse =>
      List.mem_singleton.mpr (all e isUse)).length_le
  case lone =>
    intro outer inner holds within e isUse
    obtain ⟨edge, isOperand, all⟩ := only outer inner holds within
    obtain rfl := all e isUse
    exact listed outer e inner (within.mono (by simp)) isOperand isUse

/-- What only the instructions and what is nested within them read is read no longer when they
are finalized. -/
theorem usesOf_eq_nil {v : ValueId} (unravels : p.Unravels insts) (razed : p.Razed q)
    (fin : ∀ inst ∈ insts, ¬ q.Ongoing inst)
    (inside : ∀ e ∈ p.usesOf v, ∃ user, p.Within insts user ∧ e ∈ p.operandsOf user) :
    q.usesOf v = [] := by
  have hs := unravels.sound
  have hsq := razed.sound hs
  rw [List.eq_nil_iff_forall_not_mem]
  intro e isUse
  obtain ⟨user, within, isOperand⟩ :=
    inside e ((razed.dwindles hs).mem_usesOf_before hs hsq isUse)
  obtain ⟨d, there, -⟩ := (hsq.wired.uses.mem_iff v e).mp isUse
  have listed := Wrecked.listed razed.wrecked hs (unravels.ongoing user within) isOperand there
  exact unravels.not_ongoing razed (List.Subset.refl _) fin within listed.1

end Unravels

end Program

namespace Step

/-- The instructions that are still to be finalized can be, whichever were finalized before. -/
theorem finalizeAll_succeeds (unravels : start.Unravels (ended ++ insts)) (razed : start.Razed p)
    (fin : ∀ inst ∈ ended, ¬ p.Ongoing inst) (ord : p.Ordered insts)
    (hi : ∀ inst ∈ insts, p.isInst inst = true) (shield : ∀ inst ∈ insts, p.Shielded inst) :
    (insts.forM finalizeInst).Succeeds p := by
  induction insts generalizing p ended with
  | nil => exact .pure ()
  | cons i rest ih =>
    have hs := razed.sound unravels.sound
    have isShielded := shield i (by simp)
    refine .bind (finalizeInst_succeeds (unravels.clearable razed fin) ⟨i, by simp, .refl⟩
      (hi i (by simp)) ord.removable isShielded) fun _ m run => ?_
    have finalized := finalizeInst_finalized hs ord.removable isShielded run
    have dw := finalized.razed.dwindles hs
    have left : start.Unravels ((ended ++ [i]) ++ rest) := by simpa using unravels
    refine ih left (razed.trans finalized.razed unravels.sound) ?_ ?_ ?_ ?_
    · intro inst mem ongoing
      rcases List.mem_append.mp mem with earlier | last
      · exact fin inst earlier (dw.ongoing ongoing)
      · obtain rfl := List.mem_singleton.mp last
        obtain ⟨l, h, st⟩ := finalized.finalized
        obtain ⟨again, hAgain, notFinalized⟩ := ongoing
        obtain rfl := Option.mem_unique h hAgain
        exact notFinalized st
    · exact ord.tail hs.chains fun b => congrFun finalized.threads b
    · exact fun inst mem =>
        finalized.isInst (shield inst (by simp [mem])) (hi inst (by simp [mem]))
    · exact fun inst mem => (shield inst (by simp [mem])).of_dwindles dw

/-- Instructions that can be taken apart in their order, and are read by nothing outside, are
finalized and given up. -/
theorem dropInstructions_succeeds (unravels : p.Unravels insts) (ranked : p.Ranked insts)
    (nd : insts.Nodup) (inside : ∀ inst ∈ insts, ∀ e ∈ p.usesOf inst,
      ∃ user, p.Within insts user ∧ e ∈ p.operandsOf user) :
    (dropInstructions insts).Succeeds p := by
  have hs := unravels.sound
  have all : p.Unravels ([] ++ insts) := unravels
  refine .bind (finalizeAll_succeeds all (.refl p) (by simp) ranked.ordered ranked.isInst
    ranked.shielded) fun _ cleared run => ?_
  obtain ⟨razed, -, settled, -⟩ := finalizeAll_razed hs ranked.ordered ranked.shielded run
  refine dropAll_succeeds (razed.sound hs).stored nd (fun inst mem => ?_) fun inst mem => ?_
  · exact Program.isLive_of_category (finalizeAll_isInst hs ranked.ordered ranked.shielded
      (ranked.shielded inst mem) (ranked.isInst inst mem) run)
  · exact unravels.usesOf_eq_nil razed (fun inst mem => (settled inst mem).not_ongoing)
      (inside inst mem)

end Step

end ValueGraph
