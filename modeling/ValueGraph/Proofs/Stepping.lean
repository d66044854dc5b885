import Mathlib
import ValueGraph.Operation

namespace ValueGraph

/-!
# Taking runs apart

A step that succeeds is taken apart into its parts, each with the program it
starts from and the program it leaves.  A planned edit that meets no fault
either was refused, and then left the program as it was, or made the step that
was planned.
-/

variable {cause : Refusal} {a : PUnit} {p q : Program} {ε α β : Type} {first : Except ε α}
  {next : α → Except ε β} {res : β} {reading : Except Fault α} {items : List α}
  {step : α → Step PUnit} {look : Program → Except Halt (Step α)} {second : α → Edit β}

/-- A sequence of computations succeeds through an intermediate answer. -/
theorem bind_eq_ok : first >>= next = .ok res ↔ ∃ a, first = .ok a ∧ next a = .ok res := by
  cases first <;> simp [bind, Except.bind]

theorem pure_eq_ok {a res : α} : (pure a : Except ε α) = .ok res ↔ a = res := by
  simp [pure, Except.pure]

theorem throw_ne_ok (fault : ε) (res : α) : (throw fault : Except ε α) ≠ .ok res := by
  simp [throw, throwThe, MonadExceptOf.throw]

/-- A reading made while looking succeeds when the reading does. -/
theorem liftHalt_eq_ok {res : α} :
    (liftM reading : Except Halt α) = .ok res ↔ reading = .ok res := by
  cases reading <;> simp [liftM, monadLift, MonadLift.monadLift]

theorem require_eq_ok {cond : Bool} {cause : EditCause} {a : Unit} :
    require cond cause = .ok a ↔ cond = true := by
  unfold require refuse
  split <;> simp_all

theorem refuse_ne_ok (cause : EditCause) (res : α) : (refuse cause : Except Halt α) ≠ .ok res := by
  simp [refuse]

/-! ### Readings along a list -/

/-- Whether a reading answers with yes. -/
def Except.accepts {ε : Type} : Except ε Bool → Bool
  | .ok answer => answer
  | .error _ => false

/-- The members of a list that a reading accepts are found by filtering. -/
theorem filterM_eq_ok {reading : α → Except ε Bool} {kept : List α} :
    items.filterM reading = .ok kept ↔ (∀ item ∈ items, ∃ a, reading item = .ok a) ∧
        kept = items.filter fun item => Except.accepts (reading item) := by
  have collected : ∀ collected res, List.filterAuxM reading items collected = .ok res ↔
        (∀ item ∈ items, ∃ a, reading item = .ok a) ∧
          res = (items.filter fun item => Except.accepts (reading item)).reverse ++
            collected := by
    induction items with
    | nil =>
      intro collected res
      simp only [List.filterAuxM, pure_eq_ok]
      simp [eq_comm]
    | cons item rest ih =>
      intro collected res
      simp only [List.filterAuxM, bind_eq_ok, List.forall_mem_cons]
      constructor
      · rintro ⟨a, read, remaining⟩
        obtain ⟨others, rfl⟩ := (ih _ _).mp remaining
        refine ⟨⟨⟨a, read⟩, others⟩, ?_⟩
        cases a <;> simp [read, Except.accepts]
      · rintro ⟨⟨⟨a, read⟩, others⟩, rfl⟩
        refine ⟨a, read, (ih _ _).mpr ⟨others, ?_⟩⟩
        cases a <;> simp [read, Except.accepts]
  unfold List.filterM
  simp only [bind_eq_ok, collected, pure_eq_ok]
  constructor
  · rintro ⟨res, ⟨others, rfl⟩, rfl⟩
    exact ⟨others, by simp⟩
  · rintro ⟨others, rfl⟩
    exact ⟨_, ⟨others, rfl⟩, by simp⟩

/-- A reading of every member of a list succeeds member by member. -/
theorem mapM_eq_ok {reading : α → Except ε β} {answers : List β} :
    items.mapM reading = .ok answers ↔
      List.Forall₂ (fun item a => reading item = .ok a) items answers := by
  induction items generalizing answers with
  | nil =>
    rw [List.mapM_nil, pure_eq_ok, List.forall₂_nil_left_iff, eq_comm]
  | cons item rest ih =>
    simp only [List.mapM_cons, bind_eq_ok, pure_eq_ok, List.forall₂_cons_left_iff]
    constructor
    · rintro ⟨a, read, others, readOthers, rfl⟩
      exact ⟨a, others, read, ih.mp readOthers, rfl⟩
    · rintro ⟨a, others, read, readOthers, rfl⟩
      exact ⟨a, read, others, ih.mpr readOthers, rfl⟩

namespace Step

/-- A sequence of steps succeeds through an intermediate program. -/
theorem run_bind {first : Step α} {next : α → Step β} :
    (first >>= next).run p = .ok (res, q) ↔ ∃ a m, first.run p = .ok (a, m) ∧
          (next a).run m = .ok (res, q) := by
  rw [StateT.run_bind, bind_eq_ok]
  simp

theorem run_pure {a res : α} : (pure a : Step α).run p = .ok (res, q) ↔ a = res ∧ p = q := by
  simp [StateT.run_pure, pure_eq_ok]

theorem run_get {a : Program} : (get : Step Program).run p = .ok (a, q) ↔ p = a ∧ p = q := by
  simp [StateT.run_get, pure_eq_ok]

theorem run_set {new : Program} : (set new : Step PUnit).run p = .ok (a, q) ↔ new = q := by
  simp [StateT.run_set, pure_eq_ok]

theorem run_modify {change : Program → Program} :
    (modify change : Step PUnit).run p = .ok (a, q) ↔ change p = q := by
  simp [modify, StateT.run_modifyGet, pure_eq_ok]

/-- A reading made by a step leaves the program as it was. -/
theorem run_lift {res : α} :
    (liftM reading : Step α).run p = .ok (res, q) ↔ reading = .ok res ∧ p = q := by
  cases reading <;>
    simp [liftM, monadLift, MonadLift.monadLift, StateT.run_lift, bind, Except.bind, pure,
      Except.pure]

theorem run_get_bind {next : Program → Step β} :
    (get >>= next).run p = .ok (res, q) ↔ (next p).run p = .ok (res, q) := by
  simp

/-- A step that starts with a reading goes on with its answer. -/
theorem run_look {reading : Program → Except Fault α} {next : Program → α → Step β} :
    (get >>= fun s => liftM (reading s) >>= next s).run p = .ok (res, q) ↔
      ∃ a, reading p = .ok a ∧ (next p a).run p = .ok (res, q) := by
  rw [run_get_bind, run_bind]
  simp only [run_lift]
  simp

theorem run_throw_ne_ok (fault : Fault) (p : Program) (res : α × Program) :
    (throw fault : Step α).run p ≠ .ok res := by
  intro succeeded
  cases succeeded

theorem run_forM_nil : (([] : List α).forM step).run p = .ok (a, q) ↔ p = q := by
  simp only [List.forM, run_pure, true_and]

theorem run_forM_cons {item : α} {rest : List α} :
    ((item :: rest).forM step).run p = .ok (a, q) ↔ ∃ m, (step item).run p = .ok (⟨⟩, m) ∧
        (rest.forM step).run m = .ok (⟨⟩, q) := by
  simp only [List.forM, run_bind]
  exact ⟨fun ⟨_, res⟩ => res, fun res => ⟨⟨⟩, res⟩⟩

/-! ### Relations between the programs before and after -/

/-- Every successful run of a step relates the program before to the one after. -/
def Moves (relation : Program → Program → Prop) (step : Step α) : Prop :=
  ∀ ⦃before after : Program⦄ ⦃answer : α⦄,
    step.run before = .ok (answer, after) → relation before after

namespace Moves

variable {relation : Program → Program → Prop} [IsPreorder Program relation]

theorem pure (a : α) : Moves relation (pure a : Step α) := by
  intro p q _ run
  obtain ⟨-, rfl⟩ := run_pure.mp run
  exact refl_of relation p

theorem get : Moves relation (MonadState.get : Step Program) := by
  intro p q _ run
  obtain ⟨-, rfl⟩ := run_get.mp run
  exact refl_of relation p

theorem lift (reading : Except Fault α) : Moves relation (liftM reading : Step α) := by
  intro p q _ run
  obtain ⟨-, rfl⟩ := run_lift.mp run
  exact refl_of relation p

omit [IsPreorder Program relation] in
theorem throw (fault : Fault) : Moves relation (throw fault : Step α) := by
  intro p q a run
  exact absurd run (run_throw_ne_ok _ _ _)

theorem bind {first : Step α} {next : α → Step β} (start : Moves relation first)
    (others : ∀ a, Moves relation (next a)) : Moves relation (first >>= next) := by
  intro p q _ run
  obtain ⟨a, m, run1, runNext⟩ := run_bind.mp run
  exact trans_of relation (start run1) (others a runNext)

theorem forM (each : ∀ item, Moves relation (step item)) : Moves relation (items.forM step) := by
  induction items with
  | nil => exact pure _
  | cons item rest ih =>
    exact bind (each item) fun _ => ih

end Moves

end Step

/-! ### Edits that were made -/

namespace Edit

variable {s : Program} {a : α}

theorem perform_eq_done {step : Step α} : perform step s = .done a q ↔ step.run s = .ok (a, q) := by
  unfold perform
  split <;> simp_all

/-- An edit that was made had a plan, and the step that was planned succeeded. -/
theorem plan_eq_done :
    plan look s = .done a q ↔ ∃ step, look s = .ok step ∧ step.run s = .ok (a, q) := by
  unfold plan
  split <;> simp_all [perform_eq_done]

theorem plan_eq_refused :
    plan look s = .refused cause q ↔ look s = .error (.refused cause) ∧ s = q := by
  unfold plan
  split <;> simp_all [perform_ne_refused]

theorem look_eq_done {reading : Program → Except Halt α} :
    Edit.look reading s = .done a q ↔ reading s = .ok a ∧ s = q := by
  unfold Edit.look
  split <;> simp_all

theorem look_eq_refused {reading : Program → Except Halt α} :
    Edit.look reading s = .refused cause q ↔ reading s = .error (.refused cause) ∧ s = q := by
  unfold Edit.look
  split <;> simp_all

/-- A change made in two parts is one change after the other. -/
theorem perform_bind (first : Step α) (next : α → Step β) :
    perform (first >>= next) = (perform first).andThen fun a => perform (next a) := by
  funext s
  simp only [perform, andThen, StateT.run_bind]
  cases first.run s <;> rfl

theorem andThen_eq_done {first : Edit α} :
    first.andThen second s = .done res q ↔ ∃ a m, first s = .done a m ∧
        second a m = .done res q := by
  unfold andThen
  split <;> simp_all

theorem andThen_eq_refused {first : Edit α} :
    first.andThen second s = .refused cause q ↔ first s = .refused cause q ∨
        ∃ a m, first s = .done a m ∧ second a m = .refused cause q := by
  unfold andThen
  split <;> simp_all

theorem map_eq_done {change : α → β} {edit : Edit α} :
    edit.map change s = .done res q ↔ ∃ a, edit s = .done a q ∧ change a = res := by
  unfold map
  split <;> simp_all [and_comm]

end Edit

end ValueGraph
