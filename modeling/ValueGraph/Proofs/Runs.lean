import Mathlib
import ValueGraph.Proofs.Operations

namespace ValueGraph

open Option Arena

/-!
# Runs

A program without nodes is sound, and every operation keeps programs sound, so
whatever runs lead to is sound.  Other invariants are kept along runs when every
kind of move keeps them.
-/

variable {cond : Program → Operation → Program → Prop} {start final s : Program}
  {ops rest : List Operation} {α β : Type} {a : α} {inv holds : Program → Prop}

/-- What is read from the end of a run can be compared. -/
instance Except.instDecidableEq
    {ε α : Type}
    [DecidableEq ε]
    [DecidableEq α] :
    DecidableEq (Except ε α)
  | .ok first, .ok second => decidable_of_iff (first = second) (by simp)
  | .error first, .error second => decidable_of_iff (first = second) (by simp)
  | .ok _, .error _ | .error _, .ok _ => isFalse (by simp)

/-- What is read after an edit that was made. -/
def Outcome.reading? {α β : Type} (outcome : Outcome α) (read : Program → β) : Option (α × β) :=
  match outcome with
  | .done answer q => some (answer, read q)
  | _ => none

theorem Outcome.exists_done {outcome : Outcome α} {v : β} (reading : Program → β)
    (reads : outcome.reading? reading = some (a, v)) :
    ∃ q, outcome = .done a q ∧ reading q = v := by
  cases outcome with
  | done given q =>
    obtain ⟨rfl, rfl⟩ := Prod.mk.inj (some.inj reads)
    exact ⟨q, rfl, rfl⟩
  | refused cause q => cases reads
  | faulted fault => cases reads

namespace Program

/-! ### The start of every run -/

section Initial

variable (name : String) (cfg : Settings)

@[simp]
theorem payload?_initial (v : ValueId) : (initial name cfg).payload? v = none := by
  simp [payload?, initial, get?, lookup?, empty]

@[simp]
theorem operandsOf_initial (v : ValueId) : (initial name cfg).operandsOf v = [] := by
  simp [operandsOf, initial, get?, lookup?, empty]

@[simp]
theorem usesOf_initial (v : ValueId) : (initial name cfg).usesOf v = [] := by
  simp [usesOf, initial, get?, lookup?, empty]

@[simp]
theorem wire?_initial (e : EdgeId) : (initial name cfg).wire? e = none := by
  simp [wire?, initial, get?, lookup?, empty]

@[simp]
theorem link?_initial (i : InstId) : (initial name cfg).link? i = none := by
  simp [link?, inst?]

theorem threads_initial (b : BlockId) : (initial name cfg).threads b = [] := by
  have absent : (initial name cfg).block? b = none := by simp [block?]
  cases failed : (initial name cfg).instructions b with
  | error fault => simp [threads, failed]
  | ok insts =>
    simp only [instructions, bind_eq_ok, block_eq_ok, absent] at failed
    obtain ⟨_, h, -⟩ := failed
    cases h

/-- A program without nodes is sound. -/
theorem sound_initial : (initial name cfg).Sound where
  stored :=
    { values := wellFormed_empty
      edges := wellFormed_empty
      owned := fun v => by
        simp [initial, count?, lookup?, empty] }
  wired :=
    { placid := fun v reads => absurd (operandsOf_initial name cfg v) reads
      uses := ⟨by simp, by simp⟩
      nodup := by simp
      own := by simp }
  laid := fun u kind h => by
    simp [shell?, inst?] at h
  chains :=
    { ends := by simp [ends?, block?]
      outside := fun b _ => threads_initial name cfg b
      nodup := by simp [threads_initial]
      linked := by simp [threads_initial]
      attached := by simp
      unchained := by simp }
  staffed := by simp [Staffed, function?]
  catalogue := by
    constructor <;> simp [initial, NameTable.initial, name?, get?, lookup?, empty]
  registry :=
    { grown := ⟨cfg.pointerBits, .refl _⟩
      nodes := by simp [type?, initial, get?, lookup?, empty]
      registers := by simp [type?, initial, get?, lookup?, empty]
      labels := by simp [type?, initial, get?, lookup?, empty] }

end Initial

/-! ### Invariants along runs -/

/-- Something holds of every operation of a run, with the programs before and after it. -/
def Along (condition : Program → Operation → Program → Prop) : Program → List Operation → Prop
  | _, [] => True
  | p, operation :: rest =>
    ∀ after, (operation.run p).after? = some after →
      condition p operation after ∧ after.Along condition rest

/-- What holds of a program at the start, and after each operation of a run in terms of the
number of operations so far, holds in the end. -/
theorem runAll?_counted (inv : Nat → Program → Prop)
    (each : ∀ {count : Nat} {p q : Program} {op : Operation}, p.Sound → inv count p → cond p op q →
      p.Leads (op.promise p) q (op.ledger p) →
        inv (count + 1) q) (hs : start.Sound) (holds : inv 0 start) (along : start.Along cond ops)
    (run : start.runAll? ops = some final) : final.Sound ∧ inv ops.length final := by
  induction ops generalizing start inv with
  | nil =>
    obtain rfl := some.inj run
    exact ⟨hs, holds⟩
  | cons op rest ih =>
    obtain ⟨q, run1, run'⟩ := bind_eq_some_iff.mp run
    have leads := Operation.leads_of_run hs run1
    obtain ⟨cond, alongRest⟩ := along q run1
    -- for the rest of the run the count starts at one
    exact ih (fun count => inv (count + 1)) each
      (leads.reaches.sound hs) (each hs holds cond leads) alongRest run'

/-- What holds of a program, and goes on to hold under every operation of a run, holds in
the end. -/
theorem runAll?_invariant
    (each : ∀ {p q : Program} {op : Operation}, p.Sound → inv p → cond p op q →
      p.Leads (op.promise p) q (op.ledger p) → inv q) (hs : start.Sound) (holds : inv start)
    (along : start.Along cond ops) (run : start.runAll? ops = some final) :
    final.Sound ∧ inv final :=
  runAll?_counted (fun _ => inv) each hs holds along run

/-- What holds of some operations in all programs holds of every run of them. -/
theorem along_of_forall (holds : ∀ op ∈ ops, ∀ p q, cond p op q) (s : Program) :
    s.Along cond ops := by
  induction ops generalizing s with
  | nil => trivial
  | cons op rest ih =>
    exact fun q _ =>
      ⟨holds op (by simp) s q, ih (fun operation mem => holds operation (by simp [mem])) q⟩

/-- Without a condition there is nothing to ask of a run. -/
theorem along_true (s : Program) (ops : List Operation) : s.Along (fun _ _ _ => True) ops :=
  along_of_forall (fun _ _ _ _ => trivial) s

theorem along_run (s : Program) (ops : List Operation) :
    s.Along (fun p op q => (op.run p).after? = some q) ops := by
  induction ops generalizing s with
  | nil => trivial
  | cons op rest ih =>
    exact fun q run => ⟨run, ih q⟩

/-- A condition holds of a run when it holds of its first part and then of the rest. -/
theorem Along.append {first : List Operation} (along : s.Along cond first)
    (alongRest : ∀ m, s.runAll? first = some m → m.Along cond rest) :
    s.Along cond (first ++ rest) := by
  induction first generalizing s with
  | nil => exact alongRest s rfl
  | cons op others ih =>
    intro q run
    obtain ⟨holds, alongOthers⟩ := along q run
    refine ⟨holds, ih alongOthers fun m runOthers => ?_⟩
    exact alongRest m (bind_eq_some_iff.mpr ⟨q, run, runOthers⟩)

/-- A condition that holds of a run holds of its first part. -/
theorem Along.first {first : List Operation} (along : s.Along cond (first ++ rest)) :
    s.Along cond first := by
  induction first generalizing s with
  | nil => trivial
  | cons op others ih =>
    intro q run
    obtain ⟨holds, alongOthers⟩ := along q run
    exact ⟨holds, ih alongOthers⟩

/-- Every run leads to a sound program. -/
theorem sound_of_runAll? {name : String} {cfg : Settings}
    (run : (initial name cfg).runAll? ops = some s) : s.Sound :=
  (runAll?_invariant (fun _ _ _ _ => trivial) (sound_initial name cfg) trivial
    (along_true _ ops) run).1

theorem runAll?_append {first : List Operation} :
    start.runAll? (first ++ rest) = (start.runAll? first).bind (·.runAll? rest) := by
  induction first generalizing start with
  | nil => rfl
  | cons op others inductionHypothesis =>
    simp only [List.cons_append, runAll?, bind_eq_bind, bind_assoc, inductionHypothesis]

/-! ### Given runs -/

/-- A run that is given comes to an end, which is computed. -/
theorem exists_runAll? (leads : ∀ s, start.runAll? ops = some s → holds s)
    (finishes : (start.runAll? ops).isSome = true := by decide +kernel) :
    ∃ s, start.runAll? ops = some s ∧ holds s := by
  obtain ⟨s, run⟩ := isSome_iff_exists.mp finishes
  exact ⟨s, run, leads s run⟩

/-- What is read from the end of a run. -/
theorem read_of_runAll? (reading : Program → α) (run : start.runAll? ops = some s)
    (reads : (start.runAll? ops).map reading = some a) : reading s = a := by
  rw [run] at reads
  exact some.inj reads

/-- What holds at the end of a given run is computed. -/
theorem holds_of_runAll? [∀ s, Decidable (holds s)] (run : start.runAll? ops = some s)
    (decided : (start.runAll? ops).map (fun s => decide (holds s)) = some true := by
      decide +kernel) : holds s :=
  of_decide_eq_true (read_of_runAll? (fun s => decide (holds s)) run decided)

theorem done_of_runAll? (edit : Edit α) (a : α) (reading : Program → β) (v : β)
    (run : start.runAll? ops = some s)
    (reads : (start.runAll? ops).map (fun s => (edit s).reading? reading) = some (some (a, v)) := by
      decide +kernel) :
    ∃ after, edit s = .done a after ∧ reading after = v :=
  Outcome.exists_done reading (read_of_runAll? (fun s => (edit s).reading? reading) run reads)

/-! ### Invariants along moves -/

/-- Something that every kind of move keeps. -/
structure Kept (promise : Promise) (invariant : Program → Prop) : Prop where
  grow : ∀ {before after value type payload}, before.Sound → after.Sound →
    before.Added after value type payload → payload.Blank → payload.category ≠ .inst →
      invariant before → invariant after
  build : ∀ {before after inst type kind}, before.Sound →
    before.Built after inst type kind → invariant before → invariant after
  adopt : ∀ {before after inst write link}, before.Sound →
    before.Adopts after inst write link → invariant before → invariant after
  shape : ∀ {before after}, before.Sound →
    before.Shapes promise after → invariant before → invariant after

namespace Kept

variable {pr : Promise} {p q : Program}

section

variable (kept : Kept pr inv) (hs : p.Sound)
include kept hs

theorem raises (raises : p.Raises pr q) (holds : inv p) : inv q := by
  have hsq := raises.sound hs
  cases raises with
  | grow v ty payload added blank noInst =>
    exact kept.grow hs hsq added blank noInst holds
  | build i ty kind built => exact kept.build hs built holds
  | shape shapes => exact kept.shape hs shapes holds

theorem grown (grown : Grown pr p q) (holds : inv p) : inv q := by
  induction grown with
  | refl => exact holds
  | tail earlier last ih =>
    exact kept.raises (Grown.sound earlier hs) last ih

theorem shrunk (shrunk : Shrunk pr p q) (holds : inv p) : inv q := by
  induction shrunk with
  | refl => exact holds
  | tail earlier last ih =>
    exact kept.shape (Shrunk.sound earlier hs) last ih

theorem reaches (reaches : p.Reaches pr q) (holds : inv p) : inv q := by
  obtain ⟨grown, adopted, isGrown, isAdopted, isShrunk⟩ := reaches
  have hsGrown := Grown.sound isGrown hs
  have holdsGrown := kept.grown hs isGrown holds
  rcases isAdopted with rfl | ⟨i, write, l, adopts, -⟩
  · exact kept.shrunk hsGrown isShrunk holdsGrown
  · exact kept.shrunk (adopts.sound hsGrown) isShrunk (kept.adopt hsGrown adopts holdsGrown)

end

end Kept

end Program

end ValueGraph
