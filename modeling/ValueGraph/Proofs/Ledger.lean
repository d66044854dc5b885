import Mathlib
import ValueGraph.Proofs.Generations
import ValueGraph.Proofs.Nesting
import ValueGraph.Proofs.OperandRules
import ValueGraph.Proofs.Recycling

namespace ValueGraph

open Program List Option Arena

/-!
# The ledger of a run

Every operation shifts the balances of nodes by what its ledger says, if no
instruction reads what is nested under it twice.  Instructions are nested under
register writes, and these read one thing besides a register.  So what the ledgers
of a run add up to is what is left of the owning handles once those of containers
and of the uses of constants are taken off.
-/

variable {ops : List Operation} {v : ValueId}

namespace Program

variable {p q s : Program} {pr : Promise} {outer inner : InstId} {age : Nat}

/-! ### Holders -/

/-- What holds an instruction is a register write, as long as it is there. -/
def Writes (program : Program) : Prop :=
  ∀ outer inner, program.Holds outer inner → program.isLive outer = true →
    program.shell? outer = some .regWrite

/-- What holds an instruction has been given out. -/
def Housed (program : Program) : Prop :=
  ∀ outer inner, program.Holds outer inner → program.values.Known outer

theorem Nested.writes (nested : s.Nested) : s.Writes :=
  fun outer inner holds _ => (nested outer inner holds).isWrite

theorem Grown.holds_before (grown : Grown pr p q) (hs : p.Sound) (holds : q.Holds outer inner) :
    p.Holds outer inner := by
  induction grown with
  | refl => exact holds
  | tail earlier last ih =>
    refine ih ?_
    cases last with
    | grow v ty payload added blank => exact added.holds_before blank holds
    | build i ty kind built => exact built.holds_before holds
    | shape shapes =>
      exact shapes.drifts.holds_before (shapes.sound (Grown.sound earlier hs)) holds

/-- While nodes come, holders stay what they were. -/
theorem Grown.writes (grown : Grown pr p q) (hs : p.Sound) (housed : p.Housed) (writes : p.Writes) :
    q.Writes := by
  intro outer inner holds live
  have holdsBefore := Grown.holds_before grown hs holds
  have waxes := Grown.waxes grown hs
  have liveBefore := (housed outer inner holdsBefore).contains_before waxes.grows live
  rw [(waxes.sorts outer liveBefore).shells]
  exact writes outer inner holdsBefore liveBefore

theorem Grown.housed (grown : Grown pr p q) (hs : p.Sound) (housed : p.Housed) :
    q.Housed := fun outer inner holds =>
  (housed outer inner (Grown.holds_before grown hs holds)).of_grows (Grown.waxes grown hs).grows

section Adopting

variable {i write : InstId} {l : Link} (adopts : p.Adopts q i write l)
include adopts

theorem Adopts.writes (writes : p.Writes) : q.Writes := by
  intro outer inner holds live
  have rea := adopts.relinked.restrings.rearranges
  rw [rea.shells]
  rcases adopts.holds holds with ⟨-, rfl⟩ | ⟨-, holdsBefore⟩
  · exact adopts.isWrite
  · exact writes outer inner holdsBefore (by rwa [rea.isLive] at live)

theorem Adopts.housed (housed : p.Housed) : q.Housed := by
  intro outer inner holds
  rcases adopts.holds holds with ⟨-, rfl⟩ | ⟨-, holdsBefore⟩
  · refine Or.inl (adopts.grows.contains _ ?_)
    obtain ⟨d, h, -⟩ := map_eq_some_iff.mp adopts.isWrite
    exact isLive_of_inst? h
  · exact (housed outer inner holdsBefore).of_grows adopts.grows

end Adopting

theorem Shrunk.holds_before (shrunk : Shrunk pr p q) (hs : p.Sound) (holds : q.Holds outer inner) :
    p.Holds outer inner :=
  (Shrunk.drifts shrunk).holds_before (Shrunk.sound shrunk hs) holds

/-- While nodes go, holders that are left stay what they were. -/
theorem Shrunk.writes (shrunk : Shrunk pr p q) (hs : p.Sound) (writes : p.Writes) : q.Writes := by
  intro outer inner holds live
  have wanes := Shrunk.wanes shrunk
  rw [(wanes.sorts outer live).shells]
  exact writes outer inner (Shrunk.holds_before shrunk hs holds) (wanes.isLive live)

theorem Reaches.writes (reaches : p.Reaches pr q) (hs : p.Sound) (housed : p.Housed)
    (writes : p.Writes) : q.Writes := by
  obtain ⟨m, hsm, -, writesMiddle, isShrunk⟩ := reaches.between hs Writes
    (fun isGrown => Grown.writes isGrown hs housed writes) fun _ adopts => adopts.writes
  exact Shrunk.writes isShrunk hsm writesMiddle

theorem Reaches.housed (reaches : p.Reaches pr q) (hs : p.Sound) (young : p.values.Young age)
    (room : age + 1 < 2 ^ 32) (housed : p.Housed) : q.Housed := by
  obtain ⟨m, hsm, grows, housedMiddle, isShrunk⟩ := reaches.between hs Housed
    (fun isGrown => Grown.housed isGrown hs housed) fun _ adopts => adopts.housed
  intro outer inner holds
  exact (housedMiddle outer inner (Shrunk.holds_before isShrunk hsm holds)).of_shrinks
    (young.of_grows grows) room (Shrunk.wanes isShrunk).shrinks

/-- Whatever runs lead to, instructions are nested under register writes: while no slot has
come round to a generation that it had before, and for as long as writes go on to read what
is nested under them. -/
theorem writes_of_runAll? {name : String} {cfg : Settings}
    (run : (initial name cfg).runAll? ops = some s)
    (apart : ops.length < 2 ^ 32 ∨ (initial name cfg).Along (fun p op _ => op.KeepsNested p) ops) :
    s.Writes := by
  rcases apart with short | along
  · have counted := (runAll?_counted (fun count reached => count < 2 ^ 32 →
        reached.values.Young count ∧ reached.Housed ∧ reached.Writes)
      (fun hs holds _ leads room => ?_) (sound_initial name cfg)
      (fun _ => ⟨young_initial name cfg, ?_, ?_⟩) (along_true _ ops) run).2
    · exact (counted short).2.2
    · obtain ⟨young, housed, writes⟩ := holds (Nat.lt_of_succ_lt room)
      exact ⟨leads.reaches.young hs young room, leads.reaches.housed hs young room housed,
        leads.reaches.writes hs housed writes⟩
    · exact fun _ _ holds => absurd holds (not_holds_initial name cfg)
    · exact fun _ _ holds => absurd holds (not_holds_initial name cfg)
  · exact (nested_of_runAll? run along).writes

/-! ### What a write reads -/

/-- A register write reads at most one thing besides its register, so it reads what is
nested under it once. -/
theorem Writes.neat (writes : s.Writes) (hs : s.Sound) (obeys : s.Obeys .register) : s.Neat := by
  intro outer
  by_cases none : ∀ e ∈ s.operandsOf outer, s.nests outer e = false
  · rw [countP_eq_zero.mpr (by simpa using none)]
    exact Nat.zero_le 1
  push Not at none
  obtain ⟨e, mem, nests⟩ := none
  have isWrite : s.shell? outer = some .regWrite := by
    simp only [Program.nests, ne_eq, Bool.not_eq_false, Option.any_eq_true, beq_iff_eq] at nests
    obtain ⟨d, -, l, h, holder⟩ := nests
    exact writes outer d.value ⟨l, h, holder⟩ (isLive_of_mem_operandsOf mem)
  have places : s.slotsOf outer <+: [.fixed 0, .fixed 1] := hs.laid outer .regWrite isWrite
  cases listed : s.operandsOf outer with
  | nil => exact Nat.zero_le 1
  | cons first rest =>
    rw [slotsOf, listed, map_cons, cons_prefix_cons] at places
    obtain ⟨isFirst, others⟩ := places
    have short : rest.length ≤ 1 := by simpa using others.length_le
    obtain ⟨d, h, -⟩ := hs.wired.own outer first (by simp [listed])
    have isRegister : s.isRegister d.value = true := by
      refine obeys outer first d (by simp [listed]) h ?_
      rw [slotOf, h] at isFirst
      rw [rule?_of_shell? isWrite, show d.slot = .fixed 0 from isFirst]
      rfl
    have bare : s.nests outer first = false := by
      rw [isRegister_eq, isSome_iff_exists] at isRegister
      obtain ⟨r, isRegister⟩ := isRegister
      have noLink : s.link? d.value = none := by
        simp [link?_eq_bind, register?_eq_some_iff.mp isRegister, Payload.inst?]
      simp [Program.nests, h, noLink]
    rw [countP_cons_of_neg (by simp [bare])]
    exact countP_le_length.trans short

/-! ### The ledger -/

/-- The handles that the client holds after some operations, by the ledger of each. -/
def account (program : Program) : List Operation → ValueId → Int
  | [] => 0
  | operation :: rest =>
    operation.ledger program + (operation.run program).after?.elim 0 (·.account rest)

/-- What the client holds after two runs is what both give to it. -/
theorem account_append {start middle : Program} {first rest : List Operation}
    (run : start.runAll? first = some middle) :
    start.account (first ++ rest) = start.account first + middle.account rest := by
  induction first generalizing start with
  | nil =>
    obtain rfl := some.inj run
    simp [account]
  | cons op others inductionHypothesis =>
    obtain ⟨q, runFirst, runOthers⟩ := bind_eq_some_iff.mp run
    simp only [cons_append, account, runFirst, elim_some, inductionHypothesis runOthers, add_assoc]

/-- Constants that come and go leave the client with what it held. -/
theorem account_churn {index : Nat} {generation : UInt32}
    (vacated : p.values.VacatedLast index generation) (cycles : Nat) :
    p.account (churn index generation cycles) = 0 := by
  induction cycles generalizing p generation with
  | zero => rfl
  | succ cycles inductionHypothesis =>
    obtain ⟨filled, made, released⟩ := exists_cycle vacated
    have later :
        (p.aged index (generation + 1)).account (churn index (generation + 1) cycles) = 0 :=
      inductionHypothesis (vacated.of_aged _)
    simp [churn, account, Operation.ledger, made, released, Operation.credit, Outcome.after?, later,
      ← Pi.single_add]

/-- If instructions are neat all along a run, balances shift as the ledgers say. -/
theorem tally_of_runAll? {start final : Program} (hs : start.Sound)
    (run : start.runAll? ops = some final)
    (neat : ∀ first rest m, ops = first ++ rest → start.runAll? first = some m → m.Neat) :
    start.Tally final (start.account ops) := by
  induction ops generalizing start with
  | nil =>
    obtain rfl := some.inj run
    exact .refl start
  | cons op rest ih =>
    obtain ⟨q, run1, run'⟩ := bind_eq_some_iff.mp run
    have leads := Operation.leads_of_run hs run1
    have first := leads.tally (neat [] _ start rfl rfl)
    have later := ih (leads.reaches.sound hs) run' fun others rest m split runOthers => by
        refine neat (op :: others) rest m (by rw [split, cons_append]) ?_
        exact bind_eq_some_iff.mpr ⟨q, run1, runOthers⟩
    rw [account, run1, elim_some]
    exact first.trans later

/-- No handle is left on what is not there. -/
theorem balance_of_absent (absent : s.values.get? v = none) : s.balance v = 0 := by
  have noCount : s.values.count? v = none := count?_eq_none_iff.mpr (get?_eq_none_iff.mp absent)
  have noPayload : s.payload? v = none := by rw [payload?, absent, map_none]
  simp [balance, spare, owned, isOwned, countOf, isConstant, noCount, noPayload]

/-- The owning handles on a node are those of the client, of its container, and of the
edges that read it if it is a constant. -/
theorem count?_of_balance {n : Node} (stored : s.Stored) (found : s.values.get? v = some n) :
    ∃ count, s.values.count? v = some count ∧ 0 < count ∧
      (count : Int) = s.balance v + (if s.isOwned v = true then 1 else 0) +
        if s.isConstant v = true then (n.usedBy.length : Int) else 0 := by
  obtain ⟨count, named⟩ := get?_eq_some_iff.mp found
  have counted : s.values.count? v = some count := count?_eq_some_iff.mpr ⟨n, named⟩
  refine ⟨count, counted, ?_, ?_⟩
  · have owned := stored.owned v
    rw [counted] at owned
    exact Nat.pos_of_ne_zero fun none => owned (by rw [none])
  · rw [balance, spare, owned, countOf_eq counted, usesOf_eq found]
    ring

end Program

/-- The owning handles on a node are those that the client holds by the ledgers of the run,
one if a container holds the node, and one for each edge that reads it if it is a constant.
So a node is there as long as one of them has a handle on it, and the client holds none on
a node that is gone. -/
theorem owning_handles_add_up {name : String} {settings : Settings} {operations : List Operation}
    {program : Program} (run : (Program.initial name settings).runAll? operations = some program)
    (rules : (Program.initial name settings).Along
      (fun before operation _ => operation.KeepsRule before .register) operations)
    (apart : operations.length < 2 ^ 32 ∨ (Program.initial name settings).Along
      (fun before operation _ => operation.KeepsNested before) operations) :
    (∀ value node, program.values.get? value = some node →
      ∃ count, program.values.count? value = some count ∧ 0 < count ∧
        (count : Int) = (Program.initial name settings).account operations value +
          (if program.isOwned value = true then 1 else 0) +
          if program.isConstant value = true then (node.usedBy.length : Int) else 0) ∧
    ∀ value, program.values.get? value = none →
      (Program.initial name settings).account operations value = 0 := by
  have sound := sound_of_runAll? run
  have tally : (initial name settings).Tally program
      ((initial name settings).account operations) := by
    refine tally_of_runAll? (sound_initial name settings) run
      fun first rest middle split runFirst => ?_
    subst split
    refine (writes_of_runAll? runFirst ?_).neat (sound_of_runAll? runFirst)
      (obeys_of_runAll? runFirst rules.first)
    refine apart.imp (fun short => ?_) Along.first
    rw [List.length_append] at short
    omega
  have balance : ∀ value, program.balance value =
      (initial name settings).account operations value := by
    intro value
    rw [tally value, balance_of_absent (by simp [initial]), zero_add]
  refine ⟨fun value node found => ?_, fun value absent => ?_⟩
  · rw [← balance]
    exact count?_of_balance sound.stored found
  · rw [← balance, balance_of_absent absent]

/-- A sum of a constant with itself is nested under a register write while the client
keeps a copy of its handle. -/
def nestedSum : List Operation :=
  [.requestType (.function ⟨.void, [], false⟩), .addFunction "f" ⟨13⟩, .enableRegisters ⟨0, 0⟩,
    .allocateRegister ⟨0, 0⟩ ⟨5⟩, .constSigned ⟨5⟩ 1, .buildBinary .add ⟨2, 0⟩ ⟨2, 0⟩,
    .retain ⟨3, 0⟩, .buildRegWrite ⟨1, 0⟩ ⟨3, 0⟩]

theorem along_nestedSum : (initial "m" .standard).Along
    (fun before operation _ => operation.KeepsRule before .register) nestedSum :=
  along_of_forall (by simp [nestedSum, Operation.KeepsRule, Operation.Rebinds]) _

/-- The client and the write own the sum; the client and two edges own the constant. -/
theorem owning_handles_of_nested_sum :
    ∃ program, (Program.initial "m" .standard).runAll? nestedSum = some program ∧
      program.isOwned ⟨3, 0⟩ = true ∧ program.values.count? ⟨3, 0⟩ = some 2 ∧
      (Program.initial "m" .standard).account nestedSum ⟨3, 0⟩ = 1 ∧
      program.usedBy ⟨2, 0⟩ = .ok [⟨0, 0⟩, ⟨1, 0⟩] ∧ program.values.count? ⟨2, 0⟩ = some 3 ∧
      (Program.initial "m" .standard).account nestedSum ⟨2, 0⟩ = 1 := by
  refine exists_runAll? fun program run => ?_
  obtain ⟨counts, -⟩ := owning_handles_add_up run along_nestedSum (Or.inl (by decide))
  obtain ⟨isOwned, sumVaries, sumCount, unowned, isConstant, uses, constantCount⟩ :
      program.isOwned ⟨3, 0⟩ = true ∧ program.isConstant ⟨3, 0⟩ = false ∧
      program.values.count? ⟨3, 0⟩ = some 2 ∧ program.isOwned ⟨2, 0⟩ = false ∧
      program.isConstant ⟨2, 0⟩ = true ∧ program.usedBy ⟨2, 0⟩ = .ok [⟨0, 0⟩, ⟨1, 0⟩] ∧
      program.values.count? ⟨2, 0⟩ = some 3 := by
    apply holds_of_runAll? run
  obtain ⟨item, sum⟩ := Arena.count?_eq_some_iff.mp sumCount
  obtain ⟨_, countedSum, -, sumOwners⟩ := counts _ _ (Arena.get?_eq_some_iff.mpr ⟨2, sum⟩)
  obtain rfl := mem_unique sumCount countedSum
  obtain ⟨constant, found, listed⟩ := usedBy_eq_ok.mp uses
  obtain ⟨_, countedConstant, -, constantOwners⟩ := counts _ _ found
  obtain rfl := mem_unique constantCount countedConstant
  simp [isOwned, sumVaries] at sumOwners
  simp [unowned, isConstant, listed] at constantOwners
  exact ⟨isOwned, sumCount, by omega, uses, constantCount, by omega⟩

/-- The write is made to read something else than the sum nested under it, and goes. -/
def releasedSum : List Operation :=
  nestedSum ++ [.setUse ⟨3, 0⟩ (some ⟨2, 0⟩), .retain ⟨3, 0⟩, .eraseInstruction ⟨4, 0⟩]

/-- A sum that reads the first one twice is made and finalized. -/
def namesakeSum : List Operation :=
  [.buildBinary .add ⟨3, 0⟩ ⟨3, 0⟩, .finalize ⟨4, 0⟩]

/-- Once the slot of the write has come round, a sum that reads the first one twice gets the handle
of the write, and takes two handles along when it is finalized. -/
theorem sum_loses_handles_of_client :
    ∃ operations program, (Program.initial "m" .standard).runAll? operations = some program ∧
      (Program.initial "m" .standard).Along
        (fun before operation _ => operation.KeepsRule before .register) operations ∧
      program.values.count? ⟨3, 0⟩ = some 1 ∧ program.isOwned ⟨3, 0⟩ = false ∧
      program.isConstant ⟨3, 0⟩ = false ∧
      (Program.initial "m" .standard).account operations ⟨3, 0⟩ = 2 := by
  obtain ⟨left, cycles, program, run, vacated, runCycles, runRest, earlier, later, final⟩ :
      ∃ left cycles program, (initial "m" .standard).runAll? releasedSum = some left ∧
        left.values.VacatedLast 4 1 ∧
        left.runAll? (churn 4 1 cycles) = some (left.aged 4 0) ∧
        (left.aged 4 0).runAll? namesakeSum = some program ∧
        (initial "m" .standard).account releasedSum ⟨3, 0⟩ = 2 ∧
        (left.aged 4 0).account namesakeSum ⟨3, 0⟩ = 0 ∧
        program.values.count? ⟨3, 0⟩ = some 1 ∧ program.isOwned ⟨3, 0⟩ = false ∧
        program.isConstant ⟨3, 0⟩ = false := by
    apply exists_churn releasedSum namesakeSum 4
  refine ⟨releasedSum ++ churn 4 1 cycles ++ namesakeSum, program, ?_, ?_, final.1, final.2.1,
    final.2.2, ?_⟩
  · rw [runAll?_append, runAll?_append, run, bind_some, runCycles, bind_some, runRest]
  · refine (Along.append (Along.append along_nestedSum
      fun middle runFirst => ?_) fun _ _ => ?_).append
      fun _ _ => along_of_forall (by simp [namesakeSum, Operation.KeepsRule, Operation.Rebinds]) _
    · intro after _
      refine ⟨fun data new moves isRule => ?_,
        along_of_forall (by simp [Operation.KeepsRule, Operation.Rebinds]) _⟩
      have other : (middle.edges.get? ⟨3, 0⟩).any
          (fun data => middle.rule? data.user data.slot = some .register) = false := by
        apply holds_of_runAll? runFirst
      simp [moves.2.1, isRule] at other
    · refine along_of_forall (fun op member => ?_) _
      rcases mem_churn member with rfl | ⟨_, rfl⟩ <;> simp [Operation.KeepsRule, Operation.Rebinds]
  · rw [account_append (by rw [runAll?_append, run, bind_some, runCycles]), account_append run,
      account_churn vacated]
    simp [earlier, later]

end ValueGraph
