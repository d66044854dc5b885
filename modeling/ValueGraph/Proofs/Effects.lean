import Mathlib
import ValueGraph.Proofs.Views

open Function

namespace ValueGraph

open Program Arena

/-!
# What single changes do

Each change of one part of a program, stated as the program that it leaves.
Changes of what a node is go through `Program.withPayload`; giving up the last
owning handle takes a node out, and then nothing reads it.
-/

variable {old content : Payload} {a : Unit} {v : ValueId} {β : Type} {p q : Program}

namespace Program

/-- The program with another payload in one node. -/
def withPayload (program : Program) (value : ValueId) (payload : Payload) : Program :=
  { program with
    values := program.values.modify value fun node => { node with payload } }

variable {s : Program}

theorem get?_withPayload (s : Program) (v value : ValueId) (content : Payload) :
    (s.withPayload v content).values.get? value =
      if value = v then (s.values.get? value).map fun n => { n with payload := content }
      else s.values.get? value :=
  get?_modify ..

@[simp]
theorem label?_withPayload (s : Program) (v : ValueId) (payload : Payload) :
    (s.withPayload v payload).label? = s.label? := by
  funext other
  rw [label?, get?_withPayload]
  split
  · rw [Option.map_map]
    rfl
  · rfl

@[simp]
theorem type?_withPayload (s : Program) (v : ValueId) (payload : Payload) :
    (s.withPayload v payload).type? = s.type? := by
  rw [type?_eq_label?, type?_eq_label?, label?_withPayload]

@[simp]
theorem count?_withPayload (s : Program) (v value : ValueId) (payload : Payload) :
    (s.withPayload v payload).values.count? value = s.values.count? value :=
  count?_modify ..

theorem payload?_withPayload (h : s.payload? v = some old) (payload : Payload) (value : ValueId) :
    (s.withPayload v payload).payload? value =
    if value = v then some payload else s.payload? value := by
  unfold payload?
  rw [get?_withPayload]
  obtain ⟨n, found, -⟩ := payload?_eq_some_iff.mp h
  by_cases eq : value = v
  · simp [eq, found]
  · simp [eq]

/-- Exchanging a payload exchanges what a view shows of the node. -/
theorem view_withPayload (reading : Payload → Option β) (h : s.payload? v = some old)
    (payload : Payload) : (fun value => ((s.withPayload v payload).payload? value).bind reading) =
      update (fun value => (s.payload? value).bind reading) v (reading payload) := by
  funext value
  rw [payload?_withPayload h, update_apply]
  split <;> rfl

/-- A reading that does not tell two payloads apart does not see them exchanged. -/
theorem bind_withPayload (reading : Payload → Option β) (h : s.payload? v = some old)
    (eq : reading content = reading old) :
    (fun value => ((s.withPayload v content).payload? value).bind reading) =
      fun value => (s.payload? value).bind reading := by
  rw [view_withPayload reading h, update_eq_self_iff, h, Option.bind_some, eq]

section

variable (h : s.payload? v = some old)
include h

theorem function?_withPayload (eq : content.function? = old.function?) :
    (s.withPayload v content).function? = s.function? :=
  bind_withPayload _ h eq

theorem global?_withPayload (eq : content.global? = old.global?) :
    (s.withPayload v content).global? = s.global? :=
  bind_withPayload _ h eq

theorem inst?_withPayload (eq : content.inst? = old.inst?) :
    (s.withPayload v content).inst? = s.inst? :=
  bind_withPayload _ h eq

theorem block?_withPayload (eq : content.block? = old.block?) :
    (s.withPayload v content).block? = s.block? :=
  bind_withPayload _ h eq

theorem argument?_withPayload (eq : content.argument? = old.argument?) :
    (s.withPayload v content).argument? = s.argument? := by
  rw [argument?_eq_bind, argument?_eq_bind]
  exact bind_withPayload _ h eq

theorem register?_withPayload (eq : content.register? = old.register?) :
    (s.withPayload v content).register? = s.register? := by
  rw [register?_eq_bind, register?_eq_bind]
  exact bind_withPayload _ h eq

theorem constantOf?_withPayload (eq : content.constant? = old.constant?) :
    (s.withPayload v content).constantOf? = s.constantOf? := by
  rw [constantOf?_eq_bind, constantOf?_eq_bind]
  exact bind_withPayload _ h eq

end

theorem inst?_withInst {old : Inst} (h : s.inst? v = some old) (new : Inst) :
    (s.withPayload v (.inst new)).inst? = update s.inst? v (some new) :=
  view_withPayload _ (inst?_eq_some_iff.mp h) _

theorem block?_withInst {old : Inst} (h : s.inst? v = some old) (new : Inst) :
    (s.withPayload v (.inst new)).block? = s.block? :=
  block?_withPayload (inst?_eq_some_iff.mp h) rfl

theorem block?_withBlock {old : Block} (h : s.block? v = some old) (new : Block) :
    (s.withPayload v (.block new)).block? = update s.block? v (some new) :=
  view_withPayload _ (block?_eq_some_iff.mp h) _

theorem inst?_withBlock {old : Block} (h : s.block? v = some old) (new : Block) :
    (s.withPayload v (.block new)).inst? = s.inst? :=
  inst?_withPayload (block?_eq_some_iff.mp h) rfl

theorem usedBy_eq_nil_of_checkUnused (checked : s.checkUnused v = .ok a) :
    ∃ n, s.values.get? v = some n ∧ n.usedBy = [] := by
  unfold checkUnused checkUsersWithin usersOutside at checked
  simp only [bind_eq_ok, usedBy_eq_ok] at checked
  obtain ⟨out, ⟨uses, ⟨n, found, rfl⟩, users, read, filtered⟩, passed⟩ := checked
  obtain ⟨-, rfl⟩ := filterM_eq_ok.mp filtered
  have everyone : (users.filter fun u => Except.accepts (if s.isInst u = true then
        (do let inside ← (pure false : Except Fault Bool); pure !inside)
      else pure true)) = users := by
    rw [List.filter_eq_self]
    intro u _
    split <;> rfl
  refine ⟨n, found, ?_⟩
  cases uses : n.usedBy with
  | nil => rfl
  | cons first rest =>
    rw [uses] at read
    simp only [List.mapM_cons, bind_eq_ok, pure_eq_ok] at read
    obtain ⟨u, -, others, -, rfl⟩ := read
    rw [everyone] at passed
    simp [bind_eq_ok, throw, throwThe, MonadExceptOf.throw] at passed

end Program

namespace Step

theorem modifyNode_run {change : Node → Node} :
    (modifyNode v change).run p = .ok (a, q) ↔ (∃ n, p.values.get? v = some n) ∧
        { p with values := p.values.modify v change } = q := by
  unfold modifyNode
  simp only [run_look, run_set, node_eq_ok, exists_and_right]

theorem modifyEdge_run {e : EdgeId} {change : Edge → Edge} :
    (modifyEdge e change).run p = .ok (a, q) ↔ (∃ d, p.edges.get? e = some d) ∧
        { p with edges := p.edges.modify e change } = q := by
  unfold modifyEdge
  simp only [run_look, run_set, edge_eq_ok, exists_and_right]

/-- Replacing a payload through a node that is there always succeeds. -/
theorem setPayload_run (h : p.payload? v = some old) :
    (modifyNode v fun n => { n with payload := content }).run p = .ok (a, q) ↔
      p.withPayload v content = q := by
  obtain ⟨n, found, -⟩ := payload?_eq_some_iff.mp h
  rw [modifyNode_run]
  exact ⟨fun run => run.2, fun eq => ⟨⟨n, found⟩, eq⟩⟩

/-- A payload of one category is changed through a reading of that category. -/
theorem modifyThrough_run {α : Type} {reading : Program → Except Fault α} {view : Option α}
    {wrap : α → Payload} {change : α → α} (reads : ∀ {d}, reading p = .ok d ↔ view = some d)
    (held : ∀ {d}, view = some d ↔ p.payload? v = some (wrap d)) :
    (do
      let d ← reading (← get)
      modifyNode v fun n => { n with payload := wrap (change d) } : Step Unit).run p = .ok (a, q) ↔
      ∃ d, view = some d ∧ p.withPayload v (wrap (change d)) = q := by
  rw [run_look]
  refine exists_congr fun d => ?_
  rw [reads]
  exact and_congr_right fun found => setPayload_run (held.mp found)

theorem modifyBlock_run {change : Block → Block} :
    (modifyBlock v change).run p = .ok (a, q) ↔ ∃ d, p.block? v = some d ∧
        p.withPayload v (.block (change d)) = q :=
  modifyThrough_run block_eq_ok block?_eq_some_iff

theorem modifyInst_run {change : Inst → Inst} :
    (modifyInst v change).run p = .ok (a, q) ↔ ∃ d, p.inst? v = some d ∧
        p.withPayload v (.inst (change d)) = q :=
  modifyThrough_run inst_eq_ok inst?_eq_some_iff

theorem modifyFunction_run {change : Function → Function} :
    (modifyFunction v change).run p = .ok (a, q) ↔ ∃ d, p.function? v = some d ∧
        p.withPayload v (.function (change d)) = q :=
  modifyThrough_run function_eq_ok function?_eq_some_iff

theorem modifyGlobal_run {change : Global → Global} :
    (modifyGlobal v change).run p = .ok (a, q) ↔ ∃ d, p.global? v = some d ∧
        p.withPayload v (.global (change d)) = q :=
  modifyThrough_run global_eq_ok global?_eq_some_iff

theorem addNode_run {ty : TypeId} {fresh : ValueId} :
    (addNode ty content).run p = .ok (fresh, q) ↔
    (p.values.insert (Node.fresh ty content)).1 = fresh ∧
        { p with values := (p.values.insert (Node.fresh ty content)).2 } =
          q := by
  unfold addNode
  simp [pure_eq_ok]

theorem retainHandle_run (run : (retainHandle v).run p = .ok (a, q)) :
    ∃ count values, p.values.retain? v = some (count, values) ∧ q = { p with values } := by
  replace run := run_get_bind.mp run
  split at run
  next count values retained =>
    rw [run_set] at run
    exact ⟨count, values, retained, run.symm⟩
  next => exact absurd run (run_throw_ne_ok _ _ _)

theorem dropHandle_run (run : (dropHandle v).run p = .ok (a, q)) :
    ∃ released values, p.values.release? v = some (released, values) ∧ q = { p with values } ∧
        (p.values.count? v = some 1 → ∃ n, p.values.get? v = some n ∧ n.usedBy = []) := by
  replace run := run_get_bind.mp run
  cases given : p.values.release? v with
  | none =>
    simp only [given] at run
    split at run
    · rw [run_bind] at run
      obtain ⟨_, _, _, run⟩ := run
      exact absurd run (run_throw_ne_ok _ _ _)
    · exact absurd run (run_throw_ne_ok _ _ _)
  | some res =>
    simp only [given] at run
    refine ⟨res.1, res.2, rfl, ?_⟩
    split at run
    next last =>
      rw [run_bind] at run
      obtain ⟨_, _, look, run⟩ := run
      obtain ⟨checked, rfl⟩ := run_lift.mp look
      rw [run_set] at run
      exact ⟨run.symm, fun _ => usedBy_eq_nil_of_checkUnused checked⟩
    next others =>
      rw [run_set] at run
      exact ⟨run.symm, fun last => absurd last others⟩

end Step

/-! ### Owning handles -/

/-- Both arenas keep their slots in order, and every node has an owner. -/
structure Program.Stored (program : Program) : Prop where
  values : program.values.WellFormed
  edges : program.edges.WellFormed
  owned : ∀ value, program.values.count? value ≠ some 0

/-- A node has one more owner and nothing else is different. -/
structure Program.Retained (before after : Program) (value : ValueId) : Prop where
  live : before.isLive value = true
  others : after = { before with values := after.values }
  nodes : after.values.get? = before.values.get?
  counts : after.countOf = update before.countOf value (before.countOf value + 1)
  generations : after.values.generation? = before.values.generation?
  stored : before.Stored → after.Stored

/-- A node has one owner less; if that was the last one, nothing read the node and
it is gone. -/
structure Program.Dropped (before after : Program) (value : ValueId) : Prop where
  others : after = { before with values := after.values }
  counts : after.countOf = update before.countOf value (before.countOf value - 1)
  shrinks : before.values.Shrinks after.values
  stored : after.Stored
  outcome :
    (1 < before.countOf value ∧ after.values.get? = before.values.get?) ∨
      (before.countOf value = 1 ∧ before.isLive value = true ∧ before.usesOf value = [] ∧
        after.values.get? = update before.values.get? value none)

namespace Step

theorem retained_of_retain? {count : Nat} {values : Arena ValueSpace Node}
    (retained : p.values.retain? v = some (count, values)) : p.Retained { p with values } v := by
  obtain ⟨entry, named, -, rfl⟩ := retain?_eq_some retained
  have counted : p.countOf v = entry.count := by simp [countOf, count?, named]
  refine
    { live := ?_
      others := rfl
      nodes := funext fun value => get?_setCount named _ value
      counts := ?_
      generations := funext fun k => generation?_setEntry _ _ _ k
      stored := fun kept => ⟨kept.values.setEntry _ _, kept.edges, ?_⟩ }
  · simp [isLive, contains, named]
  · funext value
    rw [counted]
    by_cases eq : value = v
    · simp [countOf, count?_setCount named, eq]
    · simp [countOf, count?_setCount named, eq]
  · intro value
    simp only [count?_setCount named]
    split
    · simp
    · exact kept.owned value

theorem retainHandle_spec (run : (retainHandle v).run p = .ok (a, q)) : p.Retained q v := by
  obtain ⟨count, values, retained, rfl⟩ := retainHandle_run run
  exact retained_of_retain? retained

theorem dropHandle_spec (stored : p.Stored) (run : (dropHandle v).run p = .ok (a, q)) :
    p.Dropped q v := by
  obtain ⟨released, values, given, rfl, unread⟩ := dropHandle_run run
  obtain ⟨entry, named, outcome⟩ := release?_eq_some given
  have h : p.values.count? v = some entry.count := by
    simp [count?, named]
  have counted := countOf_eq h
  have positive : entry.count ≠ 0 := fun none => stored.owned v (none ▸ h)
  rcases outcome with ⟨more, rfl⟩ | ⟨last, taken⟩
  · refine
      { others := rfl
        counts := ?_
        shrinks := .of_same (contains_setEntry named _) (generation?_setEntry _ _ _)
        stored := ⟨stored.values.setEntry _ _, stored.edges, ?_⟩
        outcome := Or.inl ⟨counted ▸ more, funext (get?_setCount named _)⟩ }
    · funext value
      rw [counted]
      by_cases eq : value = v
      · simp [countOf, count?_setCount named, eq]
      · simp [countOf, count?_setCount named, eq]
    · intro value
      simp only [count?_setCount named]
      split
      · simpa using (by omega : entry.count - 1 ≠ 0)
      · exact stored.owned value
  · have one : entry.count = 1 := by omega
    obtain ⟨n, found, unused⟩ := unread (one ▸ h)
    refine
      { others := rfl
        counts := ?_
        shrinks := shrinks_take? taken
        stored := ⟨stored.values.take? taken, stored.edges, ?_⟩
        outcome := Or.inr ⟨counted.trans one, contains_iff_get?.mpr ⟨n, found⟩,
          (usesOf_eq found).trans unused, ?_⟩ }
    · funext value
      rw [counted, one]
      by_cases eq : value = v
      · simp [countOf, count?_take? taken, eq]
      · simp [countOf, count?_take? taken, eq]
    · intro value
      simp only [count?_take? taken]
      split
      · simp
      · exact stored.owned value
    · funext value
      rw [get?_take? taken, update_apply]

end Step

end ValueGraph
