import Mathlib
import ValueGraph.Proofs.Collecting
import ValueGraph.Proofs.Factories

namespace ValueGraph

open Program Option

/-!
# Edits of edges

Edges are made to read other values of equal types, phis gain and lose entries, and
switches gain and lose cases.  Balances stay as they are, since an edge takes the
handle on a constant along.
-/

variable {a : Unit} {kind : InstKind} {edges hits : List EdgeId} {e : EdgeId}
  {v repl old new u pattern : ValueId} {count pos : Nat} {tgt src : BlockId} {flag : Bool}
  {p q : Program} {pr : Promise} {d : Edge} {i phi sw : InstId}

/-! ### Edges that move -/

namespace Program

/-- One value can take the place of another: a block that of a block, and the types are
equal. -/
structure Replaces (program : Program) (old new : ValueId) : Prop where
  leads : program.isBlock old = true → program.isBlock new = true
  agree : ∀ oldType newType, program.type? old = some oldType → program.type? new = some newType →
    program.types.equal oldType newType = .ok true

theorem checkReplacement_eq_ok (checked : p.checkReplacement old new = .ok a) :
    p.Replaces old new := by
  simp only [checkReplacement, bind_eq_ok, liftHalt_eq_ok, require_eq_ok, typeOf_eq_ok] at checked
  obtain ⟨_, -, newType, ⟨newNode, hNew, rfl⟩, _, blocks, oldType, ⟨oldNode, hOld, rfl⟩, _,
    agree, rfl⟩ := checked
  refine ⟨fun wasBlock => by
    simpa [wasBlock] using blocks, fun oldType newType readOld readNew => ?_⟩
  rw [type?, hOld, map_some, some.injEq] at readOld
  rw [type?, hNew, map_some, some.injEq] at readNew
  rw [← readOld, ← readNew]
  exact agree

/-- What can take the place of a value still can after a change below the skeleton. -/
theorem Replaces.of_rewires (replaces : p.Replaces old new) (rew : p.Rewires q) :
    q.Replaces old new where
  leads := by
    rw [rew.skeleton.isBlock]
    exact replaces.leads
  agree oldType newType heldOld heldNew := by
    rw [types_eq_of_surroundings rew.surroundings]
    exact replaces.agree _ _ (rew.type?_before heldOld) (rew.type?_before heldNew)

theorem Rewires.rule? (rew : p.Rewires q) : q.rule? = p.rule? := by
  funext user slot
  rw [Program.rule?, Program.rule?, rew.skeleton.isGlobal, rew.skeleton.shell?]

theorem Honours.of_rewires (honours : p.Honours pr d new) (rew : p.Rewires q)
    (live : q.isLive new = true) : q.Honours pr d new where
  nested := by
    rw [rew.skeleton.shell?, rew.skeleton.link?]
    exact honours.nested
  rules rule keeps asks meets := by
    rw [rew.rule?] at asks
    rw [rew.meets_iff meets.isLive] at meets
    rw [rew.meets_iff live]
    exact honours.rules rule keeps asks meets

/-- An edge may be made to read another value. -/
structure MayMove (promise : Promise) (program : Program) (edge : EdgeId) (old new : ValueId) :
    Prop where
  reads : ∃ data, program.edges.get? edge = some data ∧ data.value = old
  honours : ∀ data, program.edges.get? edge = some data → program.Honours promise data new

theorem mayMove_of_plain (h : p.edges.get? e = some d) (isShell : p.shell? d.user = some kind)
    (plain : ∀ slot, kind.rule? slot = none) : p.MayMove pr e d.value new where
  reads := ⟨d, h, rfl⟩
  honours data again := by
    obtain rfl := mem_unique h again
    constructor
    · intro _ isWrite
      obtain rfl := mem_unique isShell isWrite
      exact absurd (plain (.fixed 0)) (by simp [InstKind.rule?])
    · intro rule _ asks
      simp [rule?_of_shell? isShell, plain] at asks

end Program

namespace Step

/-- Edges are made to read another value, one after another. -/
theorem rebindAll_redrawn (hs : p.Sound) (replaces : p.Replaces old new) (nd : edges.Nodup)
    (may : ∀ e ∈ edges, p.MayMove pr e old new)
    (run : (edges.forM (rebind · new)).run p = .ok (a, q)) : Redrawn pr p q := by
  induction edges generalizing p with
  | nil =>
    obtain rfl := run_forM_nil.mp run
    exact .refl
  | cons e rest ih =>
    obtain ⟨m, run1, run'⟩ := run_forM_cons.mp run
    obtain ⟨away, nd'⟩ := List.nodup_cons.mp nd
    obtain ⟨d, moved⟩ := rebind_spec hs.stored hs.wired.placid hs.wired.uses run1
    have mayFirst := may e (by simp)
    obtain ⟨data, h, reads⟩ := mayFirst.reads
    obtain rfl := mem_unique moved.held h
    have redraws : p.Redraws pr m :=
      .rebind e d new moved (reads ▸ replaces.leads) (reads ▸ replaces.agree) (mayFirst.honours d h)
    have hsm := redraws.sound hs
    refine .head redraws (ih hsm (replaces.of_rewires moved.rewires) nd' (fun edge mem => ?_) run')
    -- the edges that are left are what they were
    have ne : edge ≠ e := fun eq => away (eq ▸ mem)
    have eq : m.edges.get? edge = p.edges.get? edge := by
      rw [moved.edges, Function.update_of_ne ne]
    have mayOther := may edge (by simp [mem])
    refine ⟨by rw [eq]; exact mayOther.reads, fun otherData hOther => ?_⟩
    rw [eq] at hOther
    have isRead : m.wire? e = some { d with value := new }.outline := by
      rw [moved.wires, Function.update_self]
    exact (mayOther.honours otherData hOther).of_rewires moved.rewires (hsm.wired.value_live isRead)

theorem rebind_redrawn (hs : p.Sound) (replaces : p.Replaces old new)
    (may : p.MayMove pr e old new) (run : (rebind e new).run p = .ok (a, q)) : Redrawn pr p q := by
  have runAll : ([e].forM (rebind · new)).run p = .ok (a, q) :=
    run_forM_cons.mpr ⟨q, run, run_forM_nil.mpr rfl⟩
  exact rebindAll_redrawn hs replaces (List.nodup_singleton e) (by simpa using may) runAll

end Step

/-! ### Checks in turn -/

/-- A block that can take the place of a value passes the check. -/
theorem Program.Replaces.checkReplacement_eq_ok (replaces : p.Replaces old new)
    (liveOld : p.isLive old = true) (isNew : p.isBlock new = true) :
    p.checkReplacement old new = .ok () := by
  obtain ⟨oldNode, heldOld⟩ := Arena.contains_iff_get?.mp liveOld
  obtain ⟨newNode, heldNew⟩ := Arena.contains_iff_get?.mp (isLive_of_category isNew)
  have resolved : p.resolve new .replacementValue = .ok () := by
    rw [resolve]
    split <;> simp_all [isBlock, Payload.category, pure, Except.pure]
  have agree := replaces.agree oldNode.type newNode.type (by rw [type?, heldOld, map_some])
    (by rw [type?, heldNew, map_some])
  simp only [checkReplacement, bind_eq_ok, liftHalt_eq_ok, require_eq_ok, typeOf_eq_ok]
  exact ⟨(), resolved, _, ⟨newNode, heldNew, rfl⟩, (), by simp [isNew], _, ⟨oldNode, heldOld, rfl⟩,
    true, agree, rfl⟩

section InTurn

variable (hs : p.Sound) (nd : edges.Nodup)
  (reads : ∀ edge ∈ edges, ∃ data, p.edges.get? edge = some data ∧ data.value = old)
  (isNew : p.isBlock new = true)
include hs nd reads isNew

/-- Edges that read one value are set to another in turn.  Where the first check is passed the
others are, so that nothing is refused once an edge has moved. -/
theorem forEach_setUse_eq (replaces : p.Replaces old new) :
    Edit.forEach (setUse · (some new)) edges p =
      Edit.perform (if new = old then pure () else edges.forM (Step.rebind · new)) p := by
  induction edges generalizing p with
  | nil => split <;> rfl
  | cons e rest inductionHypothesis =>
    obtain ⟨d, held, rfl⟩ := reads e (by simp)
    obtain ⟨away, nd⟩ := List.nodup_cons.mp nd
    have checked := replaces.checkReplacement_eq_ok
      (hs.wired.value_live (wire?_of_get? held) :) isNew
    have first : setUse e (some new) p =
        Edit.perform (if new = d.value then pure () else Step.rebind e new) p := by
      simp only [setUse, Edit.plan, held, checked]
      rfl
    have readsRest : ∀ edge ∈ rest, ∃ data, p.edges.get? edge = some data ∧ data.value = d.value :=
      fun edge member => reads edge (by simp [member])
    rw [Edit.forEach, Edit.andThen, first]
    by_cases same : new = d.value
    · simp only [if_pos same] at inductionHypothesis ⊢
      exact inductionHypothesis hs nd readsRest isNew replaces
    · simp only [if_neg same, List.forM, Edit.perform_bind] at inductionHypothesis ⊢
      rw [Edit.andThen]
      cases moving : Edit.perform (Step.rebind e new) p with
      | done answer middle =>
        obtain ⟨_, moved⟩ := Step.rebind_spec hs.stored hs.wired.placid hs.wired.uses
          (Edit.perform_eq_done.mp moving)
        obtain rfl := mem_unique held moved.held
        refine inductionHypothesis (moved.sound hs) nd (fun edge member => ?_) ?_
          (replaces.of_rewires moved.rewires)
        · have other : edge ≠ e := fun eq => away (eq ▸ member)
          rw [moved.edges, Function.update_of_ne other]
          exact readsRest edge member
        · rwa [moved.rewires.skeleton.isBlock]
      | refused cause after => rfl
      | faulted fault => rfl

/-- Setting edges in turn moves them, if it is not refused. -/
theorem forEach_setUse_redrawn (may : ∀ e ∈ edges, p.MayMove pr e old new)
    (run : Edit.forEach (setUse · (some new)) edges p = .done a q) : Redrawn pr p q := by
  cases edges with
  | nil =>
    obtain ⟨-, rfl⟩ := Step.run_pure.mp (Edit.perform_eq_done.mp run)
    exact .refl
  | cons e rest =>
    have replaces : p.Replaces old new := by
      obtain ⟨d, held, rfl⟩ := reads e (by simp)
      obtain ⟨_, _, runFirst, -⟩ := Edit.andThen_eq_done.mp run
      simp only [setUse, Edit.plan_eq_done, held, bind_eq_ok] at runFirst
      obtain ⟨_, ⟨_, checked, -⟩, -⟩ := runFirst
      exact Program.checkReplacement_eq_ok checked
    rw [forEach_setUse_eq hs nd reads isNew replaces, Edit.perform_eq_done] at run
    split at run
    next =>
      obtain ⟨-, rfl⟩ := Step.run_pure.mp run
      exact .refl
    next => exact Step.rebindAll_redrawn hs replaces nd may run

/-- Setting edges in turn can be refused for the first of them only, when nothing has moved. -/
theorem forEach_setUse_reverts {cause : Refusal}
    (run : Edit.forEach (setUse · (some new)) edges p = .refused cause q) : q = p := by
  cases edges with
  | nil => exact absurd run (Edit.perform_ne_refused _ _ _ _)
  | cons e rest =>
    obtain ⟨d, held, rfl⟩ := reads e (by simp)
    rcases Edit.andThen_eq_refused.mp run with refused | ⟨_, middle, runFirst, -⟩
    · exact Edit.after_eq_of_plan_refused refused
    · simp only [setUse, Edit.plan_eq_done, held, bind_eq_ok] at runFirst
      obtain ⟨_, ⟨_, checked, -⟩, -⟩ := runFirst
      have replaces := Program.checkReplacement_eq_ok checked
      rw [forEach_setUse_eq hs nd reads isNew replaces] at run
      exact absurd run (Edit.perform_ne_refused _ _ _ _)

end InTurn

namespace Program

theorem Leads.of_redrawn (redrawn : Redrawn pr p q) : p.Leads pr q 0 :=
  ⟨.of_shrunk (Redrawn.shrunk redrawn), fun _ => Redrawn.tally redrawn⟩

theorem Leads.of_prunes (prunes : p.Prunes pr q) : p.Leads pr q 0 :=
  .of_redrawn prunes.redrawn

/-- The value that an edge reads. -/
def readBy? (program : Program) (edge : EdgeId) : Option ValueId :=
  (program.edges.get? edge).map (·.value)

theorem readBy?_eq_some_iff :
    p.readBy? e = some v ↔ ∃ d, p.edges.get? e = some d ∧ d.value = v := by
  simp [readBy?]

theorem filterM_edgeValue_eq_ok :
    (edges.filterM fun e => do
      return (← p.edgeValue e) == v : Except Fault (List EdgeId)) = .ok hits ↔
      (∀ e ∈ edges, ∃ d, p.edges.get? e = some d) ∧ hits = edges.filter (p.readBy? · = some v) := by
  have read : ∀ e d, p.edges.get? e = some d →
      (do return (← p.edgeValue e) == v : Except Fault Bool) = .ok (p.readBy? e = some v) := by
    intro e d h
    rw [readBy?, h]
    exact bind_eq_ok.mpr ⟨_, edgeValue_eq_ok.mpr ⟨d, h, rfl⟩, by simp [pure_eq_ok, beq_eq_decide]⟩
  have there : ∀ e, (∃ a, (do
      return (← p.edgeValue e) == v : Except Fault Bool) = .ok a) ↔
        ∃ d, p.edges.get? e = some d := by
    intro e
    constructor
    · rintro ⟨_, reads⟩
      obtain ⟨_, readValue, -⟩ := bind_eq_ok.mp reads
      obtain ⟨d, h, -⟩ := edgeValue_eq_ok.mp readValue
      exact ⟨d, h⟩
    · rintro ⟨d, h⟩
      exact ⟨_, read e d h⟩
  rw [filterM_eq_ok]
  simp only [there]
  refine and_congr_right fun all => ?_
  rw [List.filter_congr fun e mem => ?_]
  obtain ⟨d, h⟩ := all e mem
  rw [read e d h, Except.accepts]

end Program

/-! ### Single edges and whole nodes -/

section Edges

/-- The operands of a user that read one value are made to read another, if there are any. -/
theorem replaceOperands_run (run : replaceOperands u pattern repl p = .done count q) :
    p.isLive u = true ∧
    (((pattern = repl ∨ (p.operandsOf u).filter (p.readBy? · = some pattern) = []) ∧
      count = 0 ∧ q = p) ∨
    (pattern ≠ repl ∧ count = ((p.operandsOf u).filter (p.readBy? · = some pattern)).length ∧
      p.Replaces pattern repl ∧
      (((p.operandsOf u).filter (p.readBy? · = some pattern)).forM
        (Step.rebind · repl)).run p = .ok ((), q))) := by
  simp only [replaceOperands, Edit.plan_eq_done, bind_eq_ok, liftHalt_eq_ok, operands_eq_ok] at run
  obtain ⟨step, ⟨_, -, _, ⟨n, hNode, rfl⟩, _, readHits, plan⟩, runStep⟩ := run
  obtain ⟨-, rfl⟩ := filterM_edgeValue_eq_ok.mp readHits
  rw [← operandsOf_eq hNode] at plan
  refine ⟨Arena.contains_iff_get?.mpr ⟨n, hNode⟩, ?_⟩
  split at plan
  next none =>
    obtain rfl := pure_eq_ok.mp plan
    obtain ⟨rfl, rfl⟩ := Step.run_pure.mp runStep
    exact .inl ⟨by simpa [or_comm] using none, rfl, rfl⟩
  next hit =>
    simp only [bind_eq_ok, pure_eq_ok] at plan
    obtain ⟨_, checked, rfl⟩ := plan
    obtain ⟨_, _, runReb, runPure⟩ := Step.run_bind.mp runStep
    obtain ⟨rfl, rfl⟩ := Step.run_pure.mp runPure
    exact .inr ⟨fun eq => by simp [eq] at hit, rfl, checkReplacement_eq_ok checked, runReb⟩

theorem replaceUses_run (run : replaceUses v repl p = .done count q) :
    (v = repl ∧ q = p) ∨
    (v ≠ repl ∧ (p.isLive v = true ∧ count = (p.usesOf v).length) ∧ p.Replaces v repl ∧
      ((p.usesOf v).forM (Step.rebind · repl)).run p = .ok ((), q)) := by
  simp only [replaceUses, Edit.plan_eq_done, bind_eq_ok] at run
  obtain ⟨step, ⟨_, -, plan⟩, runStep⟩ := run
  split at plan
  next eq =>
    obtain rfl := pure_eq_ok.mp plan
    exact .inl ⟨eq, (Step.run_pure.mp runStep).2.symm⟩
  next ne =>
    simp only [bind_eq_ok, liftHalt_eq_ok, usedBy_eq_ok, pure_eq_ok] at plan
    obtain ⟨_, checked, _, ⟨n, hNode, rfl⟩, rfl⟩ := plan
    obtain ⟨_, _, runReb, runPure⟩ := Step.run_bind.mp runStep
    obtain ⟨rfl, rfl⟩ := Step.run_pure.mp runPure
    rw [← usesOf_eq hNode] at runReb ⊢
    exact .inr ⟨ne, ⟨Arena.contains_iff_get?.mpr ⟨n, hNode⟩, rfl⟩,
      checkReplacement_eq_ok checked, runReb⟩

variable (hs : p.Sound)
include hs

theorem setUse_leads {v : Option ValueId}
    (may : ∀ d new, p.edges.get? e = some d → v = some new → new ≠ d.value → p.Honours pr d new)
    (run : setUse e v p = .done a q) : p.Leads pr q 0 := by
  simp only [setUse, Edit.plan_eq_done] at run
  obtain ⟨step, plan, runStep⟩ := run
  cases h : p.edges.get? e with
  | none =>
    rw [h] at plan
    exact absurd plan (refuse_ne_ok _ _)
  | some d =>
    rw [h] at plan
    cases v with
    | none =>
      simp only at plan
      split at plan
      next src keyed =>
        simp only [bind_eq_ok, liftHalt_eq_ok, pure_eq_ok] at plan
        obtain ⟨k, readIndex, rfl⟩ := plan
        exact .of_prunes (Step.removeEntry_prunes hs (operandIndex_eq_ok readIndex) h keyed runStep)
      next => exact absurd plan (refuse_ne_ok _ _)
    | some new =>
      simp only [bind_eq_ok, pure_eq_ok] at plan
      obtain ⟨_, checked, rfl⟩ := plan
      split at runStep
      next =>
        obtain ⟨-, rfl⟩ := Step.run_pure.mp runStep
        exact .refl _
      next ne =>
        refine .of_redrawn (Step.rebind_redrawn hs
          (checkReplacement_eq_ok checked) ⟨⟨d, h, rfl⟩, ?_⟩ runStep)
        intro data again
        obtain rfl := mem_unique h again
        exact may d new h rfl ne

theorem replaceOperands_leads
    (may : ∀ e d, e ∈ p.operandsOf u → p.edges.get? e = some d →
      d.value = pattern → pattern ≠ repl → p.Honours pr d repl)
    (run : replaceOperands u pattern repl p = .done count q) : p.Leads pr q 0 := by
  obtain ⟨-, ⟨-, -, rfl⟩ | ⟨ne, -, replaces, runReb⟩⟩ := replaceOperands_run run
  · exact .refl _
  refine .of_redrawn (Step.rebindAll_redrawn hs replaces ((hs.wired.nodup u).filter _)
    (fun e mem => ?_) runReb)
  obtain ⟨inOperands, reads⟩ := List.mem_filter.mp mem
  obtain ⟨d, h, isPattern⟩ := readBy?_eq_some_iff.mp (of_decide_eq_true reads)
  refine ⟨⟨d, h, isPattern⟩, fun data again => ?_⟩
  obtain rfl := mem_unique h again
  exact may e d inOperands h isPattern ne

theorem replaceUses_leads
    (may : ∀ e d, p.edges.get? e = some d → d.value = v → v ≠ repl → p.Honours pr d repl)
    (run : replaceUses v repl p = .done count q) : p.Leads pr q 0 := by
  rcases replaceUses_run run with ⟨-, rfl⟩ | ⟨ne, -, replaces, runReb⟩
  · exact .refl _
  refine .of_redrawn (Step.rebindAll_redrawn hs replaces (hs.wired.uses.nodup v)
    (fun e mem => ?_) runReb)
  obtain ⟨outline, hWire, reads⟩ := (hs.wired.uses.mem_iff v e).mp mem
  obtain ⟨d, h, rfl⟩ := map_eq_some_iff.mp hWire
  refine ⟨⟨d, h, reads⟩, fun data again => ?_⟩
  obtain rfl := mem_unique h again
  exact may e d h reads ne

end Edges

/-! ### Targets -/

namespace Program

theorem kind?_of_kind (read : p.kind i = .ok kind) : p.kind? i = some kind := by
  obtain ⟨d, h, isKind⟩ := kind_eq_ok.mp read
  rw [kind?, h, map_some, isKind]

theorem shell?_of_kind? (h : p.kind? i = some kind) : p.shell? i = some kind.shell := by
  simp [shell?_eq_kind?, h]

theorem requireTerminator_eq_ok (checked : p.requireTerminator i = .ok a) :
    ∃ kind, p.shell? i = some kind ∧ ∀ slot, kind.rule? slot = none := by
  simp only [requireTerminator, bind_eq_ok, liftHalt_eq_ok, require_eq_ok] at checked
  obtain ⟨-, -, kind, read, isTerminator⟩ := checked
  rw [← InstKind.isTerminator_shell] at isTerminator
  exact ⟨kind.shell, shell?_of_kind? (kind?_of_kind read),
    InstKind.rule?_of_isTerminator isTerminator⟩

theorem targetEdgesTo_eq_ok_iff : p.targetEdgesTo i tgt = .ok hits ↔
    ∃ edges, p.targetEdges i = .ok edges ∧ (∀ e ∈ edges, ∃ d, p.edges.get? e = some d) ∧
        hits = edges.filter (p.readBy? · = some tgt) := by
  simp only [targetEdgesTo, bind_eq_ok, filterM_edgeValue_eq_ok]

theorem targetEdges_sublist (read : p.targetEdges i = .ok edges) :
    edges.Sublist (p.operandsOf i) := by
  simp only [targetEdges, bind_eq_ok, operands_eq_ok, filterM_eq_ok] at read
  obtain ⟨kind, -, _, ⟨n, hNode, rfl⟩, -, rfl⟩ := read
  rw [operandsOf_eq hNode]
  exact List.filter_sublist

theorem targetEdgesTo_eq_ok (read : p.targetEdgesTo i tgt = .ok hits) :
    hits.Sublist (p.operandsOf i) ∧ ∀ e ∈ hits, ∃ d, p.edges.get? e = some d ∧ d.value = tgt := by
  obtain ⟨edges, readEdges, -, rfl⟩ := targetEdgesTo_eq_ok_iff.mp read
  refine ⟨List.filter_sublist.trans (targetEdges_sublist readEdges), fun e mem => ?_⟩
  exact readBy?_eq_some_iff.mp (of_decide_eq_true (List.mem_filter.mp mem).2)

theorem mayMove_of_target {old new : BlockId} (hs : p.Sound)
    (plain : ∃ kind, p.shell? i = some kind ∧ ∀ slot, kind.rule? slot = none)
    (read : p.targetEdgesTo i old = .ok hits) : ∀ e ∈ hits, p.MayMove pr e old new := by
  intro e mem
  obtain ⟨listed, reads⟩ := targetEdgesTo_eq_ok read
  obtain ⟨d, h, rfl⟩ := reads e mem
  obtain ⟨kind, isShell, plain⟩ := plain
  refine mayMove_of_plain h ?_ plain
  rw [hs.wired.user_eq (listed.subset mem) h, isShell]

end Program

section Targets

variable {old new : BlockId}
variable (hs : p.Sound)
include hs

section Hits

variable {chosen : List EdgeId} {m : Program} {cause : Refusal}
  (found : hitsOf i old new p = .done hits m) (part : chosen.Sublist hits)
include found part

/-- The edges that are moved are different target edges of a terminator that read what they
are moved from, and what they are moved to is a block. -/
theorem hitsOf_eq_done : p = m ∧ chosen.Nodup ∧ p.isBlock new = true ∧
    ∀ pr, ∀ e ∈ chosen, p.MayMove pr e old new := by
  simp only [hitsOf, Edit.look_eq_done, bind_eq_ok, liftHalt_eq_ok] at found
  obtain ⟨⟨_, isTerminator, _, isNew, readHits⟩, rfl⟩ := found
  refine ⟨rfl, ?_, require_eq_ok.mp isNew, fun pr e mem => ?_⟩
  · exact (part.trans (targetEdgesTo_eq_ok readHits).1).nodup (hs.wired.nodup i)
  · exact mayMove_of_target hs (requireTerminator_eq_ok isTerminator) readHits e (part.subset mem)

theorem moveHits_leads (run : Edit.forEach (setUse · (some new)) chosen m = .done a q) :
    p.Leads pr q 0 := by
  obtain ⟨rfl, nd, isNew, may⟩ := hitsOf_eq_done hs found part
  have reads := fun e mem => (may pr e mem).reads
  exact .of_redrawn (forEach_setUse_redrawn hs nd reads isNew (may pr) run)

theorem moveHits_reverts (run : Edit.forEach (setUse · (some new)) chosen m = .refused cause q) :
    q = p := by
  obtain ⟨rfl, nd, isNew, may⟩ := hitsOf_eq_done hs found part
  have reads := fun e mem => (may default e mem).reads
  exact forEach_setUse_reverts hs nd reads isNew run

end Hits

theorem replaceTarget_leads (run : replaceTarget i old new p = .done count q) : p.Leads pr q 0 := by
  simp only [replaceTarget, Edit.andThen_eq_done, Edit.map_eq_done] at run
  obtain ⟨hits, _, found, _, runAll, -⟩ := run
  exact moveHits_leads hs found (.refl hits) runAll

theorem replaceTargetOnce_leads (run : replaceTargetOnce i old new p = .done flag q) :
    p.Leads pr q 0 := by
  simp only [replaceTargetOnce, Edit.andThen_eq_done, Edit.map_eq_done] at run
  obtain ⟨hits, _, found, _, runFirst, -⟩ := run
  exact moveHits_leads hs found (List.take_sublist _ _) runFirst

/-- The checks behind the first are passed, so a refusal comes before any edge has moved. -/
theorem replaceTarget_reverts {cause : Refusal}
    (run : replaceTarget i old new p = .refused cause q) :
    q = p := by
  simp only [replaceTarget, Edit.andThen_eq_refused, Edit.map_eq_refused] at run
  rcases run with refused | ⟨hits, _, found, refused⟩
  · exact (Edit.look_eq_refused.mp refused).2.symm
  · exact moveHits_reverts hs found (.refl hits) refused

theorem replaceTargetOnce_reverts {cause : Refusal}
    (run : replaceTargetOnce i old new p = .refused cause q) : q = p := by
  simp only [replaceTargetOnce, Edit.andThen_eq_refused, Edit.map_eq_refused] at run
  rcases run with refused | ⟨hits, _, found, refused⟩
  · exact (Edit.look_eq_refused.mp refused).2.symm
  · exact moveHits_reverts hs found (List.take_sublist _ _) refused

end Targets

/-! ### Entries of phis -/

namespace Program

theorem requirePhi_eq_ok (checked : p.requirePhi phi = .ok a) : p.kind? phi = some .phi := by
  simp only [requirePhi, bind_eq_ok, liftHalt_eq_ok, require_eq_ok] at checked
  obtain ⟨-, -, kind, read, isPhi⟩ := checked
  rw [kind?_of_kind read, beq_iff_eq.mp isPhi]

theorem entryAmong?_eq_none (read : p.entryAmong? src edges = .ok none) :
    ∀ e ∈ edges, ∀ d, p.edges.get? e = some d → d.slot ≠ .keyed src := by
  induction edges with
  | nil => simp
  | cons first rest ih =>
    simp only [entryAmong?, bind_eq_ok, edgeSlot_eq_ok] at read
    obtain ⟨_, ⟨data, again, rfl⟩, read⟩ := read
    split at read
    next => simp [pure_eq_ok] at read
    next notEntry =>
      intro e mem d h
      rcases List.mem_cons.mp mem with rfl | inRest
      · obtain rfl := mem_unique again h
        exact notEntry
      · exact ih read e inRest d h

end Program

theorem Step.addEntry_redraws {ty own : TypeId} (hs : p.Sound) (isPhi : p.kind? phi = some .phi)
    (hType : p.type? v = some ty) (hOwn : p.type? phi = some own)
    (agrees : p.types.equal ty own = .ok true) (hb : p.isBlock src = true)
    (fresh : ∀ e ∈ p.operandsOf phi, ∀ d, p.edges.get? e = some d → d.slot ≠ .keyed src)
    (spares : pr.sparesFinalized → ∀ l, p.link? phi = some l → l.status ≠ .finalized)
    (run : (addOperand phi (.keyed src) v).run p = .ok (a, q)) : p.Redraws pr q := by
  obtain ⟨e, added, kinds⟩ := addOperand_spec hs.stored run
  have isShell : p.shell? phi = some .phi := shell?_of_kind? isPhi
  have apart : p.flowSource? phi (.keyed src) = none := by
    rw [flowSource?, isShell]
    rfl
  have joins : p.Joins q e { user := phi, value := v, slot := .keyed src } :=
    { added := by rw [apart]; exact added
      reads := Or.inl (by
        obtain ⟨d, h, -⟩ := map_eq_some_iff.mp isPhi
        exact isInst_of_inst? h)
      admits := fun kind hKind => by
        obtain rfl := mem_unique isShell hKind
        trivial
      leads := fun leads => absurd apart leads
      keyed := by simpa using hb }
  refine .connect e _ joins (fun conf => ?_) (by simp [isShell])
    (by simp [rule?_of_shell? isShell, InstKind.rule?]) spares
  exact conf.of_entryAdded hs.wired (joins.sound hs).wired added kinds isPhi fresh hType hOwn agrees

section Entries

variable (hs : p.Sound)
include hs

theorem addIncoming_leads
    (spares : pr.sparesFinalized → ∀ l, p.link? phi = some l → l.status ≠ .finalized)
    (run : addIncoming phi src v p = .done a q) : p.Leads pr q 0 := by
  simp only [addIncoming, Edit.plan_eq_done, bind_eq_ok, liftHalt_eq_ok,
    requireBlock, require_eq_ok, typeOf_eq_ok, entryFor?,
    operands_eq_ok] at run
  obtain ⟨step, ⟨_, checkedPhi, _, hb, ty, read, _, ⟨own, hOwn, rfl⟩, _, agrees, _, rfl, entry,
    ⟨_, ⟨n, hNode, rfl⟩, readEntry⟩, plan⟩, runStep⟩ := run
  have isPhi := requirePhi_eq_ok checkedPhi
  rw [← operandsOf_eq hNode] at readEntry
  cases entry with
  | none =>
    rw [pure_eq_ok] at plan
    subst plan
    have redraws : p.Redraws pr q :=
      Step.addEntry_redraws hs isPhi (operandType_eq_ok read)
        (by rw [type?, hOwn, map_some]) agrees hb
        (entryAmong?_eq_none readEntry) spares runStep
    exact .of_redrawn (.single redraws)
  | some e =>
    simp only [bind_eq_ok, liftHalt_eq_ok, edgeValue_eq_ok, pure_eq_ok] at plan
    obtain ⟨_, ⟨d, h, rfl⟩, _, checked, rfl⟩ := plan
    split at runStep
    next =>
      obtain ⟨-, rfl⟩ := Step.run_pure.mp runStep
      exact .refl _
    next =>
      obtain ⟨mem, -⟩ := entryAmong?_eq_some readEntry
      have isShell : p.shell? d.user = some .phi := by
        rw [hs.wired.user_eq mem h, shell?_of_kind? isPhi]
        rfl
      exact .of_redrawn (Step.rebind_redrawn hs (checkReplacement_eq_ok checked)
        (mayMove_of_plain h isShell fun _ => rfl) runStep)

theorem removeIncoming_leads (run : removeIncoming phi src p = .done flag q) : p.Leads pr q 0 := by
  simp only [removeIncoming, Edit.plan_eq_done, bind_eq_ok, pure_eq_ok] at run
  obtain ⟨_, ⟨_, -, rfl⟩, runStep⟩ := run
  exact .of_prunes (Step.dropEntry_prunes hs runStep)

end Entries

/-! ### Cases of switches -/

theorem InstKind.Admits.case_append {slots : List Slot}
    (admits : (InstKind.switch []).Admits slots) :
    (InstKind.switch []).Admits (slots ++ [(Slot.indexed pos).outline]) := by
  obtain ⟨unkeyed, targets⟩ := admits
  constructor
  · intro b mem
    rcases List.mem_append.mp mem with inSlots | isLast
    · exact unkeyed b inSlots
    · simp [Slot.outline] at isLast
  · intro slot mem
    cases slots with
    | nil => simp at mem
    | cons first rest =>
      rcases List.mem_append.mp mem with inRest | isLast
      · exact targets slot inRest
      · rw [List.mem_singleton.mp isLast]
        rfl

theorem Program.Sound.flowSource?_of_case {s : Program} {k : Nat} (hs : s.Sound)
    (hsw : s.shell? sw = some (.switch [])) (mem : (s.operandsOf sw)[k]? = some e)
    (h : s.wire? e = some d) (behind : 1 ≤ k) : s.flowSource? sw d.slot = s.home? sw := by
  have isSlot : (s.slotsOf sw)[k]? = some d.slot := by
    rw [slotsOf, List.getElem?_map, mem, map_some, slotOf, h]
    rfl
  have inTail : d.slot ∈ (s.slotsOf sw).tail := by
    obtain ⟨p, rfl⟩ : ∃ p, k = p + 1 := ⟨k - 1, by omega⟩
    rw [← List.getElem?_tail] at isSlot
    exact List.mem_of_getElem? isSlot
  obtain ⟨-, targets⟩ := hs.laid sw _ hsw
  rw [flowSource?, hsw, bind_some, if_pos (targets _ inTail)]

namespace Step

theorem addCaseTo_redraws {values : List Int64} {v : Int64} (hs : p.Sound)
    (hsw : p.kind? sw = some (.switch values)) (hb : p.isBlock tgt = true) (fresh : v ∉ values)
    (spares : pr.sparesFinalized → ∀ l, p.link? sw = some l → l.status ≠ .finalized)
    (run : (addCaseTo sw values v tgt).run p = .ok (a, q)) : p.Redraws pr q := by
  have isShell : p.shell? sw = some (.switch []) := shell?_of_kind? hsw
  obtain ⟨e, added, isSwitchAfter⟩ := addCaseTo_spec hs.stored isShell run
  have away : p.flowSource? sw (.indexed values.length) = p.home? sw := by
    rw [flowSource?, isShell]
    rfl
  have joins : p.Joins q e
      { user := sw, value := tgt, slot := .indexed values.length } :=
    { added := by rw [away]; exact added
      reads := Or.inl (by
        obtain ⟨d, h, -⟩ := map_eq_some_iff.mp hsw
        exact isInst_of_inst? h)
      admits := fun kind hKind => by
        obtain rfl := mem_unique isShell hKind
        exact (hs.laid sw _ isShell).case_append
      leads := fun _ => hb
      keyed := by simp }
  refine .connect e _ joins (fun conf => ?_) (by simp [isShell])
    (by simp [rule?_of_shell? isShell, InstKind.rule?]) spares
  exact conf.of_caseAdded hs.wired (joins.sound hs).wired added hsw isSwitchAfter hb fresh

theorem removeCaseAt_prunes (hs : p.Sound) (hsw : p.shell? sw = some (.switch []))
    (run : (removeCaseAt sw pos).run p = .ok (a, q)) : p.Prunes pr q := by
  obtain ⟨e, d, mem, h, rem, places, kinds⟩ := removeCaseAt_spec hs.stored
    hs.wired.placid hs.wired.uses (hs.wired.nodup sw) run
  have hWire : p.wire? e = some d.outline := by
    exact wire?_of_get? h
  have behind : 1 ≤ firstCase + pos := by simp [firstCase]; omega
  have away : p.flowSource? sw d.outline.slot = p.home? sw :=
    hs.flowSource?_of_case hsw mem hWire behind
  have optional : (∃ b, d.outline.slot = .keyed b) ∨
      (p.shell? sw = some (.switch []) ∧ 1 ≤ firstCase + pos) :=
    Or.inr ⟨hsw, behind⟩
  have wiredAfter := (hs.of_unread mem hWire optional rem).wired
  refine ⟨.single (.unread sw _ e d.outline mem hWire optional ?_ fun conf => ?_),
    rem.rewires, rem.settles (List.eraseIdx_sublist _ _)⟩
  · rw [away]
    exact rem
  · obtain ⟨kind, _, _, isKind, -⟩ := id conf
    obtain ⟨cases, rfl⟩ : ∃ cases, kind = .switch cases := by
      have isShell := shell?_of_kind? isKind
      rw [hsw, some.injEq] at isShell
      cases kind <;> simp [InstKind.shell] at isShell ⊢
    obtain ⟨lt, isSwitchAfter⟩ := kinds cases isKind
    exact Conforms.of_caseRemoved hs.wired wiredAfter mem h rem places conf
      isKind rfl lt isSwitchAfter

theorem removeCasesTo_prunes {fuel : Nat} (hs : p.Sound) (hsw : p.shell? sw = some (.switch []))
    (run : (removeCasesTo sw tgt fuel pos).run p = .ok (count, q)) : p.Prunes pr q := by
  induction fuel generalizing p pos count with
  | zero =>
    obtain ⟨-, rfl⟩ := run_pure.mp run
    exact .refl _
  | succ fuel ih =>
    obtain ⟨home, -, run⟩ := run_look.mp run
    cases home with
    | none =>
      obtain ⟨-, rfl⟩ := run_pure.mp run
      exact .refl _
    | some block =>
      simp only at run
      split at run
      next =>
        simp only [run_bind, run_pure] at run
        obtain ⟨_, m, runRemove, _, _, run', -, rfl⟩ := run
        have prunes : p.Prunes pr m := removeCaseAt_prunes hs hsw runRemove
        refine prunes.trans (ih (prunes.sound hs) ?_ run')
        rw [prunes.rewires.skeleton.shell?, hsw]
      next => exact ih hs hsw run

end Step

section Cases

/-- A new case is added behind the cases that a switch has. -/
theorem addCase_run {v : Int64} (run : addCase i v tgt p = .done a q) :
    ∃ values, p.kind? i = some (.switch values) ∧ p.isBlock tgt = true ∧ v ∉ values ∧
      (Step.addCaseTo i values v tgt).run p = .ok (a, q) := by
  simp only [addCase, Edit.plan_eq_done, bind_eq_ok, liftHalt_eq_ok] at run
  obtain ⟨step, ⟨_, -, kind, readKind, plan⟩, runStep⟩ := run
  cases kind with
  | switch values =>
    simp only [bind_eq_ok, liftHalt_eq_ok, requireBlock, require_eq_ok] at plan
    obtain ⟨_, hb, _, isNew, cond, -, plan⟩ := plan
    obtain rfl : Step.addCaseTo i values v tgt = step := by
      cases cond with
      | none => simpa [pure_eq_ok] using plan
      | some cond =>
        simp only [bind_eq_ok, pure_eq_ok] at plan
        obtain ⟨_, -, _, -, _, -, _, -, isStep⟩ := plan
        exact isStep
    exact ⟨values, kind?_of_kind readKind, hb, by simpa using isNew, runStep⟩
  | _ => exact absurd plan (refuse_ne_ok _ _)

variable (hs : p.Sound)
include hs

theorem addCase_leads {v : Int64}
    (spares : pr.sparesFinalized → ∀ l, p.link? i = some l → l.status ≠ .finalized)
    (run : addCase i v tgt p = .done a q) : p.Leads pr q 0 := by
  obtain ⟨values, hsw, hb, fresh, runStep⟩ := addCase_run run
  have redraws : p.Redraws pr q := Step.addCaseTo_redraws hs hsw hb fresh spares runStep
  exact .of_redrawn (.single redraws)

theorem removeTarget_leads (run : removeTarget i tgt p = .done count q) : p.Leads pr q 0 := by
  simp only [removeTarget, Edit.plan_eq_done, bind_eq_ok, liftHalt_eq_ok] at run
  obtain ⟨step, ⟨_, -, kind, readKind, plan⟩, runStep⟩ := run
  have isKind := kind?_of_kind readKind
  have unchanged : step = pure 0 → p.Leads pr q 0 := by
    rintro rfl
    obtain ⟨-, rfl⟩ := Step.run_pure.mp runStep
    exact .refl _
  cases kind with
  | br | condBr =>
    simp only [bind_eq_ok, pure_eq_ok] at plan
    obtain ⟨_, -, _, -, isStep⟩ := plan
    exact unchanged isStep.symm
  | switch values =>
    simp only [bind_eq_ok, pure_eq_ok] at plan
    obtain ⟨_, -, _, -, ops, -, rfl⟩ := plan
    exact .of_prunes (Step.removeCasesTo_prunes hs (shell?_of_kind? isKind) runStep)
  | _ => exact unchanged (pure_eq_ok.mp plan).symm

theorem clearTargets_leads (run : clearTargets i p = .done count q) : p.Leads pr q 0 := by
  simp only [clearTargets, Edit.plan_eq_done, bind_eq_ok, liftHalt_eq_ok] at run
  obtain ⟨step, ⟨_, -, kind, readKind, plan⟩, runStep⟩ := run
  have isKind := kind?_of_kind readKind
  cases kind with
  | br | condBr => exact absurd plan (refuse_ne_ok _ _)
  | switch values =>
    simp only [bind_eq_ok, pure_eq_ok] at plan
    obtain ⟨cases, -, rfl⟩ := plan
    obtain ⟨_, _, runRemove, runPure⟩ := Step.run_bind.mp runStep
    obtain ⟨-, rfl⟩ := Step.run_pure.mp runPure
    refine .of_prunes (Step.forM_of_invariant (Prunes pr)
      (fun s => s.Sound ∧ s.shell? i = some (.switch [])) .refl .trans
      (fun prunes start => ⟨prunes.sound start.1, ?_⟩)
      (fun pos _ first second start => Step.removeCaseAt_prunes start.1 start.2)
      ⟨hs, shell?_of_kind? isKind⟩ runRemove)
    rw [prunes.rewires.skeleton.shell?]
    exact start.2
  | _ =>
    obtain rfl := pure_eq_ok.mp plan
    obtain ⟨-, rfl⟩ := Step.run_pure.mp runStep
    exact .refl _

end Cases

end ValueGraph
