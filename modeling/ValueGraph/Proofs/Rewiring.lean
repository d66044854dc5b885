import Mathlib
import ValueGraph.Proofs.Effects

open Function

namespace ValueGraph

open Program Option Arena Payload

/-!
# Changes below the skeleton

The skeleton of a program is what its nodes are, apart from constants, the counts
of the flow graph and the case values of switches.  Adding, moving and removing
operand edges, recording flow edges and owning constants are all made of small
changes that leave the skeleton as it is, take out no node but constants, and
place none.
-/

variable {v : ValueId} {s p q : Program} {change : Node → Node} {n : Node}
  {values : Arena ValueSpace Node}

/-! ### The skeleton -/

/-- An instruction kind without its case values. -/
def InstKind.shell : InstKind → InstKind
  | .switch _ => .switch []
  | kind => kind

@[simp]
theorem InstKind.isTerminator_shell (kind : InstKind) :
    kind.shell.isTerminator = kind.isTerminator := by
  cases kind <;> rfl

@[simp]
theorem InstKind.isTargetSlot_shell (kind : InstKind) (slot : Slot) :
    kind.shell.isTargetSlot slot = kind.isTargetSlot slot := by
  cases kind <;> cases slot <;> rfl

/-- What a payload is, without what changes with the edges. -/
def Payload.skeleton? : Payload → Option Payload
  | .constant _ => none
  | .block data => some (.block { data with jumpsTo := .empty, comesFrom := .empty })
  | .inst data => some (.inst { data with kind := data.kind.shell })
  | payload => some payload

/-- What a node is, without what changes with the edges. -/
def Node.skeleton? (node : Node) : Option (TypeId × Option Name × Payload) :=
  node.payload.skeleton?.map fun payload => (node.type, node.name, payload)

/-- What the node behind a handle is, without what changes with the edges. -/
def Program.skeleton (program : Program) (value : ValueId) :
    Option (TypeId × Option Name × Payload) :=
  (program.values.get? value).bind Node.skeleton?

/-! ### Views that the skeleton determines -/

/-- How an instruction is attached, and whether it ends a block. -/
structure Link where
  status : Status
  holder : Option Holder
  prev : Option InstId
  next : Option InstId
  isTerminator : Bool
deriving DecidableEq

def Inst.link (data : Inst) : Link :=
  { status := data.status
    holder := data.holder
    prev := data.prev
    next := data.next
    isTerminator := data.kind.isTerminator }

/-- The two ends of a chain and its length. -/
structure Ends where
  first : Option InstId
  last : Option InstId
  length : Nat
deriving DecidableEq

def Block.ends (data : Block) : Ends :=
  { first := data.first, last := data.last, length := data.length }

namespace Program

/-- How the instruction behind a handle is attached. -/
def link? (program : Program) (inst : InstId) : Option Link :=
  (program.inst? inst).map Inst.link

/-- The status of the instruction behind a handle. -/
def status? (program : Program) (inst : InstId) : Option Status :=
  (program.link? inst).map (·.status)

/-- The ends of the chain of the block behind a handle. -/
def ends? (program : Program) (block : BlockId) : Option Ends :=
  (program.block? block).map Block.ends

/-- The function around the block behind a handle. -/
def seat? (program : Program) (block : BlockId) : Option (Option FuncId) :=
  (program.block? block).map (·.parent)

/-- The kind of the instruction behind a handle, without case values. -/
def shell? (program : Program) (inst : InstId) : Option InstKind :=
  (program.inst? inst).map (·.kind.shell)

theorem shell?_eq_kind? (s : Program) : s.shell? = fun i => (s.kind? i).map InstKind.shell := by
  funext i
  simp [shell?, kind?, comp_def]

theorem isInst_eq (s : Program) : s.isInst = fun v => (s.link? v).isSome := by
  funext v
  unfold isInst link? inst?
  rcases s.payload? v with _ | _ | _ | _ | _ | _ | _ | _ <;> rfl

theorem isInst_of_link? {i : InstId} {l : Link} (h : s.link? i = some l) : s.isInst i = true := by
  simp [isInst_eq, h]

section

variable {i : InstId} {d : Inst}

theorem link?_of_inst? (h : s.inst? i = some d) : s.link? i = some d.link := by
  rw [link?, h, Option.map_some]

theorem isInst_of_inst? (h : s.inst? i = some d) : s.isInst i = true :=
  isInst_of_link? (link?_of_inst? h)

theorem exists_inst?_of_isInst (hi : s.isInst i = true) : ∃ d, s.inst? i = some d := by
  simpa [isInst_eq, link?, Option.isSome_iff_exists] using hi

end

theorem isBlock_eq_ends? (s : Program) : s.isBlock = fun v => (s.ends? v).isSome := by
  funext v
  unfold isBlock ends? block?
  rcases s.payload? v with _ | _ | _ | _ | _ | _ | _ | _ <;> rfl

theorem isFunction_eq (s : Program) : s.isFunction = fun v => (s.function? v).isSome := by
  funext v
  unfold isFunction function?
  rcases s.payload? v with _ | _ | _ | _ | _ | _ | _ | _ <;> rfl

theorem isGlobal_eq (s : Program) : s.isGlobal = fun v => (s.global? v).isSome := by
  funext v
  unfold isGlobal global?
  rcases s.payload? v with _ | _ | _ | _ | _ | _ | _ | _ <;> rfl

theorem isRegister_eq (s : Program) : s.isRegister = fun v => (s.register? v).isSome := by
  funext v
  unfold isRegister register?
  rcases s.payload? v with _ | _ | _ | _ | _ | _ | _ | _ <;> rfl

theorem skeleton_payload (s : Program) (v : ValueId) :
    (s.skeleton v).map (·.2.2) = (s.payload? v).bind Payload.skeleton? := by
  unfold skeleton payload? Node.skeleton?
  cases s.values.get? v with
  | none => rfl
  | some n => cases shape : n.payload.skeleton? <;> simp [shape]

end Program

/-- Two programs that agree on all that the skeleton holds. -/
def Program.SameSkeleton (before after : Program) : Prop :=
  ∀ value, after.skeleton value = before.skeleton value

namespace Program.SameSkeleton

section

variable (eq : p.SameSkeleton q)
include eq

/-- A reading of payloads that the skeleton determines is the same. -/
theorem bind_payload? {β : Type} {reading : Payload → Option β}
    (determined : ∀ payload : Payload, payload.skeleton?.bind reading = reading payload)
    (v : ValueId) :
    (q.payload? v).bind reading = (p.payload? v).bind reading := by
  have throughSkeleton : ∀ s : Program, (s.payload? v).bind reading =
        ((s.skeleton v).map (·.2.2)).bind reading := by
    intro s
    rw [skeleton_payload, bind_assoc]
    simp only [determined]
  rw [throughSkeleton, throughSkeleton, eq v]

theorem link? : q.link? = p.link? := by
  funext v
  have kept := eq.bind_payload?
    (show ∀ payload : Payload, payload.skeleton?.bind (fun payload => payload.inst?.map Inst.link) =
      payload.inst?.map Inst.link by
        rintro (_ | _ | _ | _ | _ | _ | _) <;> simp [Payload.skeleton?, Payload.inst?, Inst.link])
    v
  simpa only [Program.link?, inst?, Option.map_bind, comp_def] using kept

theorem ends? : q.ends? = p.ends? := by
  funext v
  have kept := eq.bind_payload? (show ∀ payload : Payload,
      payload.skeleton?.bind (fun payload => payload.block?.map Block.ends) =
        payload.block?.map Block.ends by
        rintro (_ | _ | _ | _ | _ | _ | _) <;> rfl)
    v
  simpa only [Program.ends?, block?, map_bind, comp_def] using kept

theorem seat? : q.seat? = p.seat? := by
  funext v
  have kept := eq.bind_payload? (show ∀ payload : Payload,
      payload.skeleton?.bind (fun payload => payload.block?.map (·.parent)) =
        payload.block?.map (·.parent) by
        rintro (_ | _ | _ | _ | _ | _ | _) <;> rfl)
    v
  simpa only [Program.seat?, block?, map_bind, comp_def] using kept

theorem shell? : q.shell? = p.shell? := by
  funext v
  have kept := eq.bind_payload? (show ∀ payload : Payload,
      payload.skeleton?.bind (fun payload => payload.inst?.map (·.kind.shell)) =
        payload.inst?.map (·.kind.shell) by
        rintro (_ | _ | _ | ⟨kind, _, _, _, _⟩ | _ | _ | _) <;> try rfl
        cases kind <;> rfl)
    v
  simpa only [Program.shell?, inst?, map_bind, comp_def] using kept

theorem function? : q.function? = p.function? :=
  funext fun v => eq.bind_payload? (by rintro (_ | _ | _ | _ | _ | _ | _) <;> rfl) v

theorem global? : q.global? = p.global? :=
  funext fun v => eq.bind_payload? (by rintro (_ | _ | _ | _ | _ | _ | _) <;> rfl) v

theorem argument? : q.argument? = p.argument? := by
  rw [argument?_eq_bind, argument?_eq_bind]
  exact funext (eq.bind_payload? (by rintro (_ | _ | _ | _ | _ | _ | _) <;> rfl))

theorem register? : q.register? = p.register? := by
  rw [register?_eq_bind, register?_eq_bind]
  exact funext (eq.bind_payload? (by rintro (_ | _ | _ | _ | _ | _ | _) <;> rfl))

theorem isInst : q.isInst = p.isInst := by
  rw [isInst_eq, isInst_eq, eq.link?]

theorem isBlock : q.isBlock = p.isBlock := by
  rw [isBlock_eq_ends?, isBlock_eq_ends?, eq.ends?]

theorem isFunction : q.isFunction = p.isFunction := by
  rw [isFunction_eq, isFunction_eq, eq.function?]

theorem isGlobal : q.isGlobal = p.isGlobal := by
  rw [isGlobal_eq, isGlobal_eq, eq.global?]

theorem isRegister : q.isRegister = p.isRegister := by
  rw [isRegister_eq, isRegister_eq, eq.register?]

end

end Program.SameSkeleton

/-- The skeleton leaves out the constants and nothing else. -/
theorem Program.isConstant_iff :
    s.isConstant v = true ↔ s.isLive v = true ∧ s.skeleton v = none := by
  unfold isConstant payload? skeleton isLive
  rw [contains_iff_get?]
  cases absent : s.values.get? v with
  | none => simp
  | some n =>
    cases shape : n.payload <;>
      simp [Node.skeleton?, Payload.skeleton?, Payload.category, shape]

/-! ### The relation -/

/-- A program apart from its nodes and edges. -/
def Program.surroundings (program : Program) : Program :=
  { program with values := .empty, edges := .empty }

/-- The change from one program to another stays below the skeleton. -/
structure Program.Rewires (before after : Program) : Prop where
  skeleton : before.SameSkeleton after
  labels : ∀ value, after.isLive value = true → after.label? value = before.label? value
  contents : ∀ value, after.isLive value = true → after.constantOf? value = before.constantOf? value
  surroundings : after.surroundings = before.surroundings
  counts : ∀ value, before.isConstant value = false →
    after.values.count? value = before.values.count? value
  shrinks : before.values.Shrinks after.values
  stored : before.Stored → after.Stored

namespace Program.Rewires

variable {first second r : Program}

theorem refl (s : Program) : s.Rewires s where
  skeleton _ := rfl
  labels _ _ := rfl
  contents _ _ := rfl
  surroundings := rfl
  counts _ _ := rfl
  shrinks := Arena.Shrinks.refl _
  stored := id

theorem types (rew : first.Rewires second) (v : ValueId) (live : second.isLive v = true) :
    second.type? v = first.type? v := by
  simp only [type?_eq_label?, rew.labels v live]

theorem names (rew : first.Rewires second) (v : ValueId) (live : second.isLive v = true) :
    second.name? v = first.name? v := by
  simp only [name?_eq_label?, rew.labels v live]

theorem isConstant_eq_false (rew : first.Rewires second) (noConstant : first.isConstant v = false) :
    second.isConstant v = false := by
  rw [Bool.eq_false_iff] at noConstant ⊢
  rw [Ne, isConstant_iff] at noConstant ⊢
  rintro ⟨live, bare⟩
  exact noConstant ⟨rew.shrinks.contains v live, (rew.skeleton v).symm.trans bare⟩

theorem trans (earlier : first.Rewires second) (later : second.Rewires r) : first.Rewires r where
  skeleton v := (later.skeleton v).trans (earlier.skeleton v)
  labels v live := (later.labels v live).trans (earlier.labels v (later.shrinks.contains v live))
  contents v live :=
    (later.contents v live).trans (earlier.contents v (later.shrinks.contains v live))
  surroundings := later.surroundings.trans earlier.surroundings
  counts v other :=
    (later.counts v (earlier.isConstant_eq_false other)).trans (earlier.counts v other)
  shrinks := earlier.shrinks.trans later.shrinks
  stored := later.stored ∘ earlier.stored

instance : IsPreorder Program Rewires where
  refl := refl
  trans _ _ _ := trans

theorem ofEdges {edges : Arena EdgeSpace Edge} (wf : first.edges.WellFormed → edges.WellFormed) :
    first.Rewires { first with edges } where
  skeleton _ := rfl
  labels _ _ := rfl
  contents _ _ := rfl
  surroundings := rfl
  counts _ _ := rfl
  shrinks := Arena.Shrinks.refl _
  stored kept := ⟨kept.values, wf kept.edges, kept.owned⟩

theorem ofNode (sameLabel : ∀ n, (change n).label = n.label)
    (kept : ∀ n, first.values.get? v = some n → (change n).skeleton? = n.skeleton?)
    (content : ∀ n, first.values.get? v = some n →
      (change n).payload.constant? = n.payload.constant?) :
    first.Rewires { first with values := first.values.modify v change } where
  skeleton value := by
    by_cases eq : value = v
    · cases absent : first.values.get? v with
      | none => simp [Program.skeleton, get?_modify, eq, absent]
      | some n => simp [Program.skeleton, get?_modify, eq, absent, kept n absent]
    · simp [Program.skeleton, get?_modify, eq]
  labels value _ := by
    simp only [label?, get?_modify]
    split
    · simp [map_map, comp_def, sameLabel]
    · rfl
  contents value _ := by
    simp only [constantOf?, get?_modify]
    split
    next eq =>
      subst eq
      cases absent : first.values.get? value with
      | none => rfl
      | some n => simp [content n absent]
    next => rfl
  surroundings := rfl
  counts _ _ := count?_modify ..
  shrinks := .of_same (contains_modify _ _ · _) (generation?_modify _ _ _)
  stored kept :=
    { values := kept.values.modify v change
      edges := kept.edges
      owned := fun value => by simpa using kept.owned value }

theorem ofPayload {old new : Payload} (h : first.payload? v = some old)
    (kept : new.skeleton? = old.skeleton?) (content : new.constant? = old.constant?) :
    first.Rewires (first.withPayload v new) := by
  obtain ⟨n, found, rfl⟩ := payload?_eq_some_iff.mp h
  refine .ofNode (fun _ => rfl) (fun _ h' => ?_) fun _ h' => ?_
  all_goals obtain rfl := mem_unique found h'
  · rw [Node.skeleton?, Node.skeleton?, kept]
  · exact content

theorem ofConstantCount {entry : Arena.Entry Node} {count : Nat} (c : first.isConstant v = true)
    (named : first.values.lookup? v = some entry) (positive : count ≠ 0) :
    first.Rewires { first with values := first.values.setEntry v { entry with count } } where
  skeleton value := by simp [Program.skeleton, get?_setCount named]
  labels value _ := by simp [label?, get?_setCount named]
  contents value _ := by simp [constantOf?, get?_setCount named]
  surroundings := rfl
  counts value varies := by
    have ne : value ≠ v := by
      rintro rfl
      simp [c] at varies
    simp [count?_setCount named, ne]
  shrinks := .of_same (contains_setEntry named _) (generation?_setEntry _ _ _)
  stored kept :=
    { values := kept.values.setEntry v _
      edges := kept.edges
      owned := fun value => by
        simp only [count?_setCount named]
        split
        · simpa using positive
        · exact kept.owned value }

theorem get?_of_take? {value : ValueId} (taken : first.values.take? v = some (n, values))
    (live : values.contains value = true) : values.get? value = first.values.get? value := by
  obtain ⟨_, found⟩ := contains_iff_get?.mp live
  rw [get?_take? taken] at found ⊢
  split at found
  · cases found
  next ne => rw [if_neg ne]

theorem ofConstantTaken (c : first.isConstant v = true)
    (taken : first.values.take? v = some (n, values)) : first.Rewires { first with values } where
  skeleton value := by
    by_cases eq : value = v
    · simp only [Program.skeleton, get?_take? taken, eq]
      exact (isConstant_iff.mp c).2.symm
    · simp [Program.skeleton, get?_take? taken, eq]
  labels value live := by rw [label?, label?, get?_of_take? taken live]
  contents value live := by rw [constantOf?, constantOf?, get?_of_take? taken live]
  surroundings := rfl
  counts value varies := by
    have ne : value ≠ v := by
      rintro rfl
      simp [c] at varies
    simp [count?_take? taken, ne]
  shrinks := shrinks_take? taken
  stored kept :=
    { values := kept.values.take? taken
      edges := kept.edges
      owned := fun value => by
        simp only [count?_take? taken]
        split
        · simp
        · exact kept.owned value }

end Program.Rewires

/-! ### Steps that stay below the skeleton -/

theorem Program.constant?_isSome_iff {a : Option Constant} (read : s.constant? v = .ok a) :
    a.isSome = s.isConstant v := by
  unfold constant? at read
  simp only [bind_eq_ok, payload_eq_ok] at read
  obtain ⟨payload, h, shape⟩ := read
  cases payload <;> simp_all [isConstant, pure_eq_ok] <;> subst shape <;> rfl

namespace Step

open Program (Rewires)

theorem retainConstant_rewires (v : ValueId) : Moves Rewires (retainConstant v) := by
  intro p q a run
  obtain ⟨c, read, run⟩ := run_look.mp run
  split at run
  next isSome =>
    rw [constant?_isSome_iff read] at isSome
    obtain ⟨count, values, retained, rfl⟩ := retainHandle_run run
    obtain ⟨entry, named, -, rfl⟩ := retain?_eq_some retained
    exact .ofConstantCount isSome named (by omega)
  next =>
    obtain ⟨-, rfl⟩ := run_pure.mp run
    exact .refl _

theorem dropConstant_rewires (v : ValueId) : Moves Rewires (dropConstant v) := by
  intro p q a run
  obtain ⟨c, read, run⟩ := run_look.mp run
  split at run
  next isSome =>
    rw [constant?_isSome_iff read] at isSome
    obtain ⟨released, values, given, rfl, -⟩ := dropHandle_run run
    obtain ⟨entry, named, ⟨more, rfl⟩ | ⟨last, taken⟩⟩ := release?_eq_some given
    · exact .ofConstantCount isSome named (by omega)
    · exact .ofConstantTaken isSome taken
  next =>
    obtain ⟨-, rfl⟩ := run_pure.mp run
    exact .refl _

theorem modifyNode_rewires (v : ValueId)
    (sameLabel : ∀ n, (change n).label = n.label := by intro _; rfl)
    (kept : ∀ n, (change n).skeleton? = n.skeleton? := by intro _; rfl)
    (content : ∀ n, (change n).payload.constant? = n.payload.constant? := by intro _; rfl) :
    Moves Rewires (modifyNode v change) := by
  intro p q a run
  obtain ⟨-, rfl⟩ := modifyNode_run.mp run
  exact .ofNode sameLabel (fun n _ => kept n) fun n _ => content n

theorem modifyEdge_rewires (e : EdgeId) (change : Edge → Edge) :
    Moves Rewires (modifyEdge e change) := by
  intro p q a run
  obtain ⟨-, rfl⟩ := modifyEdge_run.mp run
  exact .ofEdges fun wf => wf.modify e change

theorem modifyBlock_rewires {change : Block → Block} (b : BlockId)
    (kept : ∀ d, (Payload.block (change d)).skeleton? = (Payload.block d).skeleton?) :
    Moves Rewires (modifyBlock b change) := by
  intro p q a run
  obtain ⟨d, h, rfl⟩ := modifyBlock_run.mp run
  exact .ofPayload (block?_eq_some_iff.mp h) (kept d) rfl

theorem modifyInst_rewires {change : Inst → Inst} (i : InstId) {a : Unit}
    (kept : ∀ d, p.inst? i = some d →
      (Payload.inst (change d)).skeleton? = (Payload.inst d).skeleton?)
    (run : (modifyInst i change).run p = .ok (a, q)) : p.Rewires q := by
  obtain ⟨d, h, rfl⟩ := modifyInst_run.mp run
  exact .ofPayload (inst?_eq_some_iff.mp h) (kept d h) rfl

theorem addOperand_rewires (u : ValueId) (slot : Slot) (v : ValueId) :
    Moves Rewires (addOperand u slot v) := by
  intro p q a run
  replace run := run_get_bind.mp run
  simp only [run_bind, run_set] at run
  obtain ⟨_, _, rfl, _, _, runUser, _, _, runValue, runCount⟩ := run
  exact (((Rewires.ofEdges fun wf => wf.insert _).trans ((modifyNode_rewires u) runUser)).trans
    ((modifyNode_rewires v) runValue)).trans (retainConstant_rewires v runCount)

theorem unlinkEdge_rewires (e : EdgeId) : Moves Rewires (unlinkEdge e) := by
  intro p q a run
  replace run := run_get_bind.mp run
  split at run
  next =>
    obtain ⟨-, rfl⟩ := run_pure.mp run
    exact .refl _
  next d edges taken =>
    simp only [run_bind, run_set] at run
    obtain ⟨_, _, rfl, _, _, runValue, runCount⟩ := run
    exact ((Rewires.ofEdges fun wf => wf.take? taken).trans ((modifyNode_rewires _) runValue)).trans
      (dropConstant_rewires _ runCount)

theorem closeGap_rewires (gap : Nat) (e : EdgeId) : Moves Rewires (closeGap gap e) := by
  refine .bind .get fun s => .bind (.lift _) fun slot => ?_
  split
  · split
    · exact modifyEdge_rewires e _
    · exact .pure _
  · exact .pure _

theorem removeOperandAt_rewires (u : ValueId) (k : Nat) : Moves Rewires (removeOperandAt u k) := by
  refine .bind .get fun s => .bind (.lift _) fun ops => ?_
  split
  · exact .throw _
  · refine .bind (modifyNode_rewires u) fun _ => .bind (.lift _) fun slot =>
      .bind (unlinkEdge_rewires _) fun _ => ?_
    split
    · exact .forM (closeGap_rewires _)
    · exact .pure _

theorem clearOperands_rewires (u : ValueId) : Moves Rewires (clearOperands u) :=
  .bind .get fun _ => .bind (.lift _) fun _ =>
    .bind (modifyNode_rewires u) fun _ => .forM unlinkEdge_rewires

theorem linkFlow_rewires (src tgt : BlockId) : Moves Rewires (linkFlow src tgt) :=
  .bind (modifyBlock_rewires src fun _ => rfl) fun _ =>
    modifyBlock_rewires tgt fun _ => rfl

theorem unlinkFlow_rewires (src tgt : BlockId) : Moves Rewires (unlinkFlow src tgt) :=
  .bind (modifyBlock_rewires src fun _ => rfl) fun _ =>
    modifyBlock_rewires tgt fun _ => rfl

/-- Moving a target strikes out and records edges of the flow graph. -/
theorem Moves.retarget {relation : Program → Program → Prop} [IsPreorder Program relation]
    (links : ∀ src tgt, Moves relation (linkFlow src tgt))
    (unlinks : ∀ src tgt, Moves relation (unlinkFlow src tgt)) (u : ValueId) (slot : Slot)
    (old new : ValueId) : Moves relation (retarget u slot old new) := by
  refine .bind .get fun s => ?_
  split
  · refine .bind (.lift _) fun kind => ?_
    split
    · refine .bind (.lift _) fun src => ?_
      split
      · split
        · split
          · exact .bind (unlinks _ old) fun _ => links _ new
          · exact links _ new
        · exact .pure _
      · exact .pure _
    · exact .pure _
  · exact .pure _

theorem retarget_rewires (u : ValueId) (slot : Slot) (old new : ValueId) :
    Moves Rewires (Step.retarget u slot old new) :=
  .retarget linkFlow_rewires unlinkFlow_rewires ..

theorem rebind_rewires (e : EdgeId) (new : ValueId) : Moves Rewires (rebind e new) :=
  .bind .get fun _ => .bind (.lift _) fun _ =>
    .bind (modifyNode_rewires _) fun _ =>
      .bind (modifyNode_rewires new) fun _ =>
        .bind (modifyEdge_rewires e _) fun _ =>
          .bind (retainConstant_rewires new) fun _ =>
            .bind (retarget_rewires _ _ _ new) fun _ => dropConstant_rewires _

end Step

end ValueGraph
