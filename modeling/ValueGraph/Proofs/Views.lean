import Mathlib
import ValueGraph.Proofs.Slots
import ValueGraph.Proofs.Stepping

namespace ValueGraph

open Program

/-!
# Views of a program

Every reader of one node or one edge answers exactly when the arena holds what
it asks for.  The views `inst?`, `block?`, `function?` and `global?` say what is
behind a handle without a fault.
-/

variable {contents : Payload} {d : Inst} {n : Node}

namespace Payload

/-- The instruction that a payload describes. -/
def inst? : Payload → Option Inst
  | .inst data => some data
  | _ => none

/-- The block that a payload describes. -/
def block? : Payload → Option Block
  | .block data => some data
  | _ => none

/-- The function that a payload describes. -/
def function? : Payload → Option Function
  | .function data => some data
  | _ => none

/-- The global that a payload describes. -/
def global? : Payload → Option Global
  | .global data => some data
  | _ => none

/-- The argument that a payload describes. -/
def argument? : Payload → Option Argument
  | .argument data => some data
  | _ => none

/-- The register that a payload describes. -/
def register? : Payload → Option Register
  | .register data => some data
  | _ => none

def constant? : Payload → Option Constant
  | .constant content => some content
  | _ => none

end Payload

/-- The type and the name of a node. -/
def Node.label (node : Node) : TypeId × Option Name :=
  (node.type, node.name)

namespace Program

/-- The instruction behind a handle. -/
def inst? (program : Program) (value : ValueId) : Option Inst :=
  (program.payload? value).bind Payload.inst?

/-- The block behind a handle. -/
def block? (program : Program) (value : ValueId) : Option Block :=
  (program.payload? value).bind Payload.block?

/-- The function behind a handle. -/
def function? (program : Program) (value : ValueId) : Option Function :=
  (program.payload? value).bind Payload.function?

/-- The global behind a handle. -/
def global? (program : Program) (value : ValueId) : Option Global :=
  (program.payload? value).bind Payload.global?

/-- The constant behind a handle. -/
def constantOf? (program : Program) (value : ValueId) : Option Constant :=
  (program.values.get? value).bind (·.payload.constant?)

/-- The type of the node behind a handle. -/
def type? (program : Program) (value : ValueId) : Option TypeId :=
  (program.values.get? value).map (·.type)

/-- The name given to the node behind a handle. -/
def name? (program : Program) (value : ValueId) : Option Name :=
  (program.values.get? value).bind (·.name)

/-- The type and the name of the node behind a handle. -/
def label? (program : Program) (value : ValueId) : Option (TypeId × Option Name) :=
  (program.values.get? value).map Node.label

/-- The kind of the instruction behind a handle. -/
def kind? (program : Program) (inst : InstId) : Option InstKind :=
  (program.inst? inst).map (·.kind)

/-- The edges through which the node behind a handle reads others. -/
def operandsOf (program : Program) (user : ValueId) : List EdgeId :=
  (program.values.get? user).elim [] (·.operands)

/-- The edges that read the node behind a handle. -/
def usesOf (program : Program) (value : ValueId) : List EdgeId :=
  (program.values.get? value).elim [] (·.usedBy)

/-- The number of owning handles on the node behind a handle. -/
def countOf (program : Program) (value : ValueId) : Nat :=
  (program.values.count? value).getD 0

variable {s : Program} {v : ValueId}

theorem type?_eq_label? (s : Program) : s.type? = fun v => (s.label? v).map (·.1) := by
  funext v
  simp only [type?, label?, Option.map_map]
  rfl

theorem name?_eq_label? (s : Program) : s.name? = fun v => (s.label? v).bind (·.2) := by
  funext v
  simp only [name?, label?, Option.bind_map]
  rfl

theorem operandsOf_eq (found : s.values.get? v = some n) : s.operandsOf v = n.operands := by
  simp [operandsOf, found]

theorem usesOf_eq (found : s.values.get? v = some n) : s.usesOf v = n.usedBy := by
  simp [usesOf, found]

theorem countOf_eq {count : Nat} (found : s.values.count? v = some count) :
    s.countOf v = count := by
  simp [countOf, found]

theorem payload?_eq_some_iff :
    s.payload? v = some contents ↔ ∃ n, s.values.get? v = some n ∧ n.payload = contents := by
  simp [payload?]

theorem inst?_eq_some_iff : s.inst? v = some d ↔ s.payload? v = some (.inst d) := by
  unfold inst?
  rcases s.payload? v with _ | _ | _ | _ | _ | _ | _ | _ <;> simp [Payload.inst?]

theorem block?_eq_some_iff {d : Block} : s.block? v = some d ↔ s.payload? v = some (.block d) := by
  unfold block?
  rcases s.payload? v with _ | _ | _ | _ | _ | _ | _ | _ <;> simp [Payload.block?]

theorem function?_eq_some_iff {d : Function} :
    s.function? v = some d ↔ s.payload? v = some (.function d) := by
  unfold function?
  rcases s.payload? v with _ | _ | _ | _ | _ | _ | _ | _ <;> simp [Payload.function?]

theorem global?_eq_some_iff {d : Global} :
    s.global? v = some d ↔ s.payload? v = some (.global d) := by
  unfold global?
  rcases s.payload? v with _ | _ | _ | _ | _ | _ | _ | _ <;> simp [Payload.global?]

theorem argument?_eq_bind (s : Program) :
    s.argument? = fun v => (s.payload? v).bind Payload.argument? := by
  funext v
  unfold argument?
  rcases s.payload? v with _ | _ | _ | _ | _ | _ | _ | _ <;> rfl

theorem register?_eq_bind (s : Program) :
    s.register? = fun v => (s.payload? v).bind Payload.register? := by
  funext v
  unfold register?
  rcases s.payload? v with _ | _ | _ | _ | _ | _ | _ | _ <;> rfl

theorem constantOf?_eq_bind (s : Program) :
    s.constantOf? = fun v => (s.payload? v).bind Payload.constant? := by
  funext v
  rw [constantOf?, payload?, Option.bind_map]
  rfl

theorem isConstant_eq_constantOf? (s : Program) :
    s.isConstant = fun v => (s.constantOf? v).isSome := by
  funext v
  simp only [constantOf?_eq_bind, isConstant]
  rcases s.payload? v with _ | _ | _ | _ | _ | _ | _ | _ <;> rfl

theorem isLive_of_constantOf? {c : Constant} (h : s.constantOf? v = some c) :
    s.isLive v = true := by
  obtain ⟨n, found, -⟩ := Option.bind_eq_some_iff.mp h
  exact Arena.contains_iff_get?.mpr ⟨n, found⟩

theorem argument?_eq_some_iff {d : Argument} :
    s.argument? v = some d ↔ s.payload? v = some (.argument d) := by
  unfold argument?
  split <;> simp_all

theorem register?_eq_some_iff {d : Register} :
    s.register? v = some d ↔ s.payload? v = some (.register d) := by
  unfold register?
  split <;> simp_all

/-! ### Readers of nodes -/

theorem node_eq_ok : s.node v = .ok n ↔ s.values.get? v = some n := by
  unfold Program.node
  split <;> simp_all

theorem edge_eq_ok {e : EdgeId} {d : Edge} : s.edge e = .ok d ↔ s.edges.get? e = some d := by
  unfold Program.edge
  split <;> simp_all

theorem payload_eq_ok : s.payload v = .ok contents ↔ s.payload? v = some contents := by
  unfold Program.payload
  simp only [bind_eq_ok, pure_eq_ok, node_eq_ok, payload?_eq_some_iff]

/-- A reader of payloads that answers as a view does. -/
theorem bind_payload_eq_ok {β : Type} {next : Payload → Except Fault β}
    {view : Payload → Option β} {d : β} (shows : ∀ payload, next payload = .ok d ↔
      view payload = some d) :
    s.payload v >>= next = .ok d ↔ (s.payload? v).bind view = some d := by
  simp only [bind_eq_ok, payload_eq_ok, shows, Option.bind_eq_some_iff]

theorem inst_eq_ok : s.inst v = .ok d ↔ s.inst? v = some d :=
  bind_payload_eq_ok
    fun payload => by cases payload <;> simp [Payload.inst?, pure_eq_ok, throw_ne_ok]

theorem block_eq_ok {d : Block} : s.block v = .ok d ↔ s.block? v = some d :=
  bind_payload_eq_ok
    fun payload => by cases payload <;> simp [Payload.block?, pure_eq_ok, throw_ne_ok]

theorem function_eq_ok {d : Function} : s.function v = .ok d ↔ s.function? v = some d :=
  bind_payload_eq_ok
    fun payload => by cases payload <;> simp [Payload.function?, pure_eq_ok, throw_ne_ok]

theorem global_eq_ok {d : Global} : s.global v = .ok d ↔ s.global? v = some d :=
  bind_payload_eq_ok
    fun payload => by cases payload <;> simp [Payload.global?, pure_eq_ok, throw_ne_ok]

theorem operands_eq_ok {ops : List EdgeId} :
    s.operands v = .ok ops ↔ ∃ n, s.values.get? v = some n ∧ n.operands = ops := by
  unfold Program.operands
  simp only [bind_eq_ok, pure_eq_ok, node_eq_ok]

theorem usedBy_eq_ok {uses : List EdgeId} :
    s.usedBy v = .ok uses ↔ ∃ n, s.values.get? v = some n ∧ n.usedBy = uses := by
  unfold usedBy
  simp only [bind_eq_ok, pure_eq_ok, node_eq_ok]

theorem typeOf_eq_ok {ty : TypeId} :
    s.typeOf v = .ok ty ↔ ∃ n, s.values.get? v = some n ∧ n.type = ty := by
  unfold typeOf
  simp only [bind_eq_ok, pure_eq_ok, node_eq_ok]

theorem kind_eq_ok {kind : InstKind} :
    s.kind v = .ok kind ↔ ∃ d, s.inst? v = some d ∧ d.kind = kind := by
  unfold Program.kind
  simp only [bind_eq_ok, pure_eq_ok, inst_eq_ok]

theorem status_eq_ok {st : Status} :
    s.status v = .ok st ↔ ∃ d, s.inst? v = some d ∧ d.status = st := by
  unfold Program.status
  simp only [bind_eq_ok, pure_eq_ok, inst_eq_ok]

theorem isTerminator_eq_ok {a : Bool} :
    s.isTerminator v = .ok a ↔ ∃ d, s.inst? v = some d ∧ d.kind.isTerminator = a := by
  unfold isTerminator
  simp only [bind_eq_ok, pure_eq_ok, kind_eq_ok]
  simp

end Program

end ValueGraph
