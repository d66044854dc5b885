import ValueGraph.Program
import ValueGraph.Refusal
import ValueGraph.Types.Request

namespace ValueGraph

/-!
# Edits

An edit looks before it acts.  Looking may refuse the edit or meet a fault;
acting changes the program and can only meet a fault.  So an edit made by
`Edit.plan` that is refused leaves the program as it was.  Edits that are made
one after another can be refused after the first of them has acted.
-/

/-- Why looking came to no plan. -/
inductive Halt where
  | refused (cause : Refusal)
  | faulted (fault : Fault)
deriving DecidableEq

instance : MonadLift (Except Fault) (Except Halt) where
  monadLift
    | .ok answer => .ok answer
    | .error fault => .error (.faulted fault)

/-- Refuse an edit of the graph. -/
def refuse {α : Type} (cause : EditCause) : Except Halt α :=
  .error (.refused (.edit cause))

/-- Refuse an edit of the graph unless a condition holds. -/
def require (condition : Bool) (cause : EditCause) : Except Halt Unit :=
  if condition then .ok () else refuse cause

/-- Refuse an edit of a register file. -/
def refuseRegister {α : Type} (cause : RegisterCause) : Except Halt α :=
  .error (.refused (.register cause))

/-- Refuse an edit of the symbols. -/
def refuseSymbol {α : Type} (cause : SymbolCause) : Except Halt α :=
  .error (.refused (.symbol cause))

/-- A change of the program that can only meet a fault. -/
abbrev Step := StateT Program (Except Fault)

/-- What came of an edit. -/
inductive Outcome (α : Type) where
  | done (answer : α) (after : Program)
  | refused (cause : Refusal) (after : Program)
  | faulted (fault : Fault)
deriving DecidableEq

/-- An operation on programs with all of its outcomes. -/
def Edit (α : Type) : Type := Program → Outcome α

namespace Edit

variable {α β : Type}

/-- Make a change without looking first. -/
def perform (step : Step α) : Edit α := fun program =>
  match step.run program with
  | .ok (answer, after) => .done answer after
  | .error fault => .faulted fault

/-- Look at the program, then make the change that was found to apply. -/
def plan (look : Program → Except Halt (Step α)) : Edit α := fun program =>
  match look program with
  | .ok step => perform step program
  | .error (.refused cause) => .refused cause program
  | .error (.faulted fault) => .faulted fault

/-- Look at the program and leave it as it is. -/
def look (read : Program → Except Halt α) : Edit α := fun program =>
  match read program with
  | .ok answer => .done answer program
  | .error (.refused cause) => .refused cause program
  | .error (.faulted fault) => .faulted fault

/-- One edit after another; the second sees what the first answered. -/
def andThen (first : Edit α) (second : α → Edit β) : Edit β := fun program =>
  match first program with
  | .done answer after => second answer after
  | .refused cause after => .refused cause after
  | .faulted fault => .faulted fault

/-- The same edit with its answer put differently. -/
def map (change : α → β) (edit : Edit α) : Edit β := fun program =>
  match edit program with
  | .done answer after => .done (change answer) after
  | .refused cause after => .refused cause after
  | .faulted fault => .faulted fault

/-- One edit for each item, in turn, until one of them is refused. -/
def forEach (edit : α → Edit Unit) : List α → Edit Unit
  | [] => perform (pure ())
  | item :: rest => (edit item).andThen fun _ => forEach edit rest

/-- A change that is made without looking is never refused. -/
theorem perform_ne_refused (step : Step α) (program after : Program) (cause : Refusal) :
    perform step program ≠ .refused cause after := by
  unfold perform
  split
  · simp
  · simp

/-- A planned edit that is refused leaves the program as it was. -/
theorem after_eq_of_plan_refused {look : Program → Except Halt (Step α)} {program after : Program}
    {cause : Refusal} (refused : plan look program = .refused cause after) : after = program := by
  unfold plan at refused
  split at refused
  · exact absurd refused (perform_ne_refused _ _ _ _)
  · injection refused with _ sameProgram
    exact sameProgram.symm
  · simp at refused

/-- Putting an answer differently keeps refusals. -/
theorem map_eq_refused {change : α → β} {edit : Edit α} {program after : Program}
    {cause : Refusal} :
    edit.map change program = .refused cause after ↔ edit program = .refused cause after := by
  unfold map
  split <;> simp_all

end Edit

/-! ### Changes of one part of the program -/

namespace Step

/-- Change a node. -/
def modifyNode (value : ValueId) (change : Node → Node) : Step Unit := do
  let program ← get
  let _ ← program.node value
  set { program with values := program.values.modify value change }

/-- Change an edge. -/
def modifyEdge (edge : EdgeId) (change : Edge → Edge) : Step Unit := do
  let program ← get
  let _ ← program.edge edge
  set { program with edges := program.edges.modify edge change }

/-- Change what a block holds. -/
def modifyBlock (block : BlockId) (change : Block → Block) : Step Unit := do
  let data ← (← get).block block
  modifyNode block fun node => { node with payload := .block (change data) }

/-- Change what an instruction holds. -/
def modifyInst (inst : InstId) (change : Inst → Inst) : Step Unit := do
  let data ← (← get).inst inst
  modifyNode inst fun node => { node with payload := .inst (change data) }

/-- Change what a function holds. -/
def modifyFunction (function : FuncId) (change : Function → Function) : Step Unit := do
  let data ← (← get).function function
  modifyNode function fun node => { node with payload := .function (change data) }

/-- Change what a global holds. -/
def modifyGlobal (global : GlobalId) (change : Global → Global) : Step Unit := do
  let data ← (← get).global global
  modifyNode global fun node => { node with payload := .global (change data) }

/-- Add a node with one owning handle, held by the caller. -/
def addNode (type : TypeId) (payload : Payload) : Step ValueId := do
  let program ← get
  let (value, values) := program.values.insert (Node.fresh type payload)
  set { program with values }
  return value

/-- The type that a request asks for, registered if need be. -/
def requestType (request : TypeRequest) : Step TypeId := do
  let program ← get
  let (type, types) ← program.types.answer request
  set { program with types }
  return type

/-- The pointer to a type. -/
def pointerTo (type : TypeId) : Step TypeId :=
  requestType (.pointer type)

/-- A type without its outermost const qualifier. -/
def dropConst (type : TypeId) : Step TypeId :=
  requestType (.withoutConst type)

/-- The position of a name, kept from now on. -/
def internName (text : String) : Step Name := do
  let program ← get
  let (name, names) := program.names.intern text
  set { program with names }
  return name

end Step

end ValueGraph
