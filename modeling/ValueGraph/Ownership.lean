import ValueGraph.Edit

namespace ValueGraph

/-!
# Owning handles

A node lives as long as someone owns it.  Blocks own their instructions,
functions own their blocks, arguments and registers, the program owns the symbols
that it lists, and every edge that reads a constant owns it.  When the last
handle on a node goes, nothing may read the node any more.
-/

namespace Program

/-- The users of a value that are not instructions accepted by a test, each as
often as it reads the value. -/
def usersOutside
    (program : Program)
    (value : ValueId)
    (inside : InstId → Except Fault Bool) :
    Except Fault (List ValueId) := do
  let users ← (← program.usedBy value).mapM program.edgeUser
  users.filterM fun user =>
    if program.isInst user then return !(← inside user) else return true

/-- A fault unless every user of a value is an instruction accepted by a test. -/
def checkUsersWithin
    (program : Program)
    (value : ValueId)
    (inside : InstId → Except Fault Bool) :
    Except Fault Unit := do
  let outside ← program.usersOutside value inside
  unless outside.isEmpty do
    let labels ← outside.mapM program.describe
    throw (.corruption (.destroyed (← program.describe value) labels))

/-- A fault if anything reads a value. -/
def checkUnused (program : Program) (value : ValueId) : Except Fault Unit :=
  program.checkUsersWithin value fun _ => return false

/-- Whether a container holds the owning handle of a node. -/
def isOwnedByContainer (program : Program) (value : ValueId) : Except Fault Bool := do
  match ← program.payload value with
  | .constant _ => return false
  | .inst inst => return inst.status == .connected || inst.status == .reparent
  | .block block => return block.parent.isSome
  | .function _ | .global _ => return program.symbols.any (·.2 == value)
  | .argument argument => return program.isLive argument.parent
  | .register register => return program.isLive register.parent

end Program

namespace Step

/-- Add an owning handle on behalf of the graph. -/
def retainHandle (value : ValueId) : Step Unit := do
  let program ← get
  match program.values.retain? value with
  | some (_, values) => set { program with values }
  | none => throw (.corruption .retainedStale)

/-- Give up an owning handle on a node that has nothing left to tear down.  The
last handle takes the node out of the graph, and then nothing may read it. -/
def dropHandle (value : ValueId) : Step Unit := do
  let program ← get
  if program.values.count? value = some 1 then
    program.checkUnused value
  match program.values.release? value with
  | some (_, values) => set { program with values }
  | none => throw (.corruption .releasedStale)

end Step

/-- Copy an owning handle; the new count. -/
def retain (value : ValueId) : Edit Nat :=
  .plan fun program =>
    match program.values.retain? value with
    | some (count, values) => return do
        modify fun program => { program with values }
        return count
    | none => refuse (.missing .handle)

end ValueGraph
