import ValueGraph.Ownership

namespace ValueGraph

/-!
# Registers

A function can have a file of mutable registers.  Each register has a slot; a
register that is given back leaves its slot to the next one granted.
-/

namespace Program

/-- Whether a function has no register file. -/
def isSsa (program : Program) (function : FuncId) : Except Fault Bool := do
  return (← program.function function).registers.isNone

/-- The registers of a function in the order in which they were granted. -/
def registers (program : Program) (function : FuncId) : Except Fault (List RegId) := do
  return ((← program.function function).registers.map (·.live)).getD []

end Program

namespace RegisterFile

/-- The slot that the next register gets, and the file without it. -/
def takeSlot (file : RegisterFile) : Nat × RegisterFile :=
  match file.free with
  | slot :: rest => (slot, { file with free := rest })
  | [] => (file.next, { file with next := file.next + 1 })

end RegisterFile

namespace Step

/-- Replace the register file of a function. -/
def setRegisters (function : FuncId) (file : Option RegisterFile) : Step Unit :=
  modifyFunction function fun data => { data with registers := file }

/-- Grant a register from a file. -/
def grantRegister (function : FuncId) (file : RegisterFile) (type : TypeId) : Step RegId := do
  let (slot, file) := file.takeSlot
  let register ← addNode type (.register { parent := function, slot })
  setRegisters function (some { file with live := file.live ++ [register] })
  return register

/-- Give a register back to a file. -/
def returnRegister (register : RegId) (data : Register) (file : RegisterFile) : Step Unit := do
  setRegisters data.parent (some
    { file with live := file.live.filter (· != register), free := data.slot :: file.free })
  dropHandle register

end Step

/-- Give a function a register file if it has none. -/
def enableRegisters (function : FuncId) : Edit Unit :=
  .plan fun program => do
    match (← program.function function).registers with
    | some _ => return pure ()
    | none => return Step.setRegisters function (some RegisterFile.initial)

/-- Take the register file of a function away once it has no registers. -/
def disableRegisters (function : FuncId) : Edit Unit :=
  .plan fun program => do
    match (← program.function function).registers with
    | none => refuseRegister .disabled
    | some file =>
        if file.live.isEmpty then
          return Step.setRegisters function none
        else
          refuseRegister (.inUse file.live.length)

/-- Grant a register for values of a type. -/
def allocateRegister (function : FuncId) (type : TypeId) : Edit RegId :=
  .plan fun program => do
    match (← program.function function).registers with
    | none => refuseRegister .disabled
    | some file =>
        if ← program.types.isStorable type then
          return Step.grantRegister function file type
        else
          refuseRegister (.unstorable type)

/-- Give a register back once nothing reads or writes it. -/
def freeRegister (register : RegId) : Edit Unit :=
  .plan fun program => do
    match program.register? register with
    | none => refuseRegister .notARegister
    | some data =>
        let users := (← program.usedBy register).length
        if 0 < users then
          refuseRegister (.stillUsed users)
        else
          match (← program.function data.parent).registers with
          | none => refuseRegister .disabled
          | some file => return Step.returnRegister register data file

end ValueGraph
