import ValueGraph.Operands

namespace ValueGraph

/-!
# Symbols

Functions and globals share one space of names.  The program owns the symbols
that it lists.
-/

namespace Program

/-- The function or global found under a name. -/
def symbol? (program : Program) (text : String) : Option ValueId := do
  let name ← program.names.find? text
  program.symbols.lookup name

/-- The function found under a name. -/
def functionNamed? (program : Program) (text : String) : Option FuncId :=
  (program.symbol? text).filter program.isFunction

/-- The global found under a name. -/
def globalNamed? (program : Program) (text : String) : Option GlobalId :=
  (program.symbol? text).filter program.isGlobal

/-- The initializer of a global. -/
def initializer? (program : Program) (global : GlobalId) : Except Fault (Option ValueId) :=
  program.operand? global 0

/-- Refuse a name that is taken. -/
def requireNameFree (program : Program) (text : String) : Except Halt Unit :=
  if (program.symbol? text).isSome then refuseSymbol (.duplicate text) else return ()

/-- Refuse an initializer that is not a constant of the content's type. -/
def checkInitializer (program : Program) (content : TypeId) (initializer : ValueId) :
    Except Halt Unit := do
  if program.isConstant initializer then
    if ← program.types.equal (← program.typeOf initializer) content then
      return ()
    else
      refuseSymbol .invalidInitializer
  else
    refuseSymbol .invalidInitializer

end Program

namespace Step

/-- Register a symbol under a name. -/
def registerSymbol (symbol : ValueId) (text : String) : Step Unit := do
  let name ← internName text
  modifyNode symbol fun node => { node with name := some name }
  modify fun program => { program with symbols := program.symbols ++ [(name, symbol)] }

/-- Strike out the entry of a symbol under its own name. -/
def unregisterSymbol (symbol : ValueId) : Step Unit := do
  let program ← get
  match (← program.node symbol).name with
  | some name =>
      if program.symbols.lookup name = some symbol then
        set { program with symbols := program.symbols.filter (·.1 != name) }
  | none => return ()

/-- Add the arguments of a function, from a position on. -/
def addArguments (function : FuncId) : Nat → List TypeId → Step (List ValueId)
  | _, [] => return []
  | index, type :: rest => do
      let argument ← addNode type (.argument { parent := function, index })
      return argument :: (← addArguments function (index + 1) rest)

/-- Add a function of a function type, with its arguments. -/
def addFunctionNode (type : TypeId) : Step FuncId := do
  let pointer ← pointerTo type
  let function ← addNode pointer
    (.function { type, params := [], body := none, registers := none })
  let params := ((← (← get).types.signature? type).map (·.params)).getD []
  let arguments ← addArguments function 0 params
  modifyFunction function fun data => { data with params := arguments }
  return function

/-- Add a global for values of a type. -/
def addGlobalNode (content : TypeId) (initializer : Option ValueId) : Step GlobalId := do
  let pointer ← pointerTo content
  let global ← addNode pointer (.global { content, isConstant := false })
  match initializer with
  | some initializer => addOperand global (.fixed 0) initializer
  | none => pure ()
  return global

end Step

/-- Declare a function. -/
def addFunction (text : String) (type : TypeId) : Edit FuncId :=
  .plan fun program => do
    program.requireNameFree text
    if ← program.types.isFunction type then
      return do
        let function ← Step.addFunctionNode type
        Step.registerSymbol function text
        modify fun program => { program with functions := program.functions ++ [function] }
        return function
    else
      refuseSymbol (.invalidType type)

/-- Define a global that holds a value of a type. -/
def addGlobal (text : String) (content : TypeId) (initializer : Option ValueId) :
    Edit GlobalId :=
  .plan fun program => do
    program.requireNameFree text
    if ← program.types.isStorable content then
      match initializer with
      | some initializer => program.checkInitializer content initializer
      | none => pure ()
      return do
        let global ← Step.addGlobalNode content initializer
        Step.registerSymbol global text
        modify fun program => { program with globals := program.globals ++ [global] }
        return global
    else
      refuseSymbol (.invalidType content)

namespace Program

/-- Find how a symbol comes under another name, or refuse it. -/
def planRename (program : Program) (symbol : ValueId) (text : String) :
    Except Halt (Step Unit) :=
  if program.isFunction symbol || program.isGlobal symbol then
    match program.symbol? text with
    | some taken =>
        if taken = symbol then return pure () else refuseSymbol (.duplicate text)
    | none => return do
        Step.unregisterSymbol symbol
        Step.registerSymbol symbol text
  else
    refuseSymbol .notASymbol

end Program

/-- Move a function or global to another name. -/
def rename (symbol : ValueId) (text : String) : Edit Unit :=
  .plan fun program => program.planRename symbol text

/-- Name a value; a function or global is moved to the name. -/
def setName (value : ValueId) (text : String) : Edit Unit :=
  .plan fun program => do
    if (← program.payload value).isSymbol then
      program.planRename value text
    else
      return do
        let name ← Step.internName text
        Step.modifyNode value fun node => { node with name := some name }

/-- Say whether the content of a global may change. -/
def setConstantGlobal (global : GlobalId) (isConstant : Bool) : Edit Unit :=
  .perform (Step.modifyGlobal global fun data => { data with isConstant })

/-- Replace or remove the initializer of a global. -/
def setInitializer (global : GlobalId) (initializer : Option ValueId) : Edit Unit :=
  .plan fun program => do
    let content := (← program.global global).content
    match initializer with
    | some initializer => program.checkInitializer content initializer
    | none => pure ()
    if initializer = (← program.initializer? global) then
      return pure ()
    else
      return do
        Step.clearOperands global
        match initializer with
        | some initializer => Step.addOperand global (.fixed 0) initializer
        | none => return ()

end ValueGraph
