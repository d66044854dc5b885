import ValueGraph.Branching
import ValueGraph.Collection
import ValueGraph.Registers
import ValueGraph.Split

namespace ValueGraph

/-!
# Operations as data

Every edit that a client of a program can make is one value of `Operation`.
`Operation.run` carries it out, and `Program.runAll?` carries out a list of them
one after another.  What is reachable from an empty program by operations is
what the statements about all runs quantify over.
-/

/-- An edit of a program. -/
inductive Operation where
  | requestType (request : TypeRequest)
  -- constants
  | constSigned (type : TypeId) (value : Int64)
  | constUnsigned (type : TypeId) (bits : UInt64)
  | constBool (value : Bool)
  | constFloat (type : TypeId) (bits : UInt64)
  | constZero (type : TypeId)
  | constNull (type : TypeId)
  | constUndefined (type : TypeId)
  -- symbols
  | addFunction (name : String) (type : TypeId)
  | addGlobal (name : String) (content : TypeId) (initializer : Option ValueId)
  | rename (symbol : ValueId) (name : String)
  | setName (value : ValueId) (name : String)
  | setConstantGlobal (global : GlobalId) (isConstant : Bool)
  | setInitializer (global : GlobalId) (initializer : Option ValueId)
  | eraseFunction (function : FuncId)
  | eraseGlobal (global : GlobalId)
  -- blocks and functions
  | createBlock
  | addBlock (function : FuncId)
  | appendBlock (function : FuncId) (block : BlockId)
  | insertBlockAfter (anchor block : BlockId)
  | collectGarbage (function : FuncId)
  | enableRegisters (function : FuncId)
  | disableRegisters (function : FuncId)
  | allocateRegister (function : FuncId) (type : TypeId)
  | freeRegister (register : RegId)
  -- chains
  | pushBack (block : BlockId) (inst : InstId)
  | pushFront (block : BlockId) (inst : InstId)
  | insertBefore (anchor inst : InstId)
  | insertAfter (anchor inst : InstId)
  | remove (inst : InstId)
  | setTerminator (block : BlockId) (inst : InstId)
  | splitBlock (start : InstId)
  | eraseBlock (block : BlockId)
  -- factories
  | buildBinary (op : BinaryOp) (left right : ValueId)
  | buildCompare (comparison : Comparison) (left right : ValueId)
  | buildUnary (op : UnaryOp) (value : ValueId)
  | buildSelect (condition onTrue onFalse : ValueId)
  | buildCast (op : CastOp) (value : ValueId) (target : TypeId)
  | buildAutomaticCast (value : ValueId) (target : TypeId)
  | buildAlloca (type : TypeId) (align : Option UInt32)
  | buildLoad (pointer : ValueId) (align : Option UInt32)
  | buildStore (value pointer : ValueId) (align : Option UInt32)
  | buildElementPtr (base : ValueId) (indices : List ValueId)
  | buildPhi (type : TypeId)
  | buildCall (callee : ValueId) (arguments : List ValueId)
  | buildRet (value : Option ValueId)
  | buildBr (target : BlockId)
  | buildCondBr (condition : ValueId) (onTrue onFalse : BlockId)
  | buildSwitch (condition : ValueId) (default : BlockId)
  | buildUnreachable
  | buildRegWrite (register : RegId) (value : ValueId)
  -- phis and terminators
  | addIncoming (phi : InstId) (source : BlockId) (value : ValueId)
  | removeIncoming (phi : InstId) (source : BlockId)
  | removeTarget (inst : InstId) (target : BlockId)
  | replaceTarget (inst : InstId) (old new : BlockId)
  | replaceTargetOnce (inst : InstId) (old new : BlockId)
  | clearTargets (inst : InstId)
  | addCase (switch : InstId) (value : Int64) (target : BlockId)
  -- edges
  | setUse (edge : EdgeId) (value : Option ValueId)
  | replaceOperands (user pattern replacement : ValueId)
  | replaceUses (value replacement : ValueId)
  -- lifetime
  | retain (value : ValueId)
  | release (value : ValueId)
  | finalize (inst : InstId)
  | eraseInstruction (inst : InstId)

/-- The answer of an operation that was carried out. -/
inductive Reply where
  | done
  | value (value : ValueId)
  | optional (value : Option ValueId)
  | type (type : TypeId)
  | count (count : Nat)
  | flag (flag : Bool)
deriving DecidableEq

/-- The type that a request asks for, registered if need be. -/
def requestType (request : TypeRequest) : Edit TypeId :=
  .perform (Step.requestType request)

namespace Operation

/-- An edit that answers nothing. -/
def silent (edit : Edit Unit) : Edit Reply :=
  edit.map fun _ => .done

/-- Carry out an operation. -/
def run : Operation → Edit Reply
  | .requestType request => (ValueGraph.requestType request).map .type
  | .constSigned type value => (ValueGraph.constSigned type value).map .value
  | .constUnsigned type bits => (ValueGraph.constUnsigned type bits).map .value
  | .constBool value => (ValueGraph.constBool value).map .value
  | .constFloat type bits => (ValueGraph.constFloat type bits).map .value
  | .constZero type => (ValueGraph.constZero type).map .value
  | .constNull type => (ValueGraph.constNull type).map .value
  | .constUndefined type => (ValueGraph.constUndefined type).map .value
  | .addFunction name type => (ValueGraph.addFunction name type).map .value
  | .addGlobal name content initializer =>
      (ValueGraph.addGlobal name content initializer).map .value
  | .rename symbol name => silent (ValueGraph.rename symbol name)
  | .setName value name => silent (ValueGraph.setName value name)
  | .setConstantGlobal global isConstant =>
      silent (ValueGraph.setConstantGlobal global isConstant)
  | .setInitializer global initializer => silent (ValueGraph.setInitializer global initializer)
  | .eraseFunction function => silent (ValueGraph.eraseFunction function)
  | .eraseGlobal global => silent (ValueGraph.eraseGlobal global)
  | .createBlock => ValueGraph.createBlock.map .value
  | .addBlock function => (ValueGraph.addBlock function).map .value
  | .appendBlock function block => silent (ValueGraph.appendBlock function block)
  | .insertBlockAfter anchor block => silent (ValueGraph.insertBlockAfter anchor block)
  | .collectGarbage function => (ValueGraph.collectGarbage function).map .count
  | .enableRegisters function => silent (ValueGraph.enableRegisters function)
  | .disableRegisters function => silent (ValueGraph.disableRegisters function)
  | .allocateRegister function type => (ValueGraph.allocateRegister function type).map .value
  | .freeRegister register => silent (ValueGraph.freeRegister register)
  | .pushBack block inst => silent (ValueGraph.pushBack block inst)
  | .pushFront block inst => silent (ValueGraph.pushFront block inst)
  | .insertBefore anchor inst => silent (ValueGraph.insertBefore anchor inst)
  | .insertAfter anchor inst => silent (ValueGraph.insertAfter anchor inst)
  | .remove inst => silent (ValueGraph.remove inst)
  | .setTerminator block inst => (ValueGraph.setTerminator block inst).map .optional
  | .splitBlock start => (ValueGraph.splitBlock start).map .value
  | .eraseBlock block => silent (ValueGraph.eraseBlock block)
  | .buildBinary op left right => (ValueGraph.buildBinary op left right).map .value
  | .buildCompare comparison left right =>
      (ValueGraph.buildCompare comparison left right).map .value
  | .buildUnary op value => (ValueGraph.buildUnary op value).map .value
  | .buildSelect condition onTrue onFalse =>
      (ValueGraph.buildSelect condition onTrue onFalse).map .value
  | .buildCast op value target => (ValueGraph.buildCast op value target).map .value
  | .buildAutomaticCast value target => (ValueGraph.buildAutomaticCast value target).map .value
  | .buildAlloca type align => (ValueGraph.buildAlloca type align).map .value
  | .buildLoad pointer align => (ValueGraph.buildLoad pointer align).map .value
  | .buildStore value pointer align => (ValueGraph.buildStore value pointer align).map .value
  | .buildElementPtr base indices => (ValueGraph.buildElementPtr base indices).map .value
  | .buildPhi type => (ValueGraph.buildPhi type).map .value
  | .buildCall callee arguments => (ValueGraph.buildCall callee arguments).map .value
  | .buildRet value => (ValueGraph.buildRet value).map .value
  | .buildBr target => (ValueGraph.buildBr target).map .value
  | .buildCondBr condition onTrue onFalse =>
      (ValueGraph.buildCondBr condition onTrue onFalse).map .value
  | .buildSwitch condition default => (ValueGraph.buildSwitch condition default).map .value
  | .buildUnreachable => ValueGraph.buildUnreachable.map .value
  | .buildRegWrite register value => (ValueGraph.buildRegWrite register value).map .value
  | .addIncoming phi source value => silent (ValueGraph.addIncoming phi source value)
  | .removeIncoming phi source => (ValueGraph.removeIncoming phi source).map .flag
  | .removeTarget inst target => (ValueGraph.removeTarget inst target).map .count
  | .replaceTarget inst old new => (ValueGraph.replaceTarget inst old new).map .count
  | .replaceTargetOnce inst old new => (ValueGraph.replaceTargetOnce inst old new).map .flag
  | .clearTargets inst => (ValueGraph.clearTargets inst).map .count
  | .addCase switch value target => silent (ValueGraph.addCase switch value target)
  | .setUse edge value => silent (ValueGraph.setUse edge value)
  | .replaceOperands user pattern replacement =>
      (ValueGraph.replaceOperands user pattern replacement).map .count
  | .replaceUses value replacement => (ValueGraph.replaceUses value replacement).map .count
  | .retain value => (ValueGraph.retain value).map .count
  | .release value => (ValueGraph.release value).map .count
  | .finalize inst => silent (ValueGraph.finalize inst)
  | .eraseInstruction inst => silent (ValueGraph.eraseInstruction inst)

end Operation

/-- The program after an edit that did not meet a fault. -/
def Outcome.after? {α : Type} : Outcome α → Option Program
  | .done _ after => some after
  | .refused _ after => some after
  | .faulted _ => none

namespace Program

/-- The program after some operations, none of which met a fault. -/
def runAll? (program : Program) : List Operation → Option Program
  | [] => some program
  | operation :: rest => do
      let after ← (operation.run program).after?
      after.runAll? rest

end Program

end ValueGraph
