import ValueGraph.Types.Table

namespace ValueGraph

/-!
# Requests for types

Every way to ask a table for a type is one value of `TypeRequest`.  A request is
answered by a type that the table has from then on; it meets a fault when it
speaks of a type that the table does not have.
-/

/-- A request for a type. -/
inductive TypeRequest where
  | register (entry : TypeEntry)
  | int (bits : UInt32) (signed : Bool)
  | float (exponent fraction radix : UInt32)
  | array (element : TypeId) (length : UInt64)
  | pointer (pointee : TypeId)
  | function (signature : Signature)
  | withConst (type : TypeId) (isConst : Bool)
  | withoutConst (type : TypeId)
deriving DecidableEq

namespace TypeTable

/-- The integer type without const, looked for among the integers first. -/
def int (table : TypeTable) (bits : UInt32) (signed : Bool) :
    Except Fault (TypeId × TypeTable) :=
  match table.findInt? { bits, signed, isConst := false } with
  | some type => .ok (type, table)
  | none => table.register (Shape.int bits signed).entry

/-- The answer to a request and the table from then on. -/
def answer (table : TypeTable) : TypeRequest → Except Fault (TypeId × TypeTable)
  | .register entry => table.register entry
  | .int bits signed => table.int bits signed
  | .float exponent fraction radix => table.register (Shape.float exponent fraction radix).entry
  | .array element length => table.register (Shape.array element length).entry
  | .pointer pointee => table.register (Shape.pointer pointee).entry
  | .function signature => table.register (Shape.function signature).entry
  | .withConst type isConst => table.requalify type isConst
  | .withoutConst type => table.requalify type false

/-- The answers to some requests, one after another, and the table from then on. -/
def answerAll (table : TypeTable) : List TypeRequest → Except Fault (List TypeId × TypeTable)
  | [] => return ([], table)
  | request :: rest => do
      let (type, table) ← table.answer request
      let (types, table) ← table.answerAll rest
      return (type :: types, table)

end TypeTable

/-- The request for a type with a given outermost layer. -/
def Shape.request : Shape → TypeRequest
  | .int bits signed => .int bits signed
  | .float exponent fraction radix => .float exponent fraction radix
  | .array element length => .array element length
  | .pointer pointee => .pointer pointee
  | .function signature => .function signature
  | shape => .register shape.entry

end ValueGraph
