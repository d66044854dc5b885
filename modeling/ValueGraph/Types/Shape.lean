namespace ValueGraph

/-!
# Type descriptors

A type is described one layer at a time.  The layers below are given by the
identifiers of types that are already registered, so comparing two descriptors
is shallow.
-/

/-- The position of a registered type in its table. -/
structure TypeId where
  index : Nat
deriving DecidableEq

namespace TypeId

def void : TypeId := ⟨0⟩
def label : TypeId := ⟨1⟩

/-- The unsigned integer of one bit, which comparisons produce. -/
def bool : TypeId := ⟨2⟩

/-- The names of the types that every table registers first, in that order. -/
def builtinNames : List String :=
  ["void", "label", "u1", "i8", "i16", "i32", "i64", "u8", "u16", "u32", "u64", "f32", "f64"]

/-- The name of a type that every table registers first. -/
def builtinName? (type : TypeId) : Option String :=
  builtinNames[type.index]?

/-- The type that every table registers under a name. -/
def ofBuiltinName? (name : String) : Option TypeId :=
  (builtinNames.idxOf? name).map TypeId.mk

/-- Whether every table registers this type first. -/
def isBuiltin (type : TypeId) : Bool :=
  type.index < builtinNames.length

/-- A type identifier as diagnostics show it. -/
def text (type : TypeId) : String :=
  "Ty(" ++ (type.builtinName?.getD (toString type.index)) ++ ")"

end TypeId

/-- The parts of a function type. -/
structure Signature where
  result : TypeId
  params : List TypeId
  variadic : Bool
deriving DecidableEq

/-- The outermost layer of a type. -/
inductive Shape where
  | void
  | label
  | int (bits : UInt32) (signed : Bool)
  /-- Exponent and fraction widths in bits, and the radix. -/
  | float (exponent fraction radix : UInt32)
  | array (element : TypeId) (length : UInt64)
  | pointer (pointee : TypeId)
  | function (signature : Signature)
deriving DecidableEq

namespace Shape

/-- The types that a layer is built from. -/
def children : Shape → List TypeId
  | .array element _ => [element]
  | .pointer pointee => [pointee]
  | .function signature => signature.result :: signature.params
  | _ => []

end Shape

/-- A layer together with its const qualifier: the unit of registration. -/
structure TypeEntry where
  shape : Shape
  isConst : Bool
deriving DecidableEq

/-- An entry without const. -/
def Shape.entry (shape : Shape) : TypeEntry :=
  { shape, isConst := false }

/-- What tells integer types apart. -/
structure IntKey where
  bits : UInt32
  signed : Bool
  isConst : Bool
deriving DecidableEq

/-- The entry of an integer type. -/
def IntKey.entry (key : IntKey) : TypeEntry :=
  { shape := .int key.bits key.signed, isConst := key.isConst }

/-- The key of an entry that is an integer. -/
def TypeEntry.intKey? (entry : TypeEntry) : Option IntKey :=
  match entry.shape with
  | .int bits signed => some { bits, signed, isConst := entry.isConst }
  | _ => none

end ValueGraph
