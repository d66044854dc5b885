import ValueGraph.Fault
import ValueGraph.Types.Shape

namespace ValueGraph

/-!
# The table of types

Every type is registered once: registering an entry that the table already has
gives the identifier it was first given.  Thirteen builtin types come first.
An entry may refer only to types registered before it, so the layers of a type
have falling identifiers and every descent through them ends.

Types are found by their entries.  Integers are asked for so often that they have
an index of their own, by width, sign and const.
-/

/-- The registered types of one program and the width of its pointers. -/
structure TypeTable where
  entries : Array TypeEntry
  /-- The type of each entry, the latest first. -/
  index : List (TypeEntry × TypeId)
  /-- The type of each integer, the latest first. -/
  ints : List (IntKey × TypeId)
  pointerBits : UInt32
deriving DecidableEq

namespace TypeTable

/-- Number of registered types. -/
def size (table : TypeTable) : Nat :=
  table.entries.size

/-- The entry of a type; a fault for an identifier that is not registered. -/
def entry (table : TypeTable) (type : TypeId) : Except Fault TypeEntry :=
  match table.entries[type.index]? with
  | some entry => .ok entry
  | none => .error (.outOfRange table.entries.size type.index)

/-- The outermost layer of a type. -/
def shape (table : TypeTable) (type : TypeId) : Except Fault Shape := do
  return (← table.entry type).shape

/-- Whether a type is const at its outermost layer. -/
def isConst (table : TypeTable) (type : TypeId) : Except Fault Bool := do
  return (← table.entry type).isConst

/-- The type registered for an entry, if there is one. -/
def find? (table : TypeTable) (entry : TypeEntry) : Option TypeId :=
  table.index.lookup entry

/-- The type registered for an integer, if there is one. -/
def findInt? (table : TypeTable) (key : IntKey) : Option TypeId :=
  table.ints.lookup key

/-- Put an entry behind the others and into the indexes. -/
def enter (table : TypeTable) (entry : TypeEntry) : TypeId × TypeTable :=
  let type : TypeId := ⟨table.entries.size⟩
  (type,
    { table with
      entries := table.entries.push entry
      index := (entry, type) :: table.index
      ints := entry.intKey?.toList.map (·, type) ++ table.ints })

/-- The type of an entry, registering it when the table does not have it yet.
The layers below it must be registered. -/
def register
    (table : TypeTable)
    (entry : TypeEntry) :
    Except Fault (TypeId × TypeTable) :=
  match (entry.intKey?.bind table.findInt?).or (table.find? entry) with
  | some type => .ok (type, table)
  | none =>
      if entry.shape.children.all (·.index < table.entries.size) then
        .ok (table.enter entry)
      else
        .error .foreignType

/-- The same type with its outermost const qualifier set as asked. -/
def requalify
    (table : TypeTable)
    (type : TypeId)
    (isConst : Bool) :
    Except Fault (TypeId × TypeTable) := do
  let entry ← table.entry type
  if entry.isConst = isConst then
    return (type, table)
  else
    table.register { entry with isConst }

/-! ### Fresh tables -/

/-- The entries that every table registers first. -/
def builtins : List TypeEntry :=
  [Shape.void, .label,
    .int 1 false, .int 8 true, .int 16 true, .int 32 true, .int 64 true,
    .int 8 false, .int 16 false, .int 32 false, .int 64 false,
    .float 8 23 2, .float 11 52 2].map Shape.entry

/-- The narrowest pointer, in bits. -/
def leastPointerBits : UInt32 := 8

/-- A table without types.  Pointers are never narrower than a byte. -/
def empty (bits : UInt32) : TypeTable :=
  { entries := #[], index := [], ints := [], pointerBits := max bits leastPointerBits }

/-- A fresh table. -/
def ofPointerBits (bits : UInt32) : TypeTable :=
  builtins.foldl (fun table entry => (table.enter entry).2) (empty bits)

/-! ### Kinds and parts -/

def isVoid (table : TypeTable) (type : TypeId) : Except Fault Bool := do
  match ← table.shape type with
  | .void => return true
  | _ => return false

def isLabel (table : TypeTable) (type : TypeId) : Except Fault Bool := do
  match ← table.shape type with
  | .label => return true
  | _ => return false

def isInt (table : TypeTable) (type : TypeId) : Except Fault Bool := do
  match ← table.shape type with
  | .int _ _ => return true
  | _ => return false

def isFloat (table : TypeTable) (type : TypeId) : Except Fault Bool := do
  match ← table.shape type with
  | .float _ _ _ => return true
  | _ => return false

def isPointer (table : TypeTable) (type : TypeId) : Except Fault Bool := do
  match ← table.shape type with
  | .pointer _ => return true
  | _ => return false

def isArray (table : TypeTable) (type : TypeId) : Except Fault Bool := do
  match ← table.shape type with
  | .array _ _ => return true
  | _ => return false

def isFunction (table : TypeTable) (type : TypeId) : Except Fault Bool := do
  match ← table.shape type with
  | .function _ => return true
  | _ => return false

/-- Whether a type is an integer or a float. -/
def isArithmetic (table : TypeTable) (type : TypeId) : Except Fault Bool := do
  match ← table.shape type with
  | .int _ _ | .float _ _ _ => return true
  | _ => return false

/-- Whether a type is a signed integer. -/
def isSigned (table : TypeTable) (type : TypeId) : Except Fault Bool := do
  match ← table.shape type with
  | .int _ signed => return signed
  | _ => return false

/-- Whether values of the type reached by a bounded descent can be stored. -/
def storableWithin (table : TypeTable) : Nat → TypeId → Except Fault Bool
  | 0, _ => .error .endless
  | fuel + 1, type => do
      match ← table.shape type with
      | .void | .label | .function _ => return false
      | .array element _ => table.storableWithin fuel element
      | .int _ _ | .float _ _ _ | .pointer _ => return true

/-- Whether values of a type can be stored: `void`, labels and bare function
types cannot, and an array can when its element can. -/
def isStorable (table : TypeTable) (type : TypeId) : Except Fault Bool :=
  table.storableWithin (type.index + 1) type

/-- The type behind a pointer. -/
def pointee? (table : TypeTable) (type : TypeId) : Except Fault (Option TypeId) := do
  match ← table.shape type with
  | .pointer pointee => return some pointee
  | _ => return none

/-- The type one layer down from a pointer or an array. -/
def element? (table : TypeTable) (type : TypeId) : Except Fault (Option TypeId) := do
  match ← table.shape type with
  | .pointer pointee => return some pointee
  | .array element _ => return some element
  | _ => return none

/-- The number of elements of an array type. -/
def arrayLength? (table : TypeTable) (type : TypeId) : Except Fault (Option UInt64) := do
  match ← table.shape type with
  | .array _ length => return some length
  | _ => return none

/-- The parts of a function type. -/
def signature? (table : TypeTable) (type : TypeId) : Except Fault (Option Signature) := do
  match ← table.shape type with
  | .function signature => return some signature
  | _ => return none

end TypeTable

end ValueGraph
