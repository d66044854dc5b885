import ValueGraph.Fault

namespace ValueGraph

/-!
# Names

Every name a program uses is kept once; a `Name` is its position.  The empty
name is always the first.
-/

/-- The position of a kept name. -/
structure Name where
  index : Nat
deriving DecidableEq

namespace Name

/-- The empty name. -/
def anonymous : Name := ⟨0⟩

/-- A name's position, as diagnostics show it. -/
def text (name : Name) : String :=
  "Name(" ++ toString name.index ++ ")"

end Name

/-- The names kept so far, in the order in which they were first met. -/
structure NameTable where
  texts : Array String
deriving DecidableEq

namespace NameTable

/-- A table with the empty name alone. -/
def initial : NameTable :=
  { texts := #[""] }

/-- Number of names kept. -/
def size (table : NameTable) : Nat :=
  table.texts.size

/-- The position of a text, if it is kept. -/
def find? (table : NameTable) (text : String) : Option Name :=
  (table.texts.idxOf? text).map Name.mk

/-- The position of a text, which is kept from now on. -/
def intern (table : NameTable) (text : String) : Name × NameTable :=
  match table.find? text with
  | some name => (name, table)
  | none => (⟨table.texts.size⟩, { texts := table.texts.push text })

/-- The text of a name; a fault for a name of another table. -/
def text (table : NameTable) (name : Name) : Except Fault String :=
  match table.texts[name.index]? with
  | some text => .ok text
  | none => .error (.outOfRange table.texts.size name.index)

end NameTable

end ValueGraph
