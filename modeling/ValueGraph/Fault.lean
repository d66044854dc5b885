import ValueGraph.Handle

namespace ValueGraph

/-!
# Faults

A fault ends a run.  It arises when a caller breaks the ownership discipline of
the graph, reads through a handle that names nothing, or asks for a number that
does not fit its word.  Each cause is one constructor; `Fault.message` gives its
wording.
-/

/-- A breach of the ownership discipline. -/
inductive Corruption where
  /-- A node was destroyed while the listed nodes still read it. -/
  | destroyed (label : String) (users : List String)
  /-- The handle that a container holds on its member was given up from outside. -/
  | releasedAttached (label : String)
  /-- An owning handle was copied from a node that is gone. -/
  | retainedStale
  /-- An owning handle was given up on a node that is gone. -/
  | releasedStale
deriving DecidableEq

/-- The causes that end a run. -/
inductive Fault where
  /-- A read or write through a handle whose slot holds something else or nothing. -/
  | stale (index : Nat) (generation : UInt32)
  /-- A table was read past its end. -/
  | outOfRange (size index : Nat)
  /-- A type was described in terms of a type that is not registered yet. -/
  | foreignType
  /-- A sum left its word. -/
  | sumOverflow
  /-- A word was shifted by as many bits as it has, or more. -/
  | shiftOverflow (direction : String)
  /-- An element was taken out of a sequence past its end. -/
  | removalPastEnd (index size : Nat)
  /-- A sequence was cut past its end. -/
  | cutPastEnd (index size : Nat)
  /-- The user of an edge does not list that edge. -/
  | unlistedEdge
  /-- A handle names a live node of another category. -/
  | wrongCategory
  /-- A chain of links runs in a circle. -/
  | endless
  | corruption (cause : Corruption)
deriving DecidableEq

/-- What went wrong, without the leading phrase shared by all breaches. -/
def Corruption.text : Corruption → String
  | .destroyed label [] => "destroyed " ++ label
  | .destroyed label users =>
      "destroyed " ++ label ++ "; remaining users: " ++ ", ".intercalate users
  | .releasedAttached label => "released the owning handle of attached " ++ label
  | .retainedStale => "retained a stale owning handle"
  | .releasedStale => "released a stale owning handle"

/-- The wording of a fault. -/
def Fault.message : Fault → String
  | .stale index generation =>
      "stale arena handle " ++ (Handle.mk index generation : Handle Unit).text
  | .outOfRange size index =>
      "index out of bounds: the len is " ++ toString size ++
        " but the index is " ++ toString index
  | .foreignType => "type entry refers to a handle outside this context"
  | .sumOverflow => "attempt to add with overflow"
  | .shiftOverflow direction => "attempt to shift " ++ direction ++ " with overflow"
  | .removalPastEnd index size =>
      "removal index (is " ++ toString index ++
        ") should be < len (is " ++ toString size ++ ")"
  | .cutPastEnd index size =>
      "`at` split index (is " ++ toString index ++
        ") should be <= len (is " ++ toString size ++ ")"
  | .unlistedEdge =>
      "internal error: entered unreachable code: use is not listed by its user"
  | .wrongCategory => "handle names a value of another category"
  | .endless => "chain of links does not end"
  | .corruption cause => "graph corruption: " ++ cause.text

/-- The fault of reading through a handle that names nothing. -/
def Fault.ofHandle {space : Type} (handle : Handle space) : Fault :=
  .stale handle.index handle.generation

end ValueGraph
