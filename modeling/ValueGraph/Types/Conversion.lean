import ValueGraph.Types.Equality
import ValueGraph.Types.Measure

namespace ValueGraph

/-!
# Conversions between types

A conversion is implicit when the value can be used as it is, static when an
instruction converts it, and a reinterpretation when its bits are read anew.
-/

/-- The ways in which a value of one type becomes a value of another. -/
structure Conversions where
  implicit : Bool
  static : Bool
  reinterpret : Bool
deriving DecidableEq

namespace Conversions

/-- No conversion at all. -/
def none : Conversions :=
  { implicit := false, static := false, reinterpret := false }

/-- One bit per way: implicit 1, static 2, reinterpretation 4. -/
def mask (ways : Conversions) : Nat :=
  (if ways.implicit then 1 else 0) + (if ways.static then 2 else 0) +
    (if ways.reinterpret then 4 else 0)

end Conversions

namespace TypeTable

/-- Whether a bounded parallel descent meets a pointer to const data on the left
whose counterpart points at data that is not const. -/
def dropsConstWithin
    (table : TypeTable) :
    Nat → TypeId → TypeId → Except Fault Bool
  | 0, _, _ => .error .endless
  | fuel + 1, source, target => do
      match ← table.shape source, ← table.shape target with
      | .pointer pointee, .pointer pointee' =>
          if (← table.isConst pointee) && !(← table.isConst pointee') then
            return true
          else
            table.dropsConstWithin fuel pointee pointee'
      | .array element _, .array element' _ =>
          table.dropsConstWithin fuel element element'
      | _, _ => return false

/-- Whether some pointer layer of the source points at const data while the
matching layer of the target does not. -/
def dropsConst (table : TypeTable) (source target : TypeId) : Except Fault Bool :=
  table.dropsConstWithin (source.index + 1) source target

/-- Whether two types are scalars of one width. -/
def sameWidth (table : TypeTable) (source target : TypeId) : Except Fault Bool := do
  match ← table.scalarBits? source, ← table.scalarBits? target with
  | some bits, some bits' => return bits == bits'
  | _, _ => return false

/-- The ways in which a value of the source type becomes one of the target type. -/
def conversions (table : TypeTable) (source target : TypeId) : Except Fault Conversions := do
  let reinterpret ← table.sameWidth source target
  if ← table.equal source target then
    let drops ← table.dropsConst source target
    return { implicit := !drops, static := true, reinterpret }
  match ← table.shape source, ← table.shape target with
  | .int _ _, .int _ _
  | .float _ _ _, .float _ _ _
  | .int _ _, .float _ _ _
  | .float _ _ _, .int _ _
  | .pointer _, .int _ _
  | .int _ _, .pointer _ => return { implicit := false, static := true, reinterpret }
  | .pointer _, .pointer _ => return { Conversions.none with reinterpret := true }
  | _, _ => return Conversions.none

end TypeTable

end ValueGraph
