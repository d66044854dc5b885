import ValueGraph.Types.Table

namespace ValueGraph

/-!
# Equality of types

Two identifiers are the same type, const included, when they are equal.  Two
looser levels compare the layers: both ignore const everywhere, and the weak
level ignores the sign of integers as well.
-/

namespace TypeTable

/-- Compare two types layer by layer, descending at most so many layers.
Equal identifiers are equal types without being looked up. -/
def agreeWithin
    (table : TypeTable)
    (ignoreSign : Bool) :
    Nat → TypeId → TypeId → Except Fault Bool
  | 0, _, _ => .error .endless
  | fuel + 1, first, second => do
      if first = second then
        return true
      match ← table.shape first, ← table.shape second with
      | .void, .void | .label, .label => return true
      | .int bits signed, .int bits' signed' =>
          return bits == bits' && (ignoreSign || signed == signed')
      | .float exponent fraction radix, .float exponent' fraction' radix' =>
          return exponent == exponent' && fraction == fraction' && radix == radix'
      | .array element length, .array element' length' =>
          if length == length' then
            table.agreeWithin ignoreSign fuel element element'
          else
            return false
      | .pointer pointee, .pointer pointee' =>
          table.agreeWithin ignoreSign fuel pointee pointee'
      | .function signature, .function signature' =>
          if signature.variadic == signature'.variadic &&
              signature.params.length == signature'.params.length then
            if ← table.agreeWithin ignoreSign fuel signature.result signature'.result then
              (signature.params.zip signature'.params).allM fun (param, param') =>
                table.agreeWithin ignoreSign fuel param param'
            else
              return false
          else
            return false
      | _, _ => return false

/-- Same shape and sign, const ignored at every layer. -/
def equal (table : TypeTable) (first second : TypeId) : Except Fault Bool :=
  table.agreeWithin false (first.index + 1) first second

/-- Same shape, sign and const ignored at every layer. -/
def weakEqual (table : TypeTable) (first second : TypeId) : Except Fault Bool :=
  table.agreeWithin true (first.index + 1) first second

end TypeTable

end ValueGraph
