import ValueGraph.Types.Table

namespace ValueGraph

/-!
# Rendering of types

Types read left to right from the innermost layer: `const` in front of the layer
it qualifies, `*` behind a pointee, a bracketed length in front of an element,
and a parenthesised list of parameters behind a result.  The two standard floats
have names of their own; other floats list their widths and radix.
-/

namespace Shape

/-- An integer type. -/
def intText (bits : UInt32) (signed : Bool) : String :=
  (if signed then "i" else "u") ++ toString bits.toNat

/-- A float type. -/
def floatText (exponent fraction radix : UInt32) : String :=
  if exponent = 8 ∧ fraction = 23 ∧ radix = 2 then
    "f32"
  else if exponent = 11 ∧ fraction = 52 ∧ radix = 2 then
    "f64"
  else
    "float<" ++ toString exponent.toNat ++ ", " ++ toString fraction.toNat ++ ", " ++
      toString radix.toNat ++ ">"

/-- A function type, from the texts of its parts. -/
def functionText (result : String) (params : List String) (variadic : Bool) : String :=
  result ++ " (" ++ ", ".intercalate (params ++ if variadic then ["..."] else []) ++ ")"

end Shape

namespace TypeTable

/-- The text of a type reached by a bounded descent. -/
def textWithin (table : TypeTable) : Nat → TypeId → Except Fault String
  | 0, _ => .error .endless
  | fuel + 1, type => do
      let entry ← table.entry type
      let body ← match entry.shape with
        | .void => pure "void"
        | .label => pure "label"
        | .int bits signed => pure (Shape.intText bits signed)
        | .float exponent fraction radix => pure (Shape.floatText exponent fraction radix)
        | .array element length => do
            let text ← table.textWithin fuel element
            pure ("[" ++ toString length.toNat ++ " x " ++ text ++ "]")
        | .pointer pointee => do
            let text ← table.textWithin fuel pointee
            pure (text ++ "*")
        | .function signature => do
            let result ← table.textWithin fuel signature.result
            let params ← signature.params.mapM (table.textWithin fuel)
            pure (Shape.functionText result params signature.variadic)
      return (if entry.isConst then "const " else "") ++ body

/-- The text of a type. -/
def text (table : TypeTable) (type : TypeId) : Except Fault String :=
  table.textWithin (type.index + 1) type

end TypeTable

end ValueGraph
