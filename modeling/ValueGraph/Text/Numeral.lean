namespace ValueGraph.Text

/-!
# Decimal numerals

A numeral is a non-empty row of ASCII digits, with an optional sign in front.
A minus sign belongs to signed numerals only.  Reading fails on anything else
and on numbers outside the stated bounds.
-/

/-- The number written by a non-empty row of ASCII digits. -/
def digits? (chars : List Char) : Option Nat :=
  if chars.isEmpty then
    none
  else
    chars.foldl
      (fun number? char => do
        let number ← number?
        if char.isDigit then some (number * 10 + (char.toNat - '0'.toNat)) else none)
      (some 0)

/-- A numeral without a minus sign, below a limit. -/
def unsigned? (limit : Nat) (chars : List Char) : Option Nat := do
  let number ← match chars with
    | '+' :: rest => digits? rest
    | _ => digits? chars
  if number < limit then some number else none

/-- A numeral with an optional sign, from `-limit` up to but without `limit`. -/
def signed? (limit : Nat) (chars : List Char) : Option Int := do
  let number ← match chars with
    | '-' :: rest => (digits? rest).map fun number => -(number : Int)
    | '+' :: rest => (digits? rest).map Int.ofNat
    | _ => (digits? chars).map Int.ofNat
  if -(limit : Int) ≤ number ∧ number < limit then some number else none

end ValueGraph.Text
