import ValueGraph.Word

namespace ValueGraph.Text

/-!
# Hexadecimal words

The bits of a 64-bit word are written as `0x` and sixteen digits, small letters
for the digits beyond nine.  Reading takes any number of digits, capital letters
too, and a plus sign in front of them.
-/

/-- A word as `0x` and sixteen digits. -/
def hexWord (bits : UInt64) : String :=
  let digits := Nat.toDigits 16 bits.toNat
  "0x" ++ String.ofList (List.replicate (16 - digits.length) '0' ++ digits)

/-- The number that a hexadecimal digit stands for. -/
def hexDigit? (char : Char) : Option Nat :=
  if char.isDigit then some (char.toNat - '0'.toNat)
  else if 'a' ≤ char ∧ char ≤ 'f' then some (char.toNat - 'a'.toNat + 10)
  else if 'A' ≤ char ∧ char ≤ 'F' then some (char.toNat - 'A'.toNat + 10)
  else none

/-- The number written by a non-empty row of hexadecimal digits. -/
def hexDigits? (chars : List Char) : Option Nat :=
  if chars.isEmpty then
    none
  else
    chars.foldlM (fun number char => (hexDigit? char).map (number * 16 + ·)) 0

/-- A hexadecimal numeral with an optional plus sign, below a limit. -/
def hexNumeral? (limit : Nat) (chars : List Char) : Option Nat := do
  let number ← match chars with
    | '+' :: rest => hexDigits? rest
    | _ => hexDigits? chars
  if number < limit then some number else none

/-- The word written behind `0x`. -/
def hexWord? (chars : List Char) : Option UInt64 :=
  match chars with
  | '0' :: 'x' :: numeral => (hexNumeral? word64Limit numeral).map UInt64.ofNat
  | _ => none

end ValueGraph.Text
