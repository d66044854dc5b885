namespace ValueGraph.Text

/-!
# Blank characters

The characters with the White_Space property, and removal of blanks at both
ends of a text.
-/

/-- The ranges of code points with the White_Space property. -/
def blankRanges : List (Nat × Nat) :=
  [(0x9, 0xD), (0x20, 0x20), (0x85, 0x85), (0xA0, 0xA0), (0x1680, 0x1680),
    (0x2000, 0x200A), (0x2028, 0x2029), (0x202F, 0x202F), (0x205F, 0x205F), (0x3000, 0x3000)]

/-- Whether a character has the White_Space property. -/
def isBlank (char : Char) : Bool :=
  blankRanges.any fun (first, last) => first ≤ char.toNat && char.toNat ≤ last

/-- The text without the blanks at its two ends. -/
def trimBlanks (chars : List Char) : List Char :=
  ((chars.dropWhile isBlank).reverse.dropWhile isBlank).reverse

/-- The text with the capital letters of ASCII made small. -/
def lowerAscii (chars : List Char) : List Char :=
  chars.map Char.toLower

end ValueGraph.Text
