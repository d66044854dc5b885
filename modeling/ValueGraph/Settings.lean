import ValueGraph.Text.Blank
import ValueGraph.Text.Numeral
import ValueGraph.Types.Measure

namespace ValueGraph

/-!
# Settings of a program

Two settings are fixed when a program is created: the width of its pointers and
whether structural edits are followed by an audit.  Both can be overridden by
texts from the environment; a text that does not read as a setting is ignored.
-/

/-- What is fixed when a program is created. -/
structure Settings where
  pointerBits : UInt32
  auditEdits : Bool
deriving DecidableEq

namespace Settings

/-- Pointers of 64 bits, edits audited. -/
def standard : Settings :=
  { pointerBits := 64, auditEdits := true }

/-- A pointer width: a numeral of a 32-bit word, at least a byte. -/
def readPointerBits? (text : String) : Option UInt32 := do
  let bits ← Text.unsigned? word32Limit (Text.trimBlanks text.toList)
  if TypeTable.leastPointerBits.toNat ≤ bits then some (UInt32.ofNat bits) else none

/-- A switch: `1`, `true` or `on` against `0`, `false` or `off`, in small or
capital letters. -/
def readSwitch? (text : String) : Option Bool :=
  let word := String.ofList (Text.lowerAscii (Text.trimBlanks text.toList))
  if word ∈ ["1", "true", "on"] then some true
  else if word ∈ ["0", "false", "off"] then some false
  else none

/-- The standard settings, overridden by the texts that read as settings. -/
def ofTexts (pointerBits auditEdits : Option String) : Settings :=
  { pointerBits := (pointerBits.bind readPointerBits?).getD standard.pointerBits
    auditEdits := (auditEdits.bind readSwitch?).getD standard.auditEdits }

end Settings

end ValueGraph
