/-!
# Source positions

A `Location` names the place in a protocol specification that a node of the declaration tree came
from. Diagnostics and generated files show it as `file:line:column` (`Location.text`).
-/

namespace Coherence

/-- A position in a protocol specification; line and column count from one. -/
structure Location where
  file : String := ""
  line : UInt32 := 0
  column : UInt32 := 0
deriving DecidableEq, Inhabited

namespace Location

/-- The position of a node whose place is not known. -/
def unknown : Location := {}

/-- The position of the symbols that exist before any declaration is read. -/
def builtin : Location := { file := "<builtin>" }

/-- The position as shown to a reader: `file:line:column`. -/
def text (l : Location) : String :=
  l.file ++ ":" ++ Nat.repr l.line.toNat ++ ":" ++ Nat.repr l.column.toNat

end Location

end Coherence
