/-!
# Pieces of generated code

String constants and lists with commas. In a string constant printable ASCII characters stand for
themselves, quotes and backslashes after a backslash, all others as escapes.
-/

namespace Coherence.Text

/-- A character as it stands in a string constant. -/
def escape (c : Char) : List Char :=
  if c = '\t' then ['\\', 't']
  else if c = '\r' then ['\\', 'r']
  else if c = '\n' then ['\\', 'n']
  else if c = '\x27' then ['\\', '\x27']
  else if c = '"' then ['\\', '"']
  else if c = '\\' then ['\\', '\\']
  else if 0x20 ≤ c.toNat ∧ c.toNat ≤ 0x7e then [c]
  else ['\\', 'u', '\x7b'] ++ Nat.toDigits 16 c.toNat ++ ['\x7d']

/-- A text as a string constant, in quotes. -/
def constant (s : String) : String := "\"" ++ String.ofList (s.toList.flatMap escape) ++ "\""

/-- Texts with a comma and a blank between them. -/
def commaList : List String → String
  | [] => ""
  | [s] => s
  | s :: t :: rest => s ++ ", " ++ commaList (t :: rest)

end Coherence.Text
