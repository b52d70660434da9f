import Coherence.Json.Basic
import Coherence.Json.Token
/-!
# Reading documents

`Json.parse?` reads a text as one document. The grammar is strict: no comments, no comma before a
closing bracket, nothing after the document.
-/

namespace Coherence.Json

/-- The object of the members read; one whose name could not be read spoils it. -/
def ofMembers (members : List (Option String × Json)) : Json :=
  match members.mapM fun (name, value) => name.map (·, value) with
  | some members => .object members
  | none => .unreadable

mutual

/-- Reads a value off the front of a list of tokens. -/
def value? : (fuel : Nat) → List Token → Option (Json × List Token)
  | 0, _ => none
  | _ + 1, .null :: rest => some (.null, rest)
  | _ + 1, .bool b :: rest => some (.bool b, rest)
  | _ + 1, .number (some n) :: rest => some (.number n, rest)
  | _ + 1, .number none :: rest => some (.unreadable, rest)
  | _ + 1, .string (some s) :: rest => some (.string s, rest)
  | _ + 1, .string none :: rest => some (.unreadable, rest)
  | _ + 1, .leftBracket :: .rightBracket :: rest => some (.array [], rest)
  | fuel + 1, .leftBracket :: rest =>
    (items? fuel rest).map fun (items, rest) => (.array items, rest)
  | _ + 1, .leftBrace :: .rightBrace :: rest => some (.object [], rest)
  | fuel + 1, .leftBrace :: rest =>
    (members? fuel rest).map fun (members, rest) => (ofMembers members, rest)
  | _ + 1, _ => none

/-- Reads the items of an array up to and with its closing bracket. -/
def items? : (fuel : Nat) → List Token → Option (List Json × List Token)
  | 0, _ => none
  | fuel + 1, tokens =>
    match value? fuel tokens with
    | some (v, .comma :: rest) => (items? fuel rest).map fun (vs, rest) => (v :: vs, rest)
    | some (v, .rightBracket :: rest) => some ([v], rest)
    | _ => none

/-- Reads the members of an object up to and with its closing brace. -/
def members? : (fuel : Nat) → List Token → Option (List (Option String × Json) × List Token)
  | 0, _ => none
  | fuel + 1, .string name :: .colon :: tokens =>
    match value? fuel tokens with
    | some (v, .comma :: rest) =>
      (members? fuel rest).map fun (ms, rest) => ((name, v) :: ms, rest)
    | some (v, .rightBrace :: rest) => some ([(name, v)], rest)
    | _ => none
  | _ + 1, _ => none

end

/-- The document that a text holds. Each step of reading uses up a token or opens a list of items or
members, so twice the number of tokens is fuel enough. -/
def parse? (text : String) : Option Json := do
  let tokens ← Token.scan? text.toList
  match value? (2 * tokens.length + 1) tokens with
  | some (document, []) => some document
  | _ => none

end Coherence.Json
