import Coherence.Toml.Scalar
import Coherence.Toml.Table
/-!
# Reading configurations

`Toml.parse?` reads the text of a configuration as a table. Each line is blank, a header, or an
entry; values may be strings of four kinds, arrays, tables, or single words.
-/

namespace Coherence.Toml

/-- The greatest number of arrays and tables inside each other, and of parts of a key, plus one. -/
def maxNesting : Nat := 80

/-! ### Blanks, comments and line breaks -/

/-- Drops blanks within a line. -/
def dropBlanks : List Char → List Char
  | ' ' :: rest => dropBlanks rest
  | '\t' :: rest => dropBlanks rest
  | rest => rest

/-- Is it a control character that no text may hold? Line breaks are among them. -/
def isControl (c : Char) : Bool := (c.toNat < 0x20 && c != '\t') || c.toNat == 0x7f

def dropNewline? : List Char → Option (List Char)
  | '\n' :: rest => some rest
  | '\r' :: '\n' :: rest => some rest
  | _ => none

/-- Drops blanks and line breaks. A carriage return belongs to a line break or stays. -/
def dropBlankLines : List Char → List Char
  | ' ' :: rest => dropBlankLines rest
  | '\t' :: rest => dropBlankLines rest
  | '\n' :: rest => dropBlankLines rest
  | '\r' :: '\n' :: rest => dropBlankLines rest
  | rest => rest

/-- Drops a comment, if there is one. -/
def dropComment : List Char → List Char
  | '#' :: rest => rest.dropWhile fun c => !isControl c
  | rest => rest

/-- Drops the rest of a line that may hold nothing but a comment. -/
def dropLineEnd? (text : List Char) : Option (List Char) :=
  match dropComment (dropBlanks text) with
  | [] => some []
  | rest => dropNewline? rest

/-- Drops blanks, line breaks and comments, with fuel for one step a line. -/
def dropSpaceWith : (fuel : Nat) → List Char → Option (List Char)
  | 0, _ => none
  | fuel + 1, text =>
    match dropBlanks text with
    | '#' :: rest => (dropNewline? (dropComment ('#' :: rest))).bind (dropSpaceWith fuel)
    | rest =>
      match dropNewline? rest with
      | some rest => dropSpaceWith fuel rest
      | none => some rest

/-- Drops blanks, line breaks and comments. -/
def dropSpace? (text : List Char) : Option (List Char) := dropSpaceWith (text.length + 1) text

/-! ### Strings -/

/-- The character of a hexadecimal number with a fixed number of digits. -/
def escapedChar? (n : Nat) (text : List Char) : Option (Char × List Char) :=
  let digits := text.take n
  match Text.ofHex? digits with
  | some code =>
    if digits.length = n ∧ code.isValidChar then some (Char.ofNat code, text.drop n) else none
  | none => none

/-- Reads an escape after its backslash. -/
def escape? : List Char → Option (Char × List Char)
  | 'b' :: rest => some ('\x08', rest)
  | 't' :: rest => some ('\t', rest)
  | 'n' :: rest => some ('\n', rest)
  | 'f' :: rest => some ('\x0c', rest)
  | 'r' :: rest => some ('\r', rest)
  | '"' :: rest => some ('"', rest)
  | '\\' :: rest => some ('\\', rest)
  | 'u' :: rest => escapedChar? 4 rest
  | 'U' :: rest => escapedChar? 8 rest
  | _ => none

/-- Reads a string in double quotes after the opening one; the characters read so far are in `seen`,
last one first. -/
def basicWith : (fuel : Nat) → (seen : List Char) → List Char → Option (String × List Char)
  | 0, _, _ => none
  | _ + 1, _, [] => none
  | _ + 1, seen, '"' :: rest => some (String.ofList seen.reverse, rest)
  | fuel + 1, seen, '\\' :: rest =>
    match escape? rest with
    | some (c, rest) => basicWith fuel (c :: seen) rest
    | none => none
  | fuel + 1, seen, c :: rest => if isControl c then none else basicWith fuel (c :: seen) rest

/-- Reads a string in double quotes after the opening one. -/
def basic? (text : List Char) : Option (String × List Char) := basicWith (text.length + 1) [] text

/-- Reads a string in single quotes after the opening one. -/
def literal? (text : List Char) : Option (String × List Char) :=
  let content := text.takeWhile fun c => c != '\x27' && !isControl c
  match text.drop content.length with
  | '\x27' :: rest => some (String.ofList content, rest)
  | _ => none

/-- The length of the run of a character that a text starts with. -/
def runLength (c : Char) (text : List Char) : Nat := (text.takeWhile (· == c)).length

/-- Drops the blanks and line breaks that a backslash at the end of a line takes with it. -/
def dropLineJoin? (text : List Char) : Option (List Char) :=
  (dropNewline? (dropBlanks text)).map dropBlankLines

/-- Reads the rest of a string over several lines. A run of three quotes ends it; one or two quotes
more in front of them belong to it. -/
def multilineWith (quote : Char) (escapes : Bool) :
    (fuel : Nat) → (seen : List Char) → List Char → Option (String × List Char)
  | 0, _, _ => none
  | _ + 1, _, [] => none
  | fuel + 1, seen, c :: rest =>
    if c = quote then
      let run := runLength quote (c :: rest)
      if run < 3 then multilineWith quote escapes fuel (c :: seen) rest
      else
        let kept := min (run - 3) 2
        some (String.ofList (List.replicate kept quote ++ seen).reverse,
          (c :: rest).drop (kept + 3))
    else if c = '\\' ∧ escapes then
      match dropLineJoin? rest with
      | some rest => multilineWith quote escapes fuel seen rest
      | none =>
        match escape? rest with
        | some (d, rest) => multilineWith quote escapes fuel (d :: seen) rest
        | none => none
    else
      match dropNewline? (c :: rest) with
      | some rest => multilineWith quote escapes fuel ('\n' :: seen) rest
      | none => if isControl c then none else multilineWith quote escapes fuel (c :: seen) rest

/-- Reads a string over several lines after its three opening quotes. A line break right after them
is dropped. -/
def multiline? (quote : Char) (escapes : Bool) (text : List Char) : Option (String × List Char) :=
  multilineWith quote escapes (text.length + 1) [] ((dropNewline? text).getD text)

/-- Reads a string of any kind. -/
def string? : List Char → Option (String × List Char)
  | '"' :: '"' :: '"' :: rest => multiline? '"' true rest
  | '"' :: rest => basic? rest
  | '\x27' :: '\x27' :: '\x27' :: rest => multiline? '\x27' false rest
  | '\x27' :: rest => literal? rest
  | _ => none

/-! ### Keys -/

/-- The characters that a key without quotes is made of. -/
def isKeyChar (c : Char) : Bool := c.isAlphanum || c == '_' || c == '-'

/-- Reads one part of a key. -/
def keyPart? (text : List Char) : Option (String × List Char) :=
  match text with
  | '"' :: rest => basic? rest
  | '\x27' :: rest => literal? rest
  | _ =>
    let key := text.takeWhile isKeyChar
    if key = [] then none else some (String.ofList key, text.dropWhile isKeyChar)

/-- Reads the parts of a key with dots and blanks between them. -/
def keyWith : (fuel : Nat) → List Char → Option (List String × List Char)
  | 0, _ => none
  | fuel + 1, text =>
    match keyPart? (dropBlanks text) with
    | none => none
    | some (part, rest) =>
      match dropBlanks rest with
      | '.' :: rest => (keyWith fuel rest).map fun (parts, rest) => (part :: parts, rest)
      | rest => some ([part], rest)

/-- Reads a key: the parts in front of the last one, and the last one. -/
def key? (text : List Char) : Option (List String × String × List Char) := do
  let (parts, rest) ← keyWith maxNesting text
  if maxNesting ≤ parts.length then none
  some (parts.dropLast, ← parts.getLast?, rest)

/-! ### Values -/

mutual

/-- Reads a value that lies inside fewer than `room` further arrays and tables. -/
def valueWith : (fuel room : Nat) → List Char → Option (Node × List Char)
  | 0, _, _ => none
  | _ + 1, _, '"' :: rest => (string? ('"' :: rest)).map fun (s, rest) => (.string s, rest)
  | _ + 1, _, '\x27' :: rest => (string? ('\x27' :: rest)).map fun (s, rest) => (.string s, rest)
  | _ + 1, 0, '[' :: _ => none
  | fuel + 1, room + 1, '[' :: rest =>
    (itemsWith fuel room rest).map fun (items, rest) => (.array items, rest)
  | _ + 1, 0, '\x7b' :: _ => none
  | fuel + 1, room + 1, '\x7b' :: rest =>
    match dropBlanks rest with
    | '\x7d' :: rest => some (.inlineTable [], rest)
    | rest => (entriesWith fuel room [] rest).map fun (es, rest) => (.inlineTable es, rest)
  | _ + 1, _, text => (dropScalar? text).map (.scalar, ·)

/-- Reads the items of an array up to and with its closing bracket. -/
def itemsWith : (fuel room : Nat) → List Char → Option (List Node × List Char)
  | 0, _, _ => none
  | fuel + 1, room, text =>
    match dropSpace? text with
    | none => none
    | some (']' :: rest) => some ([], rest)
    | some rest =>
      match valueWith fuel room rest with
      | none => none
      | some (v, rest) =>
        match dropSpace? rest with
        | some (',' :: rest) => (itemsWith fuel room rest).map fun (vs, rest) => (v :: vs, rest)
        | some (']' :: rest) => some ([v], rest)
        | _ => none

/-- Reads the entries of a table written as a value, up to and with its closing brace. -/
def entriesWith : (fuel room : Nat) → Entries → List Char → Option (Entries × List Char)
  | 0, _, _, _ => none
  | fuel + 1, room, entries, text =>
    match key? text with
    | some (path, key, '=' :: rest) =>
      match valueWith fuel room (dropBlanks rest) with
      | none => none
      | some (v, rest) =>
        match entries.addEntry path key v, dropBlanks rest with
        | some entries, ',' :: rest => entriesWith fuel room entries rest
        | some entries, '\x7d' :: rest => some (entries, rest)
        | _, _ => none
    | _ => none

end

/-- Reads a value. -/
def value? (text : List Char) : Option (Node × List Char) :=
  valueWith (2 * text.length + 2) (maxNesting - 1) text

/-! ### Lines -/

/-- What was read so far, and the key of the table that was opened last. -/
structure Document where
  entries : Entries := []
  opened : List String := []

/-- Reads the line that starts here. -/
def line? (d : Document) (text : List Char) : Option (Document × List Char) :=
  match dropBlanks text with
  | [] => some (d, [])
  | '[' :: '[' :: rest => do
    let (path, key, rest) ← key? rest
    let rest ← dropChar? ']' rest
    let rest ← dropLineEnd? (← dropChar? ']' rest)
    some ({ entries := ← d.entries.openItem path key, opened := path ++ [key] }, rest)
  | '[' :: rest => do
    let (path, key, rest) ← key? rest
    let rest ← dropLineEnd? (← dropChar? ']' rest)
    some ({ entries := ← d.entries.openTable path key, opened := path ++ [key] }, rest)
  | '#' :: rest => (dropLineEnd? ('#' :: rest)).map (d, ·)
  | rest =>
    match dropNewline? rest with
    | some rest => some (d, rest)
    | none => do
      let (path, key, rest) ← key? rest
      let (node, rest) ← value? (dropBlanks (← dropChar? '=' rest))
      let rest ← dropLineEnd? rest
      some ({ d with entries := ← d.entries.addUnder d.opened path key node }, rest)

/-- Reads lines, with fuel for one step a line. -/
def linesWith : (fuel : Nat) → Document → List Char → Option Document
  | _, d, [] => some d
  | 0, _, _ :: _ => none
  | fuel + 1, d, text => (line? d text).bind fun (d, rest) => linesWith fuel d rest

/-- Drops the mark that some editors put in front of a text. -/
def dropMark : List Char → List Char
  | c :: rest => if c.toNat = 0xfeff then rest else c :: rest
  | [] => []

/-- The table that the text of a configuration stands for. -/
def parse? (text : String) : Option Entries :=
  (linesWith (text.length + 1) {} (dropMark text.toList)).map Document.entries

end Coherence.Toml
