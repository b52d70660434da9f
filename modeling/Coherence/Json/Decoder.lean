import Coherence.Json.Basic
import Coherence.NameMap
/-!
# Reading values of a schema off a document

A `Decoder α` reads an `α` off a document, given how many brackets it may still open. Each list,
record, dictionary or variant that is kept opens one; a value that the schema does not ask for opens
none. The forms:

* a variant is an object with its name as the only member, or for one without data its name alone;
* a record is an object, or the list of its fields in order; fields at the end of such a list may be
  missing if they have a default. Members that are no fields are passed over, a field given twice is
  an error.
-/

namespace Coherence

/-- Reads an `α` when at most `room` more brackets may be opened. -/
def Decoder (α : Type) : Type := (room : Nat) → Json → Option α

namespace Decoder

variable {α : Type}

def string : Decoder String
  | _, .string s => some s
  | _, _ => none

def bool : Decoder Bool
  | _, .bool b => some b
  | _, _ => none

/-- Reads an integer of 64 bits. -/
def int64 : Decoder Int64
  | _, .number n => if Int64.minValue.toInt ≤ n ∧ n ≤ Int64.maxValue.toInt then
      some (Int64.ofInt n) else none
  | _, _ => none

/-- Reads a natural number of 32 bits. -/
def uint32 : Decoder UInt32
  | _, .number n => if 0 ≤ n ∧ n < UInt32.size then some (UInt32.ofNat n.toNat) else none
  | _, _ => none

/-- Reads a value that may be absent. -/
def optional (d : Decoder α) : Decoder (Option α)
  | _, .null => some none
  | room, j => (d room j).map some

def list (d : Decoder α) : Decoder (List α)
  | room + 1, .array items => items.mapM (d room)
  | _, _ => none

/-- Reads a dictionary; of two members with one name the later one counts. -/
def dictionary (d : Decoder α) : Decoder (NameMap α)
  | room + 1, .object members =>
    (members.mapM fun (m : String × Json) => (d room m.2).map (m.1, ·)).map NameMap.ofList
  | _, _ => none

/-- Reads a variant: one of the names in `plain`, or one of the names in `loaded` with its data. -/
def variant (plain : List (String × α)) (loaded : List (String × Decoder α)) : Decoder α
  | _, .string name => plain.lookup name
  | room + 1, .object [(name, .null)] =>
    (plain.lookup name).or ((loaded.lookup name).bind fun d => d room .null)
  | room + 1, .object [(name, j)] => (loaded.lookup name).bind fun d => d room j
  | _, _ => none

def map {β : Type} (f : α → β) (d : Decoder α) : Decoder β := fun room j => (d room j).map f

/-! ### Records -/

/-- The values given for the fields of a record, in the order of the fields. -/
def columns? (fields : List String) : Json → Option (List (Option Json))
  | .array items =>
    if items.length ≤ fields.length then
      some (items.map some ++ List.replicate (fields.length - items.length) none)
    else none
  | .object members =>
    if fields.all fun f => (members.filter fun m => m.1 == f).length ≤ 1 then
      some (fields.map fun f => members.lookup f)
    else none
  | _ => none

/-- Reads a record off the values given for its fields. -/
def record (fields : List String) (read : (room : Nat) → List (Option Json) → Option α) : Decoder α
  | room + 1, j => (columns? fields j).bind (read room)
  | 0, _ => none

/-- Reads a field that must be given. -/
def required (d : Decoder α) (room : Nat) (column : Option Json) : Option α :=
  column.bind (d room)

/-- Reads a field that has a default. -/
def defaulted (default : α) (d : Decoder α) (room : Nat) : Option Json → Option α
  | some j => d room j
  | none => some default

end Decoder

end Coherence
