import Coherence.NameMap
/-!
# Declaration attributes

A declaration carries free-form `key = "value"` pairs. `Attributes.ofPairs` sorts out the keys that
the compiler acts on; all others are kept as they are.
-/

namespace Coherence

/-- The `key = "value"` annotations of a declaration. -/
abbrev Pairs := NameMap String

/-- How a function hands back its result. -/
inductive ReturnMode
  | value
  | ref
  | pointer
deriving DecidableEq, Inhabited

/-- The attributes that a declaration's pairs stand for. -/
structure Attributes where
  /-- The implementation is supplied outside the specification. -/
  external : Bool := false
  returnMode : ReturnMode := .value
  /-- A description for human readers. -/
  desc : Option String := none
  /-- The pairs that the compiler does not interpret. -/
  other : Pairs := .empty
deriving DecidableEq, Inhabited

namespace Attributes

/-- Takes one pair into account. Presence is enough for all keys but `desc`. -/
def addPair (a : Attributes) (key value : String) : Attributes :=
  if key = "external" then { a with external := true }
  else if key = "return_by_ref" then { a with returnMode := .ref }
  else if key = "return_by_pointer" then { a with returnMode := .pointer }
  else if key = "desc" then { a with desc := some value }
  else { a with other := a.other.insert key value }

/-- The attributes of a declaration's pairs, taken in the order of their keys. -/
def ofPairs (pairs : Pairs) : Attributes :=
  pairs.entries.foldl (fun a e => a.addPair e.1 e.2) {}

/-- The same attributes of a declaration whose implementation lies elsewhere. -/
def markExternal (a : Attributes) : Attributes := { a with external := true }

end Attributes

end Coherence
