/-!
# Documents

`Json` is a document as read: members of an object keep their order and their repetitions, so a
reader of a schema decides what those mean. Numbers are integers, since no schema here has others.
-/

namespace Coherence

/-- A document. -/
inductive Json
  | null
  | bool (value : Bool)
  | number (value : Int)
  | string (value : String)
  | array (items : List Json)
  | object (members : List (String × Json))
  /-- A well-formed value without a content here: a number with a fraction or an exponent, a
  negative zero, a string or an object's name with half of a surrogate pair. -/
  | unreadable
deriving Inhabited

namespace Json

/-- The value of a name in an object, the first one if there are several. -/
def get? (j : Json) (name : String) : Option Json :=
  match j with
  | .object members => members.lookup name
  | _ => none

end Json

end Coherence
