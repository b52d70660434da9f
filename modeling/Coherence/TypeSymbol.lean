import Coherence.Attributes
import Coherence.Location
/-!
# Type symbols

A `TypeSymbol` is what a type's name is bound to. Two symbols are the same type when they were
declared under the same name, for the same machine, in the same frame (`TypeSymbol.same`): types are
compared by where they were declared, never by their shape.

The types of a structure's fields are kept by name, so that they may be declared later, and are
found when the declaration is compiled. A `TypeDef` is a symbol with the fields found so far.
-/

namespace Coherence

/-- A field of a structure, its type mentioned by name. -/
structure Field where
  ident : String
  typeName : String
  location : Location := {}
deriving DecidableEq, Inhabited

/-- The shape of a type. -/
inductive TypeKind
  | void
  | primitive
  | record (fields : List Field)
  | enumeration (values : List String)
deriving DecidableEq, Inhabited

/-- What tells a frame from all others: whom it was opened for, and how many frames were opened for the
same before. A machine's frame is so the same whatever else was compiled before the machine. -/
structure FrameId where
  owner : Option String := none
  index : Nat := 0
deriving DecidableEq, Inhabited

/-- What a type's name is bound to. -/
structure TypeSymbol where
  ident : String
  location : Location := {}
  kind : TypeKind
  attributes : Attributes := {}
  /-- The state machine that the type was declared in. -/
  machine : Option String := none
  /-- The frame that the type was declared in. -/
  home : FrameId := {}
  /-- The name in generated code, where it does not follow from the other fields. -/
  spelling : Option String := none
deriving DecidableEq, Inhabited

/-- A name, after the name of the machine that it belongs to. -/
def qualify (machine : Option String) (ident : String) : String :=
  match machine with
  | some m => m ++ "_" ++ ident
  | none => ident

namespace TypeSymbol

/-- What tells a type from all others: the frame, the machine and the name of its declaration. -/
structure Key where
  home : FrameId
  machine : Option String
  ident : String
deriving DecidableEq

/-- The key of a type. -/
def key (t : TypeSymbol) : Key := ⟨t.home, t.machine, t.ident⟩

def same (t u : TypeSymbol) : Bool := t.key = u.key

/-- The name of the type without values. -/
def voidName : String := "void"

/-- The type without values, which every symbol table holds. -/
def void : TypeSymbol := { ident := voidName, location := .builtin, kind := .void }

/-- A primitive type supplied from outside, under a spelling of its own or its name. -/
def builtin (ident : String) (spelling : Option String) : TypeSymbol :=
  { ident, location := .builtin, kind := .primitive, attributes := { external := true }, spelling }

/-- The name in generated code. -/
def cIdent (t : TypeSymbol) : String := t.spelling.getD (qualify t.machine t.ident)

def isVoid (t : TypeSymbol) : Bool := t.kind = .void

/-- Is its definition supplied from outside? -/
def isExternal (t : TypeSymbol) : Bool := t.attributes.external

def isEnumeration (t : TypeSymbol) : Bool :=
  match t.kind with
  | .enumeration _ => true
  | _ => false

/-- The fields of a structure; other types have none. -/
def fields (t : TypeSymbol) : List Field :=
  match t.kind with
  | .record fields => fields
  | _ => []

/-- The generated header that declares the type, if one is generated. -/
def header (t : TypeSymbol) : Option String :=
  if t.isExternal || t.isVoid then none else some (t.cIdent ++ ".hh")

end TypeSymbol

/-- What generated code needs to know of a field's type. -/
structure FieldType where
  cIdent : String
  header : Option String
deriving DecidableEq, Inhabited

/-- The part of a type that a field of that type needs. -/
def TypeSymbol.asFieldType (t : TypeSymbol) : FieldType := ⟨t.cIdent, t.header⟩

/-- A type with the types of its first fields. -/
structure TypeDef where
  symbol : TypeSymbol
  fieldTypes : List FieldType := []
deriving DecidableEq, Inhabited

/-- A field, with its type once that is found. -/
structure Member where
  field : Field
  type : Option FieldType
deriving DecidableEq, Inhabited

namespace Member

/-- The spelling of the field's type; its declared name until the type is found. -/
def cType (m : Member) : String :=
  match m.type with
  | some t => t.cIdent
  | none => m.field.typeName

/-- The generated header that declares the field's type, if the type is found and has one. -/
def header (m : Member) : Option String := m.type.bind FieldType.header

end Member

namespace TypeDef

/-- Gives the first fields their types. -/
def align : List Field → List FieldType → List Member
  | [], _ => []
  | f :: fs, [] => ⟨f, none⟩ :: align fs []
  | f :: fs, t :: ts => ⟨f, some t⟩ :: align fs ts

def members (d : TypeDef) : List Member := align d.symbol.fields d.fieldTypes

end TypeDef

end Coherence
