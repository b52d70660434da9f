import Coherence.Compile.Site
import Coherence.Syntax.Basic
/-!
# Compiling types

A type is registered before the declarations around it are compiled (`TypeDecl.predeclare`), so that
all of them can name it, the type itself included. Compiling it then finds the types of its fields
and checks that no two fields, or enumerators, have the same name. A registration that failed is
reported when the type's turn comes.
-/

namespace Coherence

/-- How far the registration of a type got. -/
inductive Registration
  | pending
  | declared (type : TypeSymbol)
  /-- The registration failed; the declaration reports it when it is compiled. -/
  | rejected (error : CompileError)

namespace TypeDecl

def kind (d : TypeDecl) : TypeKind :=
  match d.body with
  | .primitive => .primitive
  | .record fields => .record (fields.map fun f => ⟨f.ident, f.type.ident, f.location⟩)
  | .enumeration values => .enumeration values

/-- The type that a declaration stands for, inside a machine or not. -/
def symbol (machine : Option String) (d : TypeDecl) : TypeSymbol :=
  { ident := d.ident, location := d.location, kind := d.kind, attributes := d.attributes, machine }

/-- Registers the type in the innermost frame, unless that was tried before. -/
def predeclare (t : SymbolTable) (machine : Option String) (d : TypeDecl) :
    Registration → SymbolTable × Registration
  | .pending =>
    let type := t.adopt (d.symbol machine)
    match t.declare (.type type) with
    | .ok t => (t, .declared type)
    | .error e => (t, .rejected e)
  | settled => (t, settled)

/-- Finds the types of a type's fields, from a position on, and binds the fields in the innermost
frame, up to the first field that fails. -/
def resolveFields (type : TypeSymbol) (t : SymbolTable) (position : Nat) :
    List Field → Except CompileError Unit × SymbolTable
  | [] => (.ok (), t)
  | f :: fs =>
    match t.resolveType f.typeName f.location with
    | .error e => (.error e, t)
    | .ok found =>
      match t.resolveField type position f.ident found.asFieldType with
      | .error e => (.error e, t)
      | .ok t =>
        match t.declare (.var { ident := f.ident, location := f.location, type := found }) with
        | .error e => (.error e, t)
        | .ok t => resolveFields type t (position + 1) fs

/-- Binds the enumerators of a type in the innermost frame, up to the first one that fails. -/
def bindValues (type : TypeSymbol) (t : SymbolTable) :
    List String → Except CompileError Unit × SymbolTable
  | [] => (.ok (), t)
  | v :: vs =>
    match t.declare (.var { ident := v, location := type.location, type }) with
    | .error e => (.error e, t)
    | .ok t => bindValues type t vs

/-- Checks the members of a registered type in the innermost frame. -/
def checkMembers (type : TypeSymbol) (t : SymbolTable) : Except CompileError Unit × SymbolTable :=
  match type.kind with
  | .record fields => resolveFields type t 0 fields
  | .enumeration values => bindValues type t values
  | .primitive => (.ok (), t)
  | .void => (.ok (), t)

/-- Compiles a registered type: checks its members in a frame of their own. -/
def compileDeclared (s : Site) (type : TypeSymbol) : Except CompileError TypeDef × Site :=
  match checkMembers type s.table.push with
  | (.error e, inner) => (.error e, { s with table := inner.close })
  | (.ok _, inner) =>
    (.ok (inner.close.define type), { s with table := inner.close }.addType (inner.close.define type))

/-- Compiles a type; registers it first if that was not tried. -/
def compile (s : Site) (d : TypeDecl) (state : Registration) : Except CompileError TypeDef × Site :=
  match d.predeclare s.table s.owner state with
  | (table, .declared type) => compileDeclared { s with table } type
  | (table, .rejected e) => (.error e, { s with table })
  | (table, .pending) => (.error (.breach .unsettled), { s with table })

end TypeDecl

end Coherence
