import Coherence.Body.Generator
import Coherence.Compile.Site
/-!
# Compiling functions

`FuncDecl.compile` finds the types of a function's signature, checks its body in a frame that holds
its parameters, and registers the function. Nothing is registered if any of this fails, and the frame
is closed in any case.
-/

namespace Coherence

/-- The parts of a function that are found in the frame of its parameters. -/
structure FuncParts where
  types : List TypeSymbol
  names : List String
  body : FuncBody

namespace FuncDecl

/-- Finds the types of parameters and binds the parameters in the innermost frame. -/
def bindFormals (t : SymbolTable) :
    List Formal → Except CompileError (List TypeSymbol × List String) × SymbolTable
  | [] => (.ok ([], []), t)
  | f :: fs =>
    match t.resolveType f.type.ident f.type.location with
    | .error e => (.error e, t)
    | .ok type =>
      match t.declare (.var { ident := f.ident, location := f.location, type }) with
      | .error e => (.error e, t)
      | .ok t =>
        let (result, t) := bindFormals t fs
        (result.map fun (types, names) => (type :: types, f.ident :: names), t)

/-- Checks a body and writes it. -/
def compileBody (c : BodyContext) (t : SymbolTable) :
    Option (List Stmt) → Except CompileError FuncBody × SymbolTable
  | none => (.ok .external, t)
  | some statements =>
    let (result, t) := Body.text c t statements
    (result.map .generated, t)

/-- Binds the parameters and checks the body, in the innermost frame. -/
def compileParts (c : BodyContext) (t : SymbolTable) (d : FuncDecl) :
    Except CompileError FuncParts × SymbolTable :=
  match bindFormals t d.formals with
  | (.error e, t) => (.error e, t)
  | (.ok (types, names), t) =>
    let (result, t) := compileBody c t d.body?
    (result.map fun body => { types, names, body }, t)

/-- Puts a function together; there must be as many types as names. -/
def assemble (owner : Option String) (returnType : TypeSymbol) (d : FuncDecl) (parts : FuncParts) :
    Except CompileError Func :=
  match Param.zip? parts.types parts.names with
  | none => .error (.breach .unaligned)
  | some params => .ok {
      ident := d.ident
      location := d.location
      returnType
      params
      body := parts.body
      attributes := if d.body?.isNone then d.attributes.markExternal else d.attributes
      machine := owner }

/-- The function that a declaration stands for at a site. -/
def toFunc (s : Site) (d : FuncDecl) : Except CompileError Func × SymbolTable :=
  match s.table.resolveType d.returnType.ident d.returnType.location with
  | .error e => (.error e, s.table)
  | .ok returnType =>
    let (parts, inner) := d.compileParts { machine := s.machine, returnType } s.table.push
    (parts.bind (d.assemble s.owner returnType), inner.close)

/-- Compiles a function and registers it. -/
def compile (s : Site) (d : FuncDecl) : Except CompileError Func × Site :=
  match d.toFunc s with
  | (.error e, table) => (.error e, { s with table })
  | (.ok f, table) =>
    match { s with table : Site }.addFunc f with
    | .error e => (.error e, { s with table })
    | .ok s => (.ok f, s)

end FuncDecl

end Coherence
