import Coherence.CompileError
import Coherence.StateMachine
import Coherence.Syntax.Basic
/-!
# Names of output units

Which units a declaration owes can be told before it is compiled (`Decl.outputNames`): a function
with a body owes a definition, a type a header, an enumeration a source as well, and a machine the
header of its controller besides what its members owe. Units are owed once: `claimOutputs` keeps
account of the names that are taken.
-/

namespace Coherence

/-- The name of a unit with definitions. -/
def sourceName (cIdent : String) : String := cIdent ++ ".cc"

/-- The name of a unit with declarations. -/
def headerName (cIdent : String) : String := cIdent ++ ".hh"

/-- The units that a function owes, inside a machine or not. -/
def FuncDecl.outputNames (parent : Option String) (d : FuncDecl) : List String :=
  if d.isExternal then [] else [sourceName (qualify parent d.ident)]

/-- The units that a type owes, inside a machine or not. -/
def TypeDecl.outputNames (parent : Option String) (d : TypeDecl) : List String :=
  if d.attributes.external then []
  else match d.body with
    | .enumeration _ => [headerName (qualify parent d.ident), sourceName (qualify parent d.ident)]
    | _ => [headerName (qualify parent d.ident)]

namespace Decl

mutual

/-- The units that a declaration owes, inside a machine or not. -/
def outputNames (parent : Option String) : Decl → List String
  | .func d => d.outputNames parent
  | .type d => d.outputNames parent
  | .machine ⟨ident, _, members, _⟩ =>
    headerName (StateMachine.controllerOf ident) :: outputNamesAll (some ident) members

def outputNamesAll (parent : Option String) : List Decl → List String
  | [] => []
  | d :: ds => outputNames parent d ++ outputNamesAll parent ds

end

/-- The units that a declaration owes, sorted. -/
def outputFiles (parent : Option String) (d : Decl) : NameSet := .ofNames (d.outputNames parent)

/-- The units that a specification owes, sorted. -/
def outputFilesAll (ds : List Decl) : NameSet := .ofNames (outputNamesAll none ds)

end Decl

/-- Takes the names of a declaration's units, unless one of them is taken already; then none is. -/
def claimOutputs (claimed files : NameSet) (location : Location) : Except CompileError NameSet :=
  match files.names.find? claimed.contains with
  | some file => .error (.outputTaken file location)
  | none => .ok (claimed.addAll files.names)

end Coherence
