import Coherence.Text.Code
import Coherence.TypeSymbol
/-!
# Compiled functions

A `Func` is what a function's name is bound to: its signature, and the text of its body if one is
generated. The texts derived from it are the prototype, which a controller header lists, and the
definition, which fills a unit of its own.
-/

namespace Coherence

/-- A parameter of a compiled function. -/
structure Param where
  type : TypeSymbol
  ident : String
deriving DecidableEq, Inhabited

/-- Pairs types with names; there must be as many of one as of the other. -/
def Param.zip? : List TypeSymbol → List String → Option (List Param)
  | [], [] => some []
  | t :: ts, n :: ns => (zip? ts ns).map (⟨t, n⟩ :: ·)
  | _, _ => none

/-- The body of a compiled function. -/
inductive FuncBody
  /-- The implementation lies elsewhere. -/
  | external
  /-- The generated statements, indented as they stand in a definition. -/
  | generated (text : String)
deriving DecidableEq, Inhabited

/-- What a function's name is bound to. -/
structure Func where
  ident : String
  location : Location := {}
  returnType : TypeSymbol
  params : List Param := []
  body : FuncBody := .external
  attributes : Attributes := {}
  /-- The state machine that the function was declared in. -/
  machine : Option String := none
deriving DecidableEq, Inhabited

namespace Func

/-- No definition is generated for the function. -/
def isExternal (f : Func) : Bool := f.attributes.external || f.body = .external

/-- The name among the functions of all machines. -/
def cIdent (f : Func) : String := qualify f.machine f.ident

/-- The unit that holds the definition, if one is generated. -/
def outputFile (f : Func) : Option String :=
  if f.isExternal then none else some (f.cIdent ++ ".cc")

/-- The spelling of the return type. The return mode shows on all types but `void`. -/
def returnText (f : Func) : String :=
  if f.returnType.isVoid then f.returnType.cIdent
  else match f.attributes.returnMode with
    | .value => f.returnType.cIdent
    | .ref => f.returnType.cIdent ++ "&"
    | .pointer => f.returnType.cIdent ++ "*"

/-- The parameters as they stand between the parentheses. -/
def paramText (f : Func) : String :=
  Text.commaList (f.params.map fun p => p.type.cIdent ++ " " ++ p.ident)

/-- The declaration in a controller header. -/
def prototype (f : Func) : String :=
  f.returnText ++ " " ++ f.ident ++ "(" ++ f.paramText ++ ");"

/-- The qualification of a member function's name. -/
def qualifier (f : Func) : String :=
  match f.machine with
  | some m => m ++ "_Controller::"
  | none => ""

/-- The definition, if one is generated. -/
def definition (f : Func) : Option String :=
  match f.body with
  | .external => none
  | .generated body =>
    if f.attributes.external then none
    else
      let comment := match f.attributes.desc with
        | some desc => "// " ++ desc ++ "\n"
        | none => ""
      some (comment ++ f.returnText ++ "\n" ++ f.qualifier ++ f.ident ++ "(" ++ f.paramText ++ ")\n"
        ++ "\x7b\n" ++ body ++ "\x7d\n")

end Func

end Coherence
