/-!
# Builtin types

The types that a run starts with besides `void`: primitive types that the surrounding simulator
supplies.
-/

namespace Coherence

/-- A primitive type supplied from outside. -/
structure BuiltinType where
  ident : String
  /-- The spelling in generated code, where it differs from the name. -/
  cIdent : Option String := none
deriving DecidableEq, Inhabited

/-- The builtin types of a run. -/
structure Config where
  types : List BuiltinType := []
deriving DecidableEq, Inhabited

/-- The builtin types of a run that is given no others. -/
def Config.prelude : Config :=
  { types := [{ ident := "int" }, { ident := "bool" },
      { ident := "string", cIdent := "std::string" }, { ident := "Addr" }, { ident := "Cycles" }] }

end Coherence
