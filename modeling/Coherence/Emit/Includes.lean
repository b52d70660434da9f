import Coherence.OutputNames
import Coherence.Text.Uppercase
/-!
# Headers and guards

Which headers an output unit includes, and the macro that guards a header against being read twice.
A header is included for each type that a unit mentions and that has one.
-/

namespace Coherence

/-- The macro that guards the header of a type or controller. -/
def includeGuard (ident : String) : String := "__" ++ Text.uppercase ident ++ "_HH__"

def includeLine (header : String) : String := "#include \"" ++ header ++ "\""

def Func.signatureTypes (f : Func) : List TypeSymbol := f.returnType :: f.params.map Param.type

def Func.signatureHeaders (f : Func) : List String := f.signatureTypes.filterMap TypeSymbol.header

/-- The headers that a function's unit includes: the controller's, then those of the signature. -/
def Func.includes (f : Func) (machine : Option StateMachine) : List String :=
  (machine.map fun m => headerName m.controller).toList ++
    (NameSet.ofNames f.signatureHeaders).names

/-- The headers that a structure's header includes: those of its fields, other than itself. -/
def TypeDef.includes (d : TypeDef) : List String :=
  (NameSet.ofNames ((d.members.filterMap Member.header).filter
    fun header => header ≠ headerName d.symbol.cIdent)).names

/-- The headers that a controller's header includes: those of the machine's types, and of the types
that its functions mention. -/
def StateMachine.includes (m : StateMachine) : List String :=
  (NameSet.ofNames (m.types.filterMap (fun d => d.symbol.header) ++
    m.functions.flatMap Func.signatureHeaders)).names

end Coherence
