import Coherence.StateMachine
import Coherence.SymbolTable
/-!
# Sites

A declaration is compiled at a `Site`: a symbol table, and inside a machine the machine as it is so
far.
-/

namespace Coherence

/-- Where a declaration is compiled. -/
structure Site where
  table : SymbolTable
  machine : Option StateMachine := none
deriving DecidableEq, Inhabited

namespace Site

def owner (s : Site) : Option String := s.machine.map StateMachine.ident

/-- Registers a function: with the machine, or in the innermost frame if there is none. -/
def addFunc (s : Site) (f : Func) : Except CompileError Site :=
  match s.machine with
  | some m => (m.addFunc f).map fun m => { s with machine := some m }
  | none => (s.table.declare (.func f)).map fun table => { s with table }

/-- Makes a type belong to the machine, if there is one. -/
def addType (s : Site) (d : TypeDef) : Site :=
  { s with machine := s.machine.map fun m => m.addType d }

end Site

end Coherence
