import Coherence.Config
import Coherence.Toml.Reader
/-!
# Reading builtin types

The builtin types of a configuration are the tables under `types`, each with the key `ident` and
perhaps `c_ident`; other keys are passed over. A list of the two values is a table as well.
-/

namespace Coherence.Config

open Toml

def string? : Node → Option String
  | .string s => some s
  | _ => none

/-- A builtin type from its values, the second of which may be missing. -/
def ofValues (ident : Node) (cIdent : Option Node) : Option BuiltinType := do
  let ident ← string? ident
  match cIdent with
  | none => some { ident }
  | some cIdent => some { ident, cIdent := some (← string? cIdent) }

/-- A builtin type from a table's entries. -/
def ofEntries (entries : Entries) : Option BuiltinType := do
  ofValues (← entries.lookup "ident") (entries.lookup "c_ident")

def ofItem : Node → Option BuiltinType
  | .inlineTable entries => ofEntries entries
  | .array (ident :: rest) => ofValues ident rest.head?
  | _ => none

def ofTable (entries : Entries) : Option Config :=
  match entries.lookup "types" with
  | none => some {}
  | some (.tables items) => (items.mapM ofEntries).map fun types => { types }
  | some (.array items) => (items.mapM ofItem).map fun types => { types }
  | some _ => none

/-- The builtin types in the text of a configuration. -/
def read? (text : String) : Option Config := (parse? text).bind ofTable

end Coherence.Config
