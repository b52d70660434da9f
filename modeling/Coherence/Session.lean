import Coherence.Compile.Decl
import Coherence.Config
import Coherence.Diagnostic
/-!
# Sessions

A `Session` holds what outlives a list of declarations: the symbol table, with the builtin types in
its outermost frame, and the machines compiled so far. `Session.compile` compiles one list of
declarations in source order. A declaration that fails becomes a diagnostic and the next one is
compiled; only a frame stack out of balance ends the run.
-/

namespace Coherence

/-- What a list of declarations compiled into. -/
structure Output where
  /-- The functions that belong to no machine, in source order. -/
  functions : List Func := []
  /-- The types declared at top level, in source order. -/
  types : List TypeDef := []
  machines : List StateMachine := []
  diagnostics : List Diagnostic := []
deriving DecidableEq, Inhabited

namespace Output

def hasErrors (o : Output) : Bool := o.diagnostics.any fun d => d.severity = .error

def report (o : Output) (ds : List Diagnostic) : Output :=
  { o with diagnostics := o.diagnostics ++ ds }

end Output

/-- The warning about a function's body, if it is checked but not emitted. -/
def Func.warning? (f : Func) : Option Diagnostic :=
  if f.attributes.external && f.body ≠ .external then some (.unusedBody f) else none

/-- One run of the compiler. -/
structure Session where
  table : SymbolTable
  machines : MachineRegistry := {}
deriving DecidableEq, Inhabited

/-- How far the declarations of a list got. -/
structure DeclRun where
  stage : Stage
  machines : MachineRegistry
  output : Output := {}

namespace DeclRun

/-- The session as it is so far. -/
def session (r : DeclRun) : Session := { table := r.stage.site.table, machines := r.machines }

/-- Reports the failure of a declaration; a fatal error ends the run. -/
def record (r : DeclRun) (d : Decl) (e : CompileError) : Except CompileError DeclRun :=
  if e.isFatal then .error e
  else .ok { r with output := r.output.report [.ofError ⟨d.ident, e⟩ d.location] }

/-- Fails if the declaration is a machine whose name is taken. -/
def checkUnique (r : DeclRun) : Decl → Except CompileError Unit
  | .machine d => r.machines.checkUnique d.ident d.location
  | _ => .ok ()

/-- Tries the next declaration. -/
def attempt (r : DeclRun) (p : Pending) : Except CompileError Compiled × Stage :=
  match r.checkUnique p.decl with
  | .error e => (.error e, r.stage)
  | .ok _ => r.stage.attempt p.compile p.decl

/-- Adds what a declaration compiled into: to the output, and a machine to the registry. The
failures of a machine's members come before the warnings about its functions. -/
def add (r : DeclRun) (d : Decl) : Compiled → Except CompileError DeclRun
  | .func f =>
    let output := r.output.report f.warning?.toList
    .ok { r with output := { output with functions := output.functions ++ [f] } }
  | .type t => .ok { r with output := { r.output with types := r.output.types ++ [t] } }
  | .machine c =>
    let output := (r.output.report (c.errors.map fun e => .ofError e d.location)).report
      (c.machine.functions.filterMap Func.warning?)
    match r.machines.register c.machine with
    | .ok machines =>
      .ok { r with machines, output := { output with machines := output.machines ++ [c.machine] } }
    | .error e => { r with output }.record d e

/-- Adds a result, or reports why there is none. -/
def settle (r : DeclRun) (d : Decl) : Except CompileError Compiled → Except CompileError DeclRun
  | .ok compiled => r.add d compiled
  | .error e => r.record d e

/-- Compiles the next declaration. No frame may be left open after it. -/
def step (r : DeclRun) (p : Pending) : Except CompileError DeclRun :=
  let (result, stage) := r.attempt p
  if stage.site.table.depth ≠ 1 then .error (.unbalanced stage.site.table.depth)
  else { r with stage }.settle p.decl result

end DeclRun

namespace Session

def bindBuiltins (t : SymbolTable) : List BuiltinType → Except CompileError SymbolTable
  | [] => .ok t
  | b :: bs => do
    let t ← t.declare (.type (t.adopt (.builtin b.ident b.cIdent)))
    bindBuiltins t bs

/-- A session with the builtin types of a configuration. -/
def start (config : Config) : Except CompileError Session := do
  let table ← bindBuiltins .initial config.types
  return { table }

/-- The start of a list of declarations: their types are registered. -/
def begin (s : Session) (table : SymbolTable) : DeclRun :=
  { stage := { site := { table } }, machines := s.machines }

/-- Compiles a list of declarations. -/
def compile (s : Session) (ds : List Decl) : Except CompileError (Session × Output) := do
  let (table, pending) := Decl.predeclareAll s.table none ds
  let run ← pending.foldlM DeclRun.step (s.begin table)
  return (run.session, run.output)

end Session

end Coherence
