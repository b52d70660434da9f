import Coherence.Compile.Func
import Coherence.Compile.Type
import Coherence.OutputNames
/-!
# Compiling declarations

The types among a list of declarations are registered first (`Decl.predeclareAll`); a `Pending`
declaration then waits for its turn. Each one claims its units before it is compiled
(`Stage.attempt`). A machine compiles its members in a frame of their own, which is closed
afterwards: only the machine itself keeps them. A member that fails is recorded and the next one is
compiled; a machine cannot be a member.
-/

namespace Coherence

/-- A declaration that waits for its turn; a type with what came of its registration. -/
inductive Pending
  | func (decl : FuncDecl)
  | type (decl : TypeDecl) (state : Registration)
  | machine (decl : MachineDecl Decl)

/-- A compiled machine, and the failures of the members that did not compile. -/
structure CompiledMachine where
  machine : StateMachine
  errors : List DeclError := []
deriving DecidableEq, Inhabited

/-- What a declaration compiled into. -/
inductive Compiled
  | func (func : Func)
  | type (type : TypeDef)
  | machine (machine : CompiledMachine)
deriving DecidableEq, Inhabited

/-- A declaration before its registration. -/
def Decl.await : Decl → Pending
  | .func d => .func d
  | .type d => .type d .pending
  | .machine d => .machine d

/-- Registers a declaration that is a type; others are not touched. -/
def Decl.predeclare (t : SymbolTable) (machine : Option String) : Decl → SymbolTable × Pending
  | .type d =>
    let (t, state) := d.predeclare t machine .pending
    (t, .type d state)
  | d => (t, d.await)

/-- Registers the types in a list of declarations. -/
def Decl.predeclareAll (t : SymbolTable) (machine : Option String) :
    List Decl → SymbolTable × List Pending
  | [] => (t, [])
  | d :: ds =>
    let (t, p) := d.predeclare t machine
    let (t, ps) := predeclareAll t machine ds
    (t, p :: ps)

theorem Decl.predeclareAll_cons (t : SymbolTable) (machine : Option String) (d : Decl)
    (ds : List Decl) :
    predeclareAll t machine (d :: ds) =
      ((predeclareAll (d.predeclare t machine).1 machine ds).1,
        (d.predeclare t machine).2 :: (predeclareAll (d.predeclare t machine).1 machine ds).2) :=
  rfl

namespace Pending

def decl : Pending → Decl
  | func d => .func d
  | type d _ => .type d
  | machine d => .machine d

/-- Compiles a declaration that must not be a machine. -/
def compileMember (s : Site) : Pending → Except CompileError Compiled × Site
  | func d =>
    let (result, s) := d.compile s
    (result.map .func, s)
  | type d state =>
    let (result, s) := d.compile s state
    (result.map .type, s)
  | machine d => (.error (.nestedMachine d.ident d.location), s)

end Pending

/-- Where declarations are compiled one after another, and the units that they claimed. -/
structure Stage where
  site : Site
  claimed : NameSet := .empty

/-- Claims the units of a declaration and compiles it. They stay claimed if it fails. -/
def Stage.attempt (compile : Site → Except CompileError Compiled × Site) (s : Stage) (d : Decl) :
    Except CompileError Compiled × Stage :=
  match claimOutputs s.claimed (d.outputFiles s.site.owner) d.location with
  | .error e => (.error e, s)
  | .ok claimed =>
    let (result, site) := compile s.site
    (result, { site, claimed })

/-- How far the members of a machine got. -/
structure MemberRun where
  stage : Stage
  errors : List DeclError := []

namespace MemberRun

def attempt (r : MemberRun) (p : Pending) : Except CompileError Compiled × Stage :=
  r.stage.attempt p.compileMember p.decl

/-- Compiles the next member and records its failure; gives a fatal error back. -/
def step (r : MemberRun) (p : Pending) : Option CompileError × MemberRun :=
  match r.attempt p with
  | (.ok _, stage) => (none, { r with stage })
  | (.error e, stage) =>
    if e.isFatal then (some e, { r with stage })
    else (none, { stage, errors := r.errors ++ [⟨p.decl.ident, e⟩] })

/-- Compiles members one after another, up to a fatal error. -/
def steps (r : MemberRun) : List Pending → Option CompileError × MemberRun
  | [] => (none, r)
  | p :: ps =>
    match r.step p with
    | (some e, r) => (some e, r)
    | (none, r) => r.steps ps

end MemberRun

namespace MachineDecl

/-- The machine of a declaration, before any member is compiled. -/
def initial (d : MachineDecl Decl) : StateMachine :=
  { ident := d.ident, location := d.location, attributes := .ofPairs d.pairs }

/-- The start of a machine's members: their types are registered and the controller's header is
claimed. -/
def start (inner : SymbolTable) (d : MachineDecl Decl) : MemberRun :=
  { stage := {
      site := { table := inner, machine := some d.initial }
      claimed := .ofNames [headerName d.initial.controller] } }

/-- Compiles a machine with its members. -/
def compile (t : SymbolTable) (d : MachineDecl Decl) :
    Except CompileError CompiledMachine × SymbolTable :=
  let (inner, pending) := Decl.predeclareAll (t.push d.ident) (some d.ident) d.members
  let (fatal, run) := (d.start inner).steps pending
  let result := match fatal with
    | some e => .error e
    | none => .ok { machine := run.stage.site.machine.getD d.initial, errors := run.errors }
  (result, run.stage.site.table.close)

end MachineDecl

namespace Pending

/-- Compiles a declaration. -/
def compile (s : Site) (p : Pending) : Except CompileError Compiled × Site :=
  match p, s.machine with
  | machine d, none =>
    let (result, table) := d.compile s.table
    (result.map .machine, { s with table })
  | p, _ => p.compileMember s

end Pending

/-- Compiles a declaration that was not registered before. -/
def Decl.compile (s : Site) (d : Decl) : Except CompileError Compiled × Site := d.await.compile s

end Coherence
