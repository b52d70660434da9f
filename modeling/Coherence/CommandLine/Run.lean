import Coherence.CommandLine.Arguments
import Coherence.CommandLine.Host
import Coherence.ConfigReader
import Coherence.Emit.Units
import Coherence.Syntax.Reader
/-!
# Running from the command line

A `Plan` is what a run does once its files are read: the lines it prints, the complaint it ends
with, and the units it writes. It writes all units or none: none in a dry run, and none if a
declaration failed. `run` reads the files, makes the plan and carries it out on a `Host`.
-/

namespace Coherence.CommandLine

/-- What a run does once its files are read. -/
structure Plan where
  /-- The lines of its report. -/
  report : List String := []
  /-- What it complains of. -/
  complaint : Option String := none
  /-- The units it writes. -/
  units : Option (List OutputUnit) := none
  succeeds : Bool
deriving DecidableEq, Inhabited

namespace Plan

/-- The plan of a run that lists the units and writes none. -/
def dryRun (ds : List Decl) : Plan := { report := (Decl.outputFilesAll ds).names, succeeds := true }

/-- The plan of a run that compiles. -/
def compile (config : Config) (ds : List Decl) : Plan :=
  match Session.start config with
  | .error e =>
    { complaint := some ("Error registering builtin types: " ++ e.message), succeeds := false }
  | .ok session =>
    match session.compile ds with
    | .error e =>
      { complaint := some ("Internal compiler error [" ++ e.code ++ "]: " ++ e.message)
        succeeds := false }
    | .ok (_, output) =>
      let report := output.diagnostics.map Diagnostic.text
      if output.hasErrors then { report, succeeds := false }
      else { report, units := some output.units, succeeds := true }

def make (a : Arguments) (config : Config) (ds : List Decl) : Plan :=
  if a.dryRun then dryRun ds else compile config ds

end Plan

/-- The exit code of a run that succeeded. -/
def success : UInt32 := 0

def failure : UInt32 := 1

/-- The exit code of a run with invalid arguments. -/
def usageFailure : UInt32 := 2

def usage : String := "Usage: slicc [OPTIONS] <INPUT>"

def helpLines : List String := [
  "SLICC declaration compiler",
  "",
  usage,
  "",
  "Arguments:",
  "  <INPUT>  Parsed declaration tree (JSON)",
  "",
  "Options:",
  "  -c, --config <CONFIG>    Builtin type definitions (TOML); the embedded prelude is used otherwise",
  "  -o, --out-dir <OUT_DIR>  Directory generated files are written to [default: generated]",
  "      --dry-run            List the files that would be generated without compiling",
  "  -h, --help               Print help",
  "  -V, --version            Print version"]

def versionLine : String := "slicc-cli 0.1.0"

section run

variable {m : Type → Type} [Monad m] (host : Host m)

def printAll : List String → m Unit
  | [] => pure ()
  | l :: ls => do
    host.print l
    printAll ls

/-- Writes units one after another, up to the first one that cannot be written. -/
def writeUnits (dir : String) : List OutputUnit → m (Except String Unit)
  | [] => pure (.ok ())
  | u :: us => do
    match ← host.write (Path.join dir u.name) u.contents with
    | .ok _ => writeUnits dir us
    | .error reason => pure (.error reason)

/-- Complains of a file or directory that cannot be used, and fails. -/
def giveUp (what path reason : String) : m UInt32 := do
  host.complain (what ++ " '" ++ path ++ "': " ++ reason)
  pure failure

/-- Carries out a plan. -/
def Plan.carryOut (outDir : String) (p : Plan) : m UInt32 := do
  printAll host p.report
  printComplaint p.complaint
  match p.units with
  | none => pure (if p.succeeds then success else failure)
  | some units =>
    match ← host.makeDirs outDir with
    | .error reason => giveUp host "Error writing to" outDir reason
    | .ok _ =>
      match ← writeUnits host outDir units with
      | .error reason => giveUp host "Error writing to" outDir reason
      | .ok _ => pure success
where
  /-- Prints a complaint if there is one. -/
  printComplaint : Option String → m Unit
    | some complaint => host.complain complaint
    | none => pure ()

/-- Reads the configuration of a run: the builtin types, or why there are none. -/
def readConfig : Option String → m (Except String Config)
  | none => pure (.ok .prelude)
  | some path => do
    match ← host.read path with
    | .error reason => pure (.error reason)
    | .ok text =>
      match Config.read? text with
      | some config => pure (.ok config)
      | none => pure (.error "not a list of builtin types")

/-- Reads the declaration tree of a run, or says why there is none. -/
def readDecls (path : String) : m (Except String (List Decl)) := do
  match ← host.read path with
  | .error reason => pure (.error reason)
  | .ok text =>
    match Decl.readAll? text with
    | some ds => pure (.ok ds)
    | none => pure (.error "not a declaration tree")

/-- Runs with valid arguments. The configuration is read before the tree. -/
def runWith (a : Arguments) : m UInt32 := do
  match ← readConfig host a.config with
  | .error reason => giveUp host "Error loading config" (a.config.getD "") reason
  | .ok config =>
    match ← readDecls host a.input with
    | .error reason => giveUp host "Error reading" a.input reason
    | .ok ds => (Plan.make a config ds).carryOut host a.outDir

/-- Runs the program; gives its exit code. -/
def run (words : List String) : m UInt32 := do
  match Request.parse words with
  | .run a => runWith host a
  | .help =>
    printAll host helpLines
    pure success
  | .version =>
    host.print versionLine
    pure success
  | .invalid =>
    host.complain usage
    pure usageFailure

end run

end Coherence.CommandLine
