/-!
# Command line arguments

`Request.parse` reads the arguments of the program. An option's value follows it as the next
argument or is attached to it; no option is given twice, and after two hyphens alone every argument
is an input. Values are never empty.
-/

namespace Coherence.CommandLine

/-- The arguments of a run. -/
structure Arguments where
  /-- The file with the declaration tree. -/
  input : String
  /-- The file with the builtin types. -/
  config : Option String := none
  /-- The directory for generated files. -/
  outDir : String := "generated"
  dryRun : Bool := false
deriving DecidableEq, Inhabited

/-- What the arguments ask for. -/
inductive Request
  | run (arguments : Arguments)
  | help
  | version
  | invalid
deriving DecidableEq, Inhabited

/-- The options that take a value. -/
inductive OptionName
  | config
  | outDir
deriving DecidableEq

/-- One argument by itself. -/
inductive Argument
  | input (value : String)
  /-- Two hyphens: inputs follow. -/
  | onlyInputs
  /-- An option, with its value if that is attached. -/
  | option (name : OptionName) (value : Option String)
  | dryRun
  | help
  | version
  | unknown
deriving DecidableEq

namespace Argument

/-- The argument that a long name and an attached value are. -/
def ofLong (name : List Char) (value : Option String) : Argument :=
  match String.ofList name, value with
  | "config", value => option .config value
  | "out-dir", value => option .outDir value
  | "dry-run", none => dryRun
  | "help", none => help
  | "version", none => version
  | _, _ => unknown

/-- The value attached to a letter. An equals sign in front of it is dropped. -/
def attached : List Char → Option String
  | [] => none
  | '=' :: value => some (String.ofList value)
  | value => some (String.ofList value)

/-- The argument that a letter and the characters after it are. -/
def ofShort (letter : Char) (rest : List Char) : Argument :=
  match letter with
  | 'c' => option .config (attached rest)
  | 'o' => option .outDir (attached rest)
  | 'h' => help
  | 'V' => version
  | _ => unknown

/-- The argument that a word is. A hyphen alone is an input. -/
def ofWord (word : String) : Argument :=
  match word.toList with
  | ['-'] => input word
  | ['-', '-'] => onlyInputs
  | '-' :: '-' :: rest =>
    let name := rest.takeWhile (· != '=')
    ofLong name <| match rest.drop name.length with
      | _ :: value => some (String.ofList value)
      | [] => none
  | '-' :: letter :: rest => ofShort letter rest
  | _ => input word

end Argument

/-- The arguments seen so far. -/
structure Seen where
  input : Option String := none
  config : Option String := none
  outDir : Option String := none
  dryRun : Bool := false

namespace Seen

/-- Takes an input. There is one, and it is not empty. -/
def addInput (s : Seen) (value : String) : Option Seen :=
  if value = "" ∨ s.input ≠ none then none else some { s with input := value }

/-- Takes the value of an option. An option is given once, and its value is not empty. -/
def addOption (s : Seen) (value : String) : OptionName → Option Seen
  | .config => if value = "" ∨ s.config ≠ none then none else some { s with config := value }
  | .outDir => if value = "" ∨ s.outDir ≠ none then none else some { s with outDir := value }

/-- The request at the end of the arguments. -/
def finish (s : Seen) : Request :=
  match s.input with
  | none => .invalid
  | some input =>
    let a : Arguments := { input, config := s.config, dryRun := s.dryRun }
    .run (match s.outDir with
      | some outDir => { a with outDir }
      | none => a)

/-- Reads the arguments after two hyphens. -/
def parseInputs (s : Seen) : List String → Request
  | [] => s.finish
  | word :: rest =>
    match s.addInput word with
    | some s => parseInputs s rest
    | none => .invalid

/-- Reads arguments from left to right. What comes after a request for help is not looked at. -/
def parse (s : Seen) : List String → Request
  | [] => s.finish
  | word :: rest =>
    match Argument.ofWord word with
    | .input value =>
      match s.addInput value with
      | some s => parse s rest
      | none => .invalid
    | .onlyInputs => parseInputs s rest
    | .option name (some value) =>
      match s.addOption value name with
      | some s => parse s rest
      | none => .invalid
    | .option name none =>
      match rest with
      | [] => .invalid
      | value :: rest =>
        match Argument.ofWord value with
        | .input value =>
          match s.addOption value name with
          | some s => parse s rest
          | none => .invalid
        | _ => .invalid
    | .dryRun => if s.dryRun then .invalid else parse { s with dryRun := true } rest
    | .help => .help
    | .version => .version
    | .unknown => .invalid

end Seen

def Request.parse (words : List String) : Request := Seen.parse {} words

end Coherence.CommandLine
