import Coherence.CompileError
/-!
# Diagnostics

A `Diagnostic` tells the author of a specification what is wrong with a declaration, and where.
-/

namespace Coherence

/-- How bad it is. -/
inductive Severity
  | error
  | warning
deriving DecidableEq, Inhabited

def Severity.text : Severity → String
  | error => "error"
  | warning => "warning"

/-- A message about a place in a specification. -/
structure Diagnostic where
  severity : Severity
  code : String
  message : String
  location : Location
deriving DecidableEq, Inhabited

namespace Diagnostic

/-- The diagnostic of a failed declaration. It stands where the error arose, or at `fallback` if the
error has no place or an unknown one. -/
def ofError (e : DeclError) (fallback : Location) : Diagnostic :=
  { severity := .error
    code := e.error.code
    message := e.message
    location := match e.error.location? with
      | some location => if location = .unknown then fallback else location
      | none => fallback }

/-- The warning about a body that is checked for nothing. -/
def unusedBody (f : Func) : Diagnostic :=
  { severity := .warning
    code := "W0001"
    message := "`" ++ f.ident ++ "` is external; its body is checked but not emitted"
    location := f.location }

/-- The diagnostic as one line of a report. -/
def text (d : Diagnostic) : String :=
  d.location.text ++ ": " ++ d.severity.text ++ " [" ++ d.code ++ "]: " ++ d.message

end Diagnostic

end Coherence
