import Coherence.CommandLine.Run
/-!
# The program

The command line over the files of the machine it runs on.
-/

namespace Coherence.CommandLine

/-- The result of an action, or what went wrong. -/
def attempt {α : Type} (action : IO α) : IO (Except String α) := do
  try
    return .ok (← action)
  catch e =>
    return .error (toString e)

def makeLocalDir (path : String) : IO MakeDir := do
  try
    IO.FS.createDir path
    return .made
  catch
    | .noFileOrDirectory .. => return .missing
    | .alreadyExists .. =>
      if ← (← IO.FS.realPath path).isDir then return .present
      else return .refused "a file of this name exists"
    | e => return .refused (toString e)

/-- Writes a file of the machine. No file has a name with a zero character. -/
def writeLocalFile (path contents : String) : IO (Except String Unit) :=
  if path.contains '\x00' then return .error "a file name holds no zero character"
  else attempt (IO.FS.writeFile path contents)

/-- The files of the machine, and its terminal. -/
def localHost : Host IO where
  read path := attempt (IO.FS.readFile path)
  makeDir := makeLocalDir
  write := writeLocalFile
  print := IO.println
  complain := IO.eprintln

end Coherence.CommandLine

/-- Runs the program. -/
def main (words : List String) : IO UInt32 :=
  Coherence.CommandLine.run Coherence.CommandLine.localHost words
