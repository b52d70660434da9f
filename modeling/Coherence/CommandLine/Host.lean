import Coherence.CommandLine.Path
/-!
# Hosts

A `Host` stands for the files and the terminal that a run works with. `Host.makeDirs` makes a
directory together with the missing ones that it lies in. It climbs from the directory outwards to
the first one that it can make or finds there, and then makes the others from the outside in.
-/

namespace Coherence.CommandLine

/-- What came of making a directory. -/
inductive MakeDir
  | made
  /-- There was such a directory. -/
  | present
  /-- A directory on the way to it is missing. -/
  | missing
  | refused (reason : String)
deriving DecidableEq, Inhabited

/-- The files and the terminal that a run works with. -/
structure Host (m : Type → Type) where
  /-- The text of a file, or why it cannot be read. -/
  read : (path : String) → m (Except String String)
  /-- Makes a directory inside one that is there. -/
  makeDir : (path : String) → m MakeDir
  /-- Writes a file. -/
  write : (path contents : String) → m (Except String Unit)
  /-- Prints a line. -/
  print : String → m Unit
  /-- Prints a line of complaint. -/
  complain : String → m Unit

namespace Host

variable {m : Type → Type} [Monad m] (host : Host m)

/-- Makes the first of some directories, from the inside out, that can be made or is there. Gives
those in front of it, which are missing, after the ones in `inside`, from the outside in. -/
def climb (inside : List String) : List String → m (Except String (List String))
  | [] => pure (.ok inside)
  | dir :: dirs => do
    match ← host.makeDir dir with
    | .made => pure (.ok inside)
    | .present => pure (.ok inside)
    | .missing => climb (dir :: inside) dirs
    | .refused reason => pure (.error reason)

def makeEach : List String → m (Except String Unit)
  | [] => pure (.ok ())
  | dir :: dirs => do
    match ← host.makeDir dir with
    | .made => makeEach dirs
    | .present => makeEach dirs
    | .missing => pure (.error "a directory on the way is missing")
    | .refused reason => pure (.error reason)

/-- Makes a directory and those it lies in, where they are missing. The root is always there. -/
def makeDirs (path : String) : m (Except String Unit) :=
  if Path.steps path = [] then pure (.ok ())
  else do
    match ← host.climb [] (path :: (Path.enclosing path).reverse) with
    | .ok missing => host.makeEach missing
    | .error reason => pure (.error reason)

end Host

end Coherence.CommandLine
