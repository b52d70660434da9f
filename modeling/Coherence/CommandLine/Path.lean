/-!
# Paths

A path names a file or directory by the names on the way to it, with slashes between them.
`Path.join` names a file in a directory; `Path.enclosing` lists the directories that a path leads
through.
-/

namespace Coherence.CommandLine.Path

def isAbsolute (path : String) : Bool := path.toList.head? == some '/'

/-- The path of a file in a directory. An absolute path leads to the same file from everywhere. -/
def join (dir file : String) : String :=
  if isAbsolute file then file
  else if dir.toList.getLast? == some '/' then dir ++ file
  else dir ++ "/" ++ file

/-- A text cut at its slashes. -/
def pieces : List Char → List (List Char)
  | [] => [[]]
  | c :: cs =>
    if c = '/' then [] :: pieces cs
    else match pieces cs with
      | [] => [[c]]
      | p :: ps => (c :: p) :: ps

/-- Does the piece lead on from the place that the pieces before it lead to? -/
def leadsOn (piece : List Char) : Bool := piece != [] && piece != ['.']

/-- The steps of a path. A dot is one only where the path starts. -/
def steps (path : String) : List (List Char) :=
  match pieces path.toList with
  | [] => []
  | first :: rest => (if first = [] then [] else [first]) ++ rest.filter leadsOn

/-- The paths of all steps but the last, from the outside in, after the text in front of them. -/
def outer (front : List Char) : List (List Char) → List String
  | [] => []
  | [_] => []
  | s :: t :: rest => String.ofList (front ++ s) :: outer (front ++ s ++ ['/']) (t :: rest)

/-- The directories that a path leads through, from the outside in: neither the root nor the
directory that it starts from, nor its end. -/
def enclosing (path : String) : List String :=
  outer (if isAbsolute path then ['/'] else []) (steps path)

end Coherence.CommandLine.Path
