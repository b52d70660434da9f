/-!
# Listings

A `Listing` is a growing text of lines with a current indentation. Its text ends every line with a
line break, and a line without text gets no blanks.
-/

namespace Coherence

/-- Lines of text written so far, and the number of steps that the next line is indented. -/
structure Listing where
  lines : List String := []
  depth : Nat := 0
deriving DecidableEq, Inhabited

namespace Listing

/-- The blanks in front of a line that is indented `depth` steps. -/
def margin : (depth : Nat) → String
  | 0 => ""
  | depth + 1 => "    " ++ margin depth

/-- A line's text at an indentation. -/
def indented (depth : Nat) (text : String) : String :=
  if text = "" then "" else margin depth ++ text

/-- Appends one line at the current indentation. -/
def line (l : Listing) (text : String) : Listing :=
  { l with lines := l.lines ++ [indented l.depth text] }

/-- Appends several lines at the current indentation. -/
def addLines (l : Listing) (texts : List String) : Listing := texts.foldl line l

/-- Indents the lines that follow by one step more. -/
def indent (l : Listing) : Listing := { l with depth := l.depth + 1 }

/-- Indents the lines that follow by one step less, if they are indented at all. -/
def dedent (l : Listing) : Listing := { l with depth := l.depth - 1 }

@[simp]
theorem depth_line (l : Listing) (text : String) : (l.line text).depth = l.depth := rfl

@[simp]
theorem depth_indent (l : Listing) : l.indent.depth = l.depth + 1 := rfl

@[simp]
theorem depth_dedent (l : Listing) : l.dedent.depth = l.depth - 1 := rfl

def isEmpty (l : Listing) : Bool := l.lines.isEmpty

/-- The whole text. -/
def text (l : Listing) : String := String.join (l.lines.map (· ++ "\n"))

end Listing

end Coherence
