import GridMarkup.Text.Search

/-!
# Lines

A line ends at a line feed; a carriage return in front of it belongs to the line's end.
-/

namespace GridMarkup.Text

def endsWithReturn (line : List Char) : Bool := line.getLast? == some '\r'

/-- The line without one carriage return at its end. -/
def dropReturn (line : List Char) : List Char :=
  if endsWithReturn line then line.dropLast else line

/-- Only a line that a line feed closes loses its carriage return; an empty last part is no line. -/
def closeLines : List (List Char) → List (List Char)
  | [] => []
  | [last] => if last.isEmpty then [] else [last]
  | line :: rest => dropReturn line :: closeLines rest

def printedLines (s : List Char) : List (List Char) := closeLines (lines s)

end GridMarkup.Text
