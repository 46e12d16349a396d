import GridMarkup.Text.Lines

/-!
# The layout of a list of resources

A text becomes pieces: the address of each line that has one, and between them the blanks that keep
the lines where they are. The first line continues what stands before it and keeps its own blanks;
later lines get the indentation of the block.
-/

namespace GridMarkup.Resource

open Text

inductive Piece where
  | text (s : List Char)
  | resource (url : List Char)
  deriving DecidableEq, Repr

namespace Piece

/-- Joins neighbouring texts and drops empty ones. -/
def merge : List Piece → List Piece
  | [] => []
  | .resource url :: rest => .resource url :: merge rest
  | .text s :: rest =>
    if s.isEmpty then merge rest
    else
      match merge rest with
      | .text t :: rest => .text (s ++ t) :: rest
      | rest => .text s :: rest

end Piece

/-- The pieces of one line. `lead` stands in front of its address, and `blank` for a line without
one; where they are not given, the line keeps its own blanks. A carriage return stays at the end. -/
def linePieces (lead blank : Option (List Char)) (line : List Char) : List Piece :=
  let body := dropReturn line
  let carriageReturn := if endsWithReturn line then [Piece.text ['\r']] else []
  if (trim body).isEmpty then .text (blank.getD body) :: carriageReturn
  else .text (lead.getD (leadingBlanks body)) :: .resource (trim body) :: carriageReturn

/-- The lines behind the first. If another token follows the text, a blank last line is that token's
indentation. -/
def laterPieces (indent : List Char) (followed : Bool) : List (List Char) → List Piece
  | [] => []
  | [last] =>
    .text ['\n'] :: linePieces (some indent) (if followed then some indent else none) last
  | line :: rest =>
    .text ['\n'] :: linePieces (some indent) none line ++ laterPieces indent followed rest

def layout (indent : List Char) (followed : Bool) (s : List Char) : List Piece :=
  match lines s with
  | [] => []
  | first :: later => Piece.merge (linePieces none none first ++ laterPieces indent followed later)

end GridMarkup.Resource
