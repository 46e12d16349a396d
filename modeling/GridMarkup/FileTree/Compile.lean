import GridMarkup.Compile
import GridMarkup.Path

/-!
# Compiling a file

The file may fail to be read before its markup can fail.
-/

namespace GridMarkup.FileTree

def compile (t : FileTree) (o : Options) (path : String) : Except Failure String :=
  match Path.readText t path with
  | .error fault => .error (.unreadable path fault.message)
  | .ok source =>
    match (GridMarkup.compile o source).result with
    | .error d => .error (.markup d)
    | .ok html => .ok html

end GridMarkup.FileTree
