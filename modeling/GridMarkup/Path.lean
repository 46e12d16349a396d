import GridMarkup.FileTree
import GridMarkup.Text.Search

/-!
# Paths

A path is the text that names a file, with `/` between its parts. Following it through a tree gives
the key of what it names; the spelling of the path is kept for messages.
-/

namespace GridMarkup.Path

open FileTree (AccessFault Key)

def parts (path : String) : List String :=
  (Text.splitWhere (· == '/') path.toList).map String.ofList

/-! ## Following a path -/

/-- Goes one part further: an empty part and `.` stay, `..` goes back. Nothing is above the root. -/
def follow (key : Key) (part : String) : Key :=
  if part = "" ∨ part = "." then key
  else if part = ".." ∧ key = [""] then key
  else if part = ".." ∧ ¬ key.all (· == "..") then key.dropLast
  else key ++ [part]

/-- Where a path starts, and the parts to follow from there. A path that starts with `/` leads from
the root. -/
def start (path : String) : Key × List String :=
  match parts path with
  | "" :: rest => ([""], rest)
  | parts => ([], parts)

/-- The key of a path, whether there is such a file or not. -/
def key (path : String) : Key := (start path).2.foldl follow (start path).1

/-- The longest name that a directory can hold, in bytes. -/
def nameLimit : Nat := 255

/-- The longest path, in bytes. -/
def pathLimit : Nat := 4095

def enter (t : FileTree) (key : Key) (part : String) : Except AccessFault Key :=
  if !t.isDirectory key then .error .notDirectory
  else if part.utf8ByteSize > nameLimit then .error .nameTooLong
  else if t.contains (follow key part) then .ok (follow key part)
  else .error .notFound

def resolve (t : FileTree) (path : String) : Except AccessFault Key :=
  if path = "" then .error .notFound
  else if path.toList.contains '\x00' then .error .embeddedNul
  else if path.utf8ByteSize > pathLimit then .error .nameTooLong
  else (start path).2.foldlM (enter t) (start path).1

def readText (t : FileTree) (path : String) : Except AccessFault String :=
  resolve t path >>= t.readText

/-! ## Spelling -/

def name (path : String) : String := ((parts path).getLast?).getD ""

def join (directory : String) (below : Key) : String :=
  let separator := if directory.toList.getLast? = some '/' then "" else "/"
  directory ++ separator ++ "/".intercalate below

/-- Puts another name in place of the last part. Parts right in front of it that name no step are
dropped, the first part apart. -/
def withName (path newName : String) : String :=
  match (parts path).dropLast with
  | [] => newName
  | first :: rest =>
    let kept := (rest.reverse.dropWhile fun part => part == "" || part == ".").reverse
    "/".intercalate (first :: kept ++ [newName])

end GridMarkup.Path
