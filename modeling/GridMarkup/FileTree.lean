/-!
# File trees

Files and directories by name. A key lists the names on the way from the working directory; a
directory is there if it is entered itself or if something below it is. Everything can be read, but
not everything can be written.
-/

namespace GridMarkup

abbrev FileTree.Key := List String

inductive FileTree.Entry where
  | file (content : ByteArray)
  | directory

/-- The entries, at most one for each key, and the keys at which no file may be written: one that is
there keeps its content, and none comes where there is none. -/
structure FileTree where
  entries : List (FileTree.Key × FileTree.Entry) := []
  readOnly : List FileTree.Key := []

namespace FileTree

/-- What can go wrong on the way to a file, or on reading or writing it. -/
inductive AccessFault where
  | notFound
  | notDirectory
  | isDirectory
  | permissionDenied
  | nameTooLong
  | embeddedNul
  | invalidText
  deriving DecidableEq, Repr

def AccessFault.message : AccessFault → String
  | .notFound => "No such file or directory (os error 2)"
  | .notDirectory => "Not a directory (os error 20)"
  | .isDirectory => "Is a directory (os error 21)"
  | .permissionDenied => "Permission denied (os error 13)"
  | .nameTooLong => "File name too long (os error 36)"
  | .embeddedNul => "file name contained an unexpected NUL byte"
  | .invalidText => "stream did not contain valid UTF-8"

def find? (t : FileTree) (key : Key) : Option Entry := t.entries.lookup key

/-- The entry says that there is a directory at a key or above one. -/
def Entry.makesDirectory (key : Key) : Key × Entry → Bool
  | (k, .directory) => key.isPrefixOf k
  | (k, .file _) => key.isPrefixOf k && k != key

/-- The working directory, the directories around it and the root are always there. -/
def isDirectory (t : FileTree) (key : Key) : Bool :=
  key.all (· == "..") || key == [""] || t.entries.any (Entry.makesDirectory key)

def contains (t : FileTree) (key : Key) : Bool := (t.find? key).isSome || t.isDirectory key

def read (t : FileTree) (key : Key) : Except AccessFault ByteArray :=
  match t.find? key with
  | some (.file content) => .ok content
  | _ => .error (if t.isDirectory key then .isDirectory else .notFound)

def decodeText (content : ByteArray) : Except AccessFault String :=
  match String.fromUTF8? content with
  | some s => .ok s
  | none => .error .invalidText

def readText (t : FileTree) (key : Key) : Except AccessFault String := t.read key >>= decodeText

def replace (key : Key) (entry : Entry) : List (Key × Entry) → List (Key × Entry)
  | [] => [(key, entry)]
  | (k, e) :: rest => if k = key then (key, entry) :: rest else (k, e) :: replace key entry rest

/-- What keeps a file from being written whose directory is there. -/
def writeFault? (t : FileTree) (key : Key) : Option AccessFault :=
  if t.isDirectory key then some .isDirectory
  else if t.readOnly.contains key then some .permissionDenied
  else none

def write (t : FileTree) (key : Key) (text : String) : Except AccessFault FileTree :=
  match t.writeFault? key with
  | some fault => .error fault
  | none => .ok { t with entries := replace key (.file text.toUTF8) t.entries }

/-! ## Walking -/

/-- Names are ordered by their characters, which is the order of their bytes. -/
def nameBefore (a b : String) : Bool :=
  List.lex a.toList b.toList fun c d => decide (c.toNat < d.toNat)

/-- Keys are ordered by their names, from the first on. -/
def keyBefore (a b : Key) : Bool := List.lex a b nameBefore

def fileBelow? (directory : Key) : Key × Entry → Option Key
  | (key, .file _) => if directory.isPrefixOf key then some key else none
  | (_, .directory) => none

/-- The files below a directory, depth first and by name in each directory. -/
def filesBelow (t : FileTree) (directory : Key) : List Key :=
  (t.entries.filterMap (fileBelow? directory)).mergeSort fun a b => !keyBefore b a

end FileTree

end GridMarkup
