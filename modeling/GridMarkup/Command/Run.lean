import GridMarkup.Command.Arguments
import GridMarkup.Command.Message
import GridMarkup.Path
import GridMarkup.Token.Json

/-!
# Running a command

A command reads a tree and standard input. It ends with an exit status, its output, its messages and
the tree with the files that it wrote.
-/

namespace GridMarkup.Command

open FileTree (Key)

structure Report where
  status : Nat := 0
  output : String := ""
  messages : List Message := []
  tree : FileTree

/-! ## Files -/

/-- The name of a source without its ending, which has to be the end of a longer name. -/
def sourceStem? (name : String) : Option String :=
  match Text.strip? sourceEnding.toList.reverse name.toList.reverse with
  | none | some [] => none
  | some stem => some (String.ofList stem.reverse)

def isSource (name : String) : Bool := (sourceStem? name).isSome

def outputName (name : String) : String := (sourceStem? name).getD name ++ ".html"

/-- The output lies beside its source. -/
def outputKey (key : Key) : Key := key.dropLast ++ [outputName (key.getLast?.getD "")]

def outputPath (path : String) : String := Path.withName path (outputName (Path.name path))

/-- What compiling one file says, and the tree with its output; no tree if it fails. -/
def compileSource (o : Options) (t : FileTree) (path : String) (key : Key) :
    List Message × Option FileTree :=
  match t.readText key with
  | .error fault => ([.failed (.unreadable path fault.message) "" path], none)
  | .ok source =>
    let compilation := compile o source
    let notices := compilation.notices.map Message.notice
    match compilation.result with
    | .error d => (notices ++ [.failed (.markup d) source path], none)
    | .ok html =>
      match t.write (outputKey key) html with
      | .error fault => (notices ++ [.unwritable (outputPath path) fault], none)
      | .ok t => (notices ++ [.written (outputPath path)], some t)

/-! ## Directories -/

structure Tally where
  tree : FileTree
  messages : List Message := []
  done : Nat := 0
  failed : Nat := 0

/-- Compiles the next source, given by its path and its key. -/
def Tally.next (o : Options) (tally : Tally) (source : String × Key) : Tally :=
  match compileSource o tally.tree source.1 source.2 with
  | (messages, some t) =>
    { tally with tree := t, messages := tally.messages ++ messages, done := tally.done + 1 }
  | (messages, none) =>
    { tally with messages := tally.messages ++ messages, failed := tally.failed + 1 }

/-- The sources below a directory, in the order in which they are compiled. -/
def sourcesBelow (t : FileTree) (path : String) (directory : Key) : List (String × Key) :=
  ((t.filesBelow directory).filter fun key => isSource (key.getLast?.getD "")).map fun key =>
    (Path.join path (key.drop directory.length), key)

/-- A failing source does not keep the others from being compiled. -/
def compileBelow (o : Options) (t : FileTree) (path : String) (directory : Key) : Report :=
  let tally := (sourcesBelow t path directory).foldl (Tally.next o) { tree := t }
  if tally.done = 0 ∧ tally.failed = 0 then
    { status := 1, messages := [.noSources path], tree := t }
  else
    { status := if tally.failed = 0 then 0 else 1
      messages := tally.messages ++ [.summary tally.done]
      tree := tally.tree }

/-! ## Commands -/

def compileNamed (o : Options) (t : FileTree) (path : String) : Report :=
  match Path.resolve t path with
  | .error _ => { status := 1, messages := [.missing path], tree := t }
  | .ok key =>
    if t.isDirectory key then compileBelow o t path key
    else if !isSource (Path.name path) then
      { status := 1, messages := [.notSource path], tree := t }
    else
      match compileSource o t path key with
      | (messages, none) => { status := 1, messages, tree := t }
      | (messages, some t) => { messages := messages ++ [.summary 1], tree := t }

def inputName : String := "<stdin>"

def compileInput (o : Options) (t : FileTree) (input : ByteArray) : Report :=
  match FileTree.decodeText input with
  | .error fault => { status := 1, messages := [.unreadableInput fault], tree := t }
  | .ok source =>
    let compilation := compile o source
    let notices := compilation.notices.map Message.notice
    match compilation.result with
    | .error d =>
      { status := 1, messages := notices ++ [.failed (.markup d) source inputName], tree := t }
    | .ok html => { output := html, messages := notices, tree := t }

def printTokens (decode : Bool) (t : FileTree) (source filename : String) : Report :=
  match readTokens decode source with
  | .error d => { status := 1, messages := [.failed (.markup d) source filename], tree := t }
  | .ok tokens => { output := Token.Json.ofTokens tokens ++ "\n", tree := t }

def tokensOfInput (decode : Bool) (t : FileTree) (input : ByteArray) : Report :=
  match FileTree.decodeText input with
  | .error fault => { status := 1, messages := [.unreadableInput fault], tree := t }
  | .ok source => printTokens decode t source inputName

def tokensOfPath (decode : Bool) (t : FileTree) (path : String) : Report :=
  match Path.readText t path with
  | .error fault =>
    { status := 1, messages := [.failed (.unreadable path fault.message) "" path], tree := t }
  | .ok source => printTokens decode t source path

def Job.run (t : FileTree) (input : ByteArray) : Job → Report
  | .compile o .input => compileInput o t input
  | .compile o (.path path) => compileNamed o t path
  | .tokens decode .input => tokensOfInput decode t input
  | .tokens decode (.path path) => tokensOfPath decode t path

end GridMarkup.Command
