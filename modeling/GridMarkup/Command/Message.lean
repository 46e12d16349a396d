import GridMarkup.Diagnostic
import GridMarkup.FileTree
import GridMarkup.Reply

/-!
# Messages

All that a command says beside its output, in the order in which it says it.
-/

namespace GridMarkup.Command

def sourceEnding : String := ".boot.html"

inductive Message where
  | notice (n : Notice)
  | failed (failure : Failure) (source filename : String)
  | unreadableInput (fault : FileTree.AccessFault)
  | notSource (path : String)
  | missing (path : String)
  | noSources (path : String)
  | unwritable (path : String) (fault : FileTree.AccessFault)
  | written (path : String)
  | summary (count : Nat)
  deriving DecidableEq, Repr

namespace Message

/-- The names of the levels are as wide as the widest. -/
def levelText : Notice.Level → String
  | .warn => "WARN "
  | .debug => "DEBUG"

/-- A notice as a line of the log; debug notices are logged on request. -/
def noticeText (verbose : Bool) (n : Notice) : String :=
  if n.level = .debug ∧ ¬ verbose then ""
  else
    let level := levelText n.level
    let origin := n.origin
    let message := n.message
    s!"[{level} {origin}] {message}\n"

/-- The text of a message, where `time` says how long the command took. -/
def text (palette : Palette) (verbose : Bool) (time : String) : Message → String
  | .notice n => noticeText verbose n
  | .failed failure source filename => failure.render palette source filename
  | .unreadableInput fault =>
    let cause := fault.message
    s!"Error: failed to read stdin: {cause}\n"
  | .notSource path => s!"Error: {path} is not a {sourceEnding} file\n"
  | .missing path => s!"Error: {path} does not exist\n"
  | .noSources path => s!"No {sourceEnding} files found in {path}\n"
  | .unwritable path fault =>
    let cause := fault.message
    s!"Error: failed to write {path}: {cause}\n"
  | .written path =>
    let green := palette.green
    let reset := palette.reset
    s!"  {green}✓{reset} {path}\n"
  | .summary count =>
    let files := if count = 1 then "file" else "files"
    let bold := palette.bold
    let reset := palette.reset
    s!"\n{bold}✨ Compiled {count} {files} in {time}{reset}\n"

end Message

end GridMarkup.Command
