import GridMarkup.Resource.Kind

/-!
# Notices

What the log says about a compilation.
-/

namespace GridMarkup

inductive Notice.Level where
  | warn
  | debug
  deriving DecidableEq, Repr

inductive Notice where
  | compiling (tokens stages : Nat)
  | impliedColumn (depth held : Nat)
  | rowsNeverClosed (rows held : Nat)
  | expanding (kind : Resource.Kind) (children : Nat)
  | blockNeverClosed (kind : Resource.Kind) (children : Nat)
  deriving DecidableEq, Repr

namespace Notice

def level : Notice → Level
  | .compiling .. | .impliedColumn .. | .expanding .. => .debug
  | .rowsNeverClosed .. | .blockNeverClosed .. => .warn

def origin : Notice → String
  | .compiling .. => "boot_transpiler::pipeline"
  | .impliedColumn .. | .rowsNeverClosed .. => "boot_transpiler::transform::grid"
  | .expanding .. | .blockNeverClosed .. => "boot_transpiler::transform::resource_shorthands"

def message : Notice → String
  | .compiling tokens stages => s!"compiling {tokens} token(s) through {stages} expander(s)"
  | .impliedColumn depth held =>
    s!"inserting implied column at row depth {depth} ({held} held token(s))"
  | .rowsNeverClosed rows held => s!"{rows} row(s) never closed; {held} held token(s) dropped"
  | .expanding kind children =>
    let name := kind.tagName
    s!"expanding <{name}> shorthand ({children} buffered token(s))"
  | .blockNeverClosed kind children =>
    let name := kind.tagName
    s!"<{name}> shorthand never closed; {children} buffered token(s) dropped"

end Notice

end GridMarkup
