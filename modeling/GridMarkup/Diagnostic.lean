import GridMarkup.Fault
import GridMarkup.Text.Lines

/-!
# Diagnostics

A diagnostic says what is wrong, where, and what helps. Printed, it shows the line of each span with
carets under the characters it points at.
-/

namespace GridMarkup

namespace Diagnostic

inductive Kind where
  | comment
  | tag
  | attributeValue
  deriving DecidableEq, Repr

def Kind.title : Kind → String
  | .comment => "Unterminated comment"
  | .tag => "Unterminated tag"
  | .attributeValue => "Unterminated attribute value"

end Diagnostic

structure Diagnostic where
  kind : Diagnostic.Kind
  message : String
  span : Span
  /-- Where the construct around the faulty one opens. -/
  related : Option Span := none
  label : Option String := none
  help : Option String := none
  deriving DecidableEq, Repr

/-! ## From faults -/

def Fault.diagnostic (source : List Char) : Fault → Diagnostic
  | .comment opening =>
    { kind := .comment
      message := "comment is never closed"
      span := opening.span source
      help := some "Close the comment with -->" }
  | .declaration opening =>
    { kind := .tag
      message := "markup declaration is never closed"
      span := opening.span source
      help := some "Close the declaration with >" }
  | .endTag name opening =>
    { kind := .tag
      message := "end tag </" ++ String.ofList name ++ "> is never closed"
      span := opening.span source
      help := some "Add the closing >" }
  | .startTag name opening =>
    { kind := .tag
      message := "start tag <" ++ String.ofList name ++ "> is never closed"
      span := opening.span source
      help := some "Add the closing > or />" }
  | .attributeValue name quote opening tag =>
    { kind := .attributeValue
      message := "value of attribute '" ++ String.ofList name ++ "' is never closed"
      span := opening.span source
      related := some (tag.span source)
      label := some "tag opened here"
      help := some ("Add the closing " ++ quote.toString) }

/-! ## Printing -/

/-- The codes that switch a colour on and off again. -/
structure Palette where
  red : String
  dim : String
  cyan : String
  green : String
  bold : String
  reset : String

def Palette.plain : Palette := ⟨"", "", "", "", "", ""⟩

def Palette.ansi : Palette :=
  ⟨"\x1b[1;31m", "\x1b[2m", "\x1b[1;38;5;73m", "\x1b[32m", "\x1b[1m", "\x1b[0m"⟩

namespace Diagnostic

/-- Lines and columns are shown from one. -/
def headline (d : Diagnostic) : String :=
  let title := d.kind.title
  let line := d.span.start.line + 1
  let column := d.span.start.column + 1
  let message := d.message
  s!"{title} at {line}:{column}: {message}"

/-- How many carets a span gets in its line: at least one, and all up to the end of the line where
the span goes on behind it. -/
def caretCount (span : Span) (line : List Char) : Nat :=
  max 1 ((if span.stop.line = span.start.line then span.stop.column else line.length) -
    span.start.column)

def padLeft (width : Nat) (s : String) : String :=
  String.ofList (List.replicate (width - s.length) ' ') ++ s

/-- The line of a span and the carets under it; nothing if the source has no such line. -/
def excerpt (palette : Palette) (caretColour label : String) (source : List Char) (span : Span) :
    String :=
  match (Text.printedLines source)[span.start.line]? with
  | none => ""
  | some text =>
    let dim := palette.dim
    let reset := palette.reset
    let number := toString (span.start.line + 1)
    let width := max 2 number.length
    let gutter := padLeft width ""
    let numbered := padLeft width number
    let line := String.ofList text
    let indent := String.ofList (List.replicate span.start.column ' ')
    let carets := String.ofList (List.replicate (caretCount span text) '^')
    s!"{dim}{gutter} |{reset}\n{dim}{numbered} |{reset} {line}\n" ++
      s!"{dim}{gutter} |{reset} {indent}{caretColour}{carets}{label}{reset}\n"

/-- The first line of a help text stands behind its mark, the others under it. -/
def helpLines (palette : Palette) (help : String) : String :=
  let cyan := palette.cyan
  let reset := palette.reset
  match (Text.printedLines help.toList).map String.ofList with
  | [] => "\n"
  | first :: others =>
    s!"\n {cyan}help:{reset} {first}\n" ++ String.join (others.map fun line => s!"       {line}\n")

def render (palette : Palette) (source filename : String) (d : Diagnostic) : String :=
  let dim := palette.dim
  let red := palette.red
  let reset := palette.reset
  let line := d.span.start.line + 1
  let column := d.span.start.column + 1
  let title := d.kind.title
  let message := d.message
  let related :=
    match d.related with
    | none => ""
    | some span => excerpt palette dim (" " ++ d.label.getD "opened here") source.toList span
  s!"\n {dim}file:{reset} {filename}:{line}:{column}\n{red}error:{reset} {title}: {message}\n" ++
    excerpt palette red "" source.toList d.span ++ related ++
    (d.help.map (helpLines palette)).getD "" ++ "\n"

end Diagnostic

/-! ## All that can fail -/

/-- A compilation fails on its markup, or before it on reading the file. -/
inductive Failure where
  | markup (diagnostic : Diagnostic)
  | unreadable (path cause : String)
  deriving DecidableEq, Repr

namespace Failure

def headline : Failure → String
  | .markup d => d.headline
  | .unreadable path cause => s!"failed to read {path}: {cause}"

def cause : Failure → String
  | .markup d => d.headline
  | .unreadable _ cause => cause

def render (palette : Palette) (source filename : String) : Failure → String
  | .markup d => d.render palette source filename
  | .unreadable path cause =>
    let red := palette.red
    let bold := palette.bold
    let reset := palette.reset
    s!"{red}error{reset}: {bold}failed to read {path}: {cause}{reset}\n"

end Failure

end GridMarkup
