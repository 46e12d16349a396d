import GridMarkup.Position

/-!
# Faults

The one thing that can be wrong with a source is a construct that is opened and never closed.
-/

namespace GridMarkup

/-- Where a construct opens: its opening text, and the source from there to the end. -/
structure Opening where
  text : List Char
  source : List Char
  deriving DecidableEq, Repr

/-- The place of the opening text in the whole source. -/
def Opening.span (o : Opening) (source : List Char) : Span :=
  let start := Position.after {} (source.take (source.length - o.source.length))
  ⟨start, start.after o.text⟩

/-- What is never closed. A quoted value also knows the tag it belongs to. -/
inductive Fault where
  | comment (opening : Opening)
  | declaration (opening : Opening)
  | endTag (name : List Char) (opening : Opening)
  | startTag (name : List Char) (opening : Opening)
  | attributeValue (name : List Char) (quote : Char) (opening tag : Opening)
  deriving DecidableEq, Repr

end GridMarkup
