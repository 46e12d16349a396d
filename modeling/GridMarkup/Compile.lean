import GridMarkup.Diagnostic
import GridMarkup.Scan
import GridMarkup.Token.Write
import GridMarkup.Expansion

/-!
# Compiling

A source is read into tokens, the tokens are expanded, and the result is written as markup.
-/

namespace GridMarkup

/-- The tokens of a source. With `decode`, references in text and values are decoded. -/
def readTokens (decode : Bool) (source : String) : Except Diagnostic (List Token) :=
  match Scan.scan decode source.toList with
  | .ok tokens => .ok tokens
  | .error fault => .error (fault.diagnostic source.toList)

structure Options where
  /-- References are decoded when read and escaped when written. -/
  decode : Bool := false
  grid : Bool := true
  resources : Bool := true
  deriving DecidableEq, Repr

/-- Resource blocks come first, so that their includes count as content of a row. -/
def Options.stages (o : Options) : List Stage :=
  (if o.resources then [.resources none] else []) ++ (if o.grid then [.grid {}] else [])

/-- The result of compiling a source, and what the log says about it. -/
structure Compilation where
  result : Except Diagnostic String
  notices : List Notice := []

def compile (o : Options) (source : String) : Compilation :=
  match readTokens o.decode source with
  | .error d => { result := .error d }
  | .ok tokens =>
    let passage := (Expansion.run { stages := o.stages } tokens).2
    { result := .ok (Token.write o.decode passage.output)
      notices := .compiling tokens.length o.stages.length :: passage.notices }

end GridMarkup
