import GridMarkup.Stage
import GridMarkup.Text.Indentation

/-!
# Running the stages

A token goes through the stages depth first: each token that a stage answers with has passed all
later stages before the next one starts. At the end the stages are finished in order, and what a
stage still answers passes the later ones. The indentation is that of the last source text.
-/

namespace GridMarkup

/-- One call of a stage, by its number and name. -/
structure Call where
  stage : Nat
  name : String
  event : Event
  indent : String
  reply : Reply
  deriving DecidableEq, Repr

/-- What a run sends out behind the last stage, and the calls it made. -/
structure Passage where
  output : List Token := []
  calls : List Call := []
  deriving DecidableEq, Repr

namespace Passage

instance : Append Passage := ⟨fun p q => ⟨p.output ++ q.output, p.calls ++ q.calls⟩⟩

def notices (p : Passage) : List Notice := p.calls.flatMap (·.reply.notices)

end Passage

/-- Stages at work on a document, and the indentation in force. -/
structure Expansion where
  stages : List Stage
  indent : String := ""
  deriving DecidableEq, Repr

namespace Expansion

/-! ## Stages -/

/-- Runs tokens one after the other, each through the stages that the one before left. -/
def feed (pass : List Stage → Token → List Stage × Passage) (stages : List Stage) :
    List Token → List Stage × Passage
  | [] => (stages, {})
  | t :: tokens =>
    let (stages, first) := pass stages t
    let (stages, rest) := feed pass stages tokens
    (stages, first ++ rest)

/-- Passes a token through the first `depth` stages; `number` is that of the first one. -/
def passWithin (indent : String) : Nat → Nat → List Stage → Token → List Stage × Passage
  | depth + 1, number, s :: later, t =>
    let (next, reply) := s.step indent t
    let (later, rest) := feed (passWithin indent depth (number + 1)) later reply.tokens
    (next :: later, { calls := [⟨number, s.name, .token t, indent, reply⟩] } ++ rest)
  | _, _, stages, t => (stages, { output := [t] })

def pass (indent : String) (stages : List Stage) (t : Token) : List Stage × Passage :=
  passWithin indent stages.length 0 stages t

def flushWithin (indent : String) : Nat → Nat → List Stage → List Stage × Passage
  | depth + 1, number, s :: later =>
    let (next, reply) := s.finish
    let (later, passed) := feed (passWithin indent depth (number + 1)) later reply.tokens
    let (later, rest) := flushWithin indent depth (number + 1) later
    (next :: later, { calls := [⟨number, s.name, .finish, indent, reply⟩] } ++ passed ++ rest)
  | _, _, stages => (stages, {})

def flush (indent : String) (stages : List Stage) : List Stage × Passage :=
  flushWithin indent stages.length 0 stages

/-! ## Documents -/

/-- The indentation behind a source token. -/
def indentAfter (indent : String) : Token → String
  | .text s => String.ofList (Text.indentation s.toList)
  | _ => indent

def accept (e : Expansion) (t : Token) : Expansion × Passage :=
  let indent := indentAfter e.indent t
  let (stages, passage) := pass indent e.stages t
  (⟨stages, indent⟩, passage)

def acceptAll (e : Expansion) : List Token → Expansion × Passage
  | [] => (e, {})
  | t :: tokens =>
    let (e, first) := e.accept t
    let (e, rest) := e.acceptAll tokens
    (e, first ++ rest)

def run (e : Expansion) (tokens : List Token) : Expansion × Passage :=
  let (e, body) := e.acceptAll tokens
  let (stages, ending) := flush e.indent e.stages
  ({ e with stages := stages }, body ++ ending)

/-- Runs documents one after the other. Only the indentation goes from one to the next. -/
def runAll (e : Expansion) : List (List Token) → Expansion × List Passage
  | [] => (e, [])
  | tokens :: documents =>
    let (e, first) := e.run tokens
    let (e, rest) := e.runAll documents
    (e, first :: rest)

end Expansion

end GridMarkup
