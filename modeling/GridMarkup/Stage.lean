import GridMarkup.Grid
import GridMarkup.Resource.Block

/-!
# Stages

A stage expands a stream of tokens one at a time, with a state in between. At the end of the stream
it returns to its first state.
-/

namespace GridMarkup

/-- A stage in a state. `idle` passes every token on. -/
inductive Stage where
  | resources (block : Option Resource.Block)
  | grid (state : Grid)
  | idle
  deriving DecidableEq, Repr

inductive Event where
  | token (t : Token)
  | finish
  deriving DecidableEq, Repr

namespace Stage

def name : Stage → String
  | .resources _ => "resource-shorthands"
  | .grid _ => "grid"
  | .idle => "defaults"

/-- The stage before its first token. -/
def fresh : Stage → Stage
  | .resources _ => .resources none
  | .grid _ => .grid {}
  | .idle => .idle

/-- The answer to a token, where `indent` is the indentation in force. -/
def step (indent : String) : Stage → Token → Stage × Reply
  | .resources block, t =>
    let (block, reply) := Resource.step indent block t
    (.resources block, reply)
  | .grid g, t =>
    let (g, reply) := g.step t
    (.grid g, reply)
  | .idle, t => (.idle, { tokens := [t] })

/-- What a stage still has to say at the end of the stream. -/
def lastReply : Stage → Reply
  | .resources block => Resource.finish block
  | .grid g => g.finish
  | .idle => {}

def finish (s : Stage) : Stage × Reply := (s.fresh, s.lastReply)

def handle (indent : String) (s : Stage) : Event → Stage × Reply
  | .token t => s.step indent t
  | .finish => s.finish

/-- The answers to a stream of events, each with the stage that it leaves. -/
def handleAll (indent : String) (s : Stage) : List Event → List (Stage × Reply)
  | [] => []
  | event :: events =>
    let answer := s.handle indent event
    answer :: handleAll indent answer.1 events

end Stage

end GridMarkup
