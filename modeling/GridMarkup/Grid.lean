import GridMarkup.Grid.Tags
import GridMarkup.Reply
import GridMarkup.Text.Blank

/-!
# The grid

Grid tags are expanded one by one. Beyond that, a row whose content does not start with a column
gets a column around it. Blank text and comments at the start of a row are held until it is clear
which it is.
-/

namespace GridMarkup

/-- A row that is open: without a column yet, with one of its own, or with an implied one. -/
inductive Grid.Row where
  | waiting
  | filled
  | implied
  deriving DecidableEq, Repr

/-- The open rows, innermost first, and the tokens held for the innermost. -/
structure Grid where
  rows : List Grid.Row := []
  held : List Token := []
  deriving DecidableEq, Repr

namespace Grid

def isWaiting (g : Grid) : Bool := g.rows.head? == some .waiting

/-- A column of its own keeps a row from getting an implied one. -/
def fill : List Row → List Row
  | .waiting :: outer => .filled :: outer
  | rows => rows

/-- Content other than a column has arrived: a waiting row gets its implied column, and what was
held follows inside. -/
def settle (g : Grid) : Grid × Reply :=
  match g.rows with
  | .waiting :: outer =>
    (⟨.implied :: outer, []⟩,
      ⟨impliedColumn :: g.held, [.impliedColumn (outer.length + 1) g.held.length]⟩)
  | _ => (g, {})

/-- A column that closes itself stands beside the content of the row, which goes on waiting. -/
def column (g : Grid) (tag : StartTag) : Grid × Reply :=
  (⟨if tag.selfClosing then g.rows else fill g.rows, []⟩, { tokens := g.held ++ expandStart tag })

/-- The rows behind a start tag that is no column. -/
def rowsAfter (tag : StartTag) (rows : List Row) : List Row :=
  if tag.name = rowName ∧ ¬ tag.selfClosing then .waiting :: rows else rows

/-- An implied column ends where its row ends. -/
def closeColumn (name : String) (rows : List Row) : List Token :=
  if name = rowName ∧ rows.head? = some .implied then [.endTag element] else []

/-- Any content but columns: the row is settled, then the token follows. -/
def content (g : Grid) (t : Token) : Grid × Reply :=
  let (settled, reply) := g.settle
  match t with
  | .startTag tag =>
    ({ settled with rows := rowsAfter tag settled.rows },
      { reply with tokens := reply.tokens ++ expandStart tag })
  | .endTag name =>
    ({ settled with rows := if name = rowName then settled.rows.drop 1 else settled.rows },
      { reply with tokens := reply.tokens ++ closeColumn name settled.rows ++ [expandEnd name] })
  | t => (settled, { reply with tokens := reply.tokens ++ [t] })

def hold (g : Grid) (t : Token) : Grid × Reply := ({ g with held := g.held ++ [t] }, {})

def step (g : Grid) : Token → Grid × Reply
  | .startTag tag => if isColumn tag.name then g.column tag else g.content (.startTag tag)
  | .text s =>
    if g.isWaiting ∧ s.toList.all Text.isBlank then g.hold (.text s) else g.content (.text s)
  | .comment s => if g.isWaiting then g.hold (.comment s) else (g, { tokens := [.comment s] })
  | t => g.content t

/-- Rows that are still open at the end are given up, with what was held for them. -/
def finish (g : Grid) : Reply :=
  if g.rows.isEmpty then {} else { notices := [.rowsNeverClosed g.rows.length g.held.length] }

end Grid

end GridMarkup
