import GridMarkup.Stage
import Mathlib.Data.List.Induction

/-!
# Row frames

The grid can be kept with two fields for each open row: whether a column is still expected in it,
and whether it got an implied one. The tokens that are pending come beside them. Behind any events
these fields hold what the grid holds, and they give the same answers. A row with an implied column
expects none any more.
-/

namespace GridMarkup

namespace Grid

inductive ColumnState where
  | expecting
  | present
  deriving DecidableEq, Repr

/-- An open row. -/
structure RowFrame where
  column : ColumnState
  implied : Bool
  deriving DecidableEq, Repr

/-- The open rows, innermost first, and the tokens that wait for a column of the innermost. -/
structure Frames where
  rows : List RowFrame := []
  pending : List Token := []
  deriving DecidableEq, Repr

namespace Frames

/-! ## Calls -/

def expecting (f : Frames) : Bool := f.rows.head?.any (·.column == .expecting)

/-- Puts an implied column into the innermost row if that expects one, with what is pending. -/
def materialize (f : Frames) : Frames × Reply :=
  match f.rows with
  | [] => (f, {})
  | row :: outer =>
    if row.column = .expecting then
      ({ rows := { row with column := .present, implied := true } :: outer, pending := [] },
        { tokens := impliedColumn :: f.pending
          notices := [.impliedColumn f.rows.length f.pending.length] })
    else (f, {})

def onColumn (tag : StartTag) (f : Frames) : Frames × Reply :=
  ({ rows :=
      if tag.selfClosing then f.rows
      else f.rows.modifyHead fun row => { row with column := .present }
     pending := [] },
    { tokens := f.pending ++ expandStart tag })

def onStartTag (tag : StartTag) (f : Frames) : Frames × Reply :=
  if isColumn tag.name then f.onColumn tag
  else
    let (f, reply) := f.materialize
    let opensRow := tag.name = rowName ∧ ¬ tag.selfClosing
    ({ f with rows := if opensRow then ⟨.expecting, false⟩ :: f.rows else f.rows },
      { reply with tokens := reply.tokens ++ expandStart tag })

/-- The end tag of the column comes in front of that of its row. -/
def onRowEnd (f : Frames) : Frames × List Token :=
  ({ f with rows := f.rows.tail },
    (if f.rows.head?.any (·.implied) then [.endTag element] else []) ++ [.endTag element])

def onEndTag (name : String) (f : Frames) : Frames × Reply :=
  let (f, reply) := f.materialize
  let (f, tokens) := if name = rowName then f.onRowEnd else (f, [expandEnd name])
  (f, { reply with tokens := reply.tokens ++ tokens })

def hold (t : Token) (f : Frames) : Frames × Reply := ({ f with pending := f.pending ++ [t] }, {})

def pass (t : Token) (f : Frames) : Frames × Reply :=
  let (f, reply) := f.materialize
  (f, { reply with tokens := reply.tokens ++ [t] })

def onText (s : String) (f : Frames) : Frames × Reply :=
  if f.expecting ∧ s.toList.all Text.isBlank then f.hold (.text s) else f.pass (.text s)

def onComment (s : String) (f : Frames) : Frames × Reply :=
  if f.expecting then f.hold (.comment s) else (f, { tokens := [.comment s] })

def finish (f : Frames) : Frames × Reply :=
  ({ f with rows := [], pending := [] },
    if f.rows.isEmpty then {}
    else { notices := [.rowsNeverClosed f.rows.length f.pending.length] })

def handle (f : Frames) : Event → Frames × Reply
  | .token (.startTag tag) => f.onStartTag tag
  | .token (.endTag name) => f.onEndTag name
  | .token (.text s) => f.onText s
  | .token (.comment s) => f.onComment s
  | .token (.declaration s) => f.pass (.declaration s)
  | .finish => f.finish

/-- The frames behind events, from the start on. -/
def behind (events : List Event) : Frames := events.foldl (fun f event => (f.handle event).1) {}

variable {f : Frames}

theorem behind_concat (events : List Event) (event : Event) :
    behind (events ++ [event]) = ((behind events).handle event).1 := by
  unfold behind
  rw [List.foldl_append]
  rfl

/-! ## Implied columns -/

/-- A row with an implied column does not expect one. -/
def Sound (f : Frames) : Prop := ∀ row ∈ f.rows, row.implied = true → row.column = .present

theorem Sound.materialize (h : f.Sound) : f.materialize.1.Sound := by
  unfold Frames.materialize
  split
  · exact h
  · next row outer hrows =>
    split
    · rw [Sound, hrows, List.forall_mem_cons] at h
      exact List.forall_mem_cons.2 ⟨fun _ => rfl, h.2⟩
    · exact h

theorem Sound.onColumn (h : f.Sound) (tag : StartTag) : (f.onColumn tag).1.Sound := by
  unfold Frames.onColumn Sound
  dsimp only
  split
  · exact h
  · cases hrows : f.rows with
    | nil => exact List.forall_mem_nil _
    | cons row outer =>
      rw [Sound, hrows, List.forall_mem_cons] at h
      exact List.forall_mem_cons.2 ⟨fun _ => rfl, h.2⟩

theorem Sound.onStartTag (h : f.Sound) (tag : StartTag) : (f.onStartTag tag).1.Sound := by
  unfold Frames.onStartTag
  split
  · exact h.onColumn tag
  · unfold Sound
    dsimp only
    split
    · exact List.forall_mem_cons.2 ⟨nofun, h.materialize⟩
    · exact h.materialize

theorem Sound.onEndTag (h : f.Sound) (name : String) : (f.onEndTag name).1.Sound := by
  unfold Frames.onEndTag
  dsimp only
  split
  · exact fun row hrow => h.materialize row (List.mem_of_mem_tail hrow)
  · exact h.materialize

theorem Sound.onText (h : f.Sound) (s : String) : (f.onText s).1.Sound := by
  unfold Frames.onText
  split
  · exact h
  · exact h.materialize

theorem Sound.onComment (h : f.Sound) (s : String) : (f.onComment s).1.Sound := by
  unfold Frames.onComment
  split <;> exact h

theorem Sound.handle (h : f.Sound) (event : Event) : (f.handle event).1.Sound := by
  cases event with
  | finish => exact List.forall_mem_nil _
  | token t =>
    cases t with
    | startTag tag => exact h.onStartTag tag
    | endTag name => exact h.onEndTag name
    | text s => exact h.onText s
    | comment s => exact h.onComment s
    | declaration s => exact h.materialize

theorem sound_behind (events : List Event) : (behind events).Sound := by
  induction events using List.reverseRecOn with
  | nil => exact List.forall_mem_nil _
  | append_singleton events event ih =>
    rw [behind_concat]
    exact ih.handle event

end Frames

/-! ## The same answers -/

def Row.frame : Row → RowFrame
  | .waiting => ⟨.expecting, false⟩
  | .filled => ⟨.present, false⟩
  | .implied => ⟨.present, true⟩

def frames (g : Grid) : Frames := ⟨g.rows.map Row.frame, g.held⟩

/-- The answer to an event, with the grid behind it. -/
def handle (g : Grid) : Event → Grid × Reply
  | .token t => g.step t
  | .finish => ({}, g.finish)

/-- The grid behind events, from the start on. -/
def behind (events : List Event) : Grid := events.foldl (fun g event => (g.handle event).1) {}

end Grid

theorem Stage.handle_grid (indent : String) (g : Grid) (event : Event) :
    (Stage.grid g).handle indent event = (.grid (g.handle event).1, (g.handle event).2) := by
  cases event <;> rfl

namespace Grid

theorem behind_concat (events : List Event) (event : Event) :
    behind (events ++ [event]) = ((behind events).handle event).1 := by
  unfold behind
  rw [List.foldl_append]
  rfl

theorem expecting_frames (g : Grid) : g.frames.expecting = g.isWaiting := by
  obtain ⟨rows, held⟩ := g
  cases rows with
  | nil => rfl
  | cons row outer => cases row <;> rfl

theorem materialize_frames (g : Grid) :
    g.frames.materialize = (g.settle.1.frames, g.settle.2) := by
  obtain ⟨rows, held⟩ := g
  cases rows with
  | nil => rfl
  | cons row outer =>
    cases row with
    | waiting => simp [frames, Frames.materialize, Grid.settle, Row.frame]
    | filled => rfl
    | implied => rfl

theorem map_frame_fill (rows : List Row) :
    (fill rows).map Row.frame =
      (rows.map Row.frame).modifyHead fun row => { row with column := .present } := by
  cases rows with
  | nil => rfl
  | cons row outer => cases row <;> rfl

theorem onColumn_frames (g : Grid) (tag : StartTag) :
    g.frames.onColumn tag = ((g.column tag).1.frames, (g.column tag).2) := by
  unfold Frames.onColumn Grid.column frames
  split
  · rfl
  · rw [map_frame_fill]

theorem onStartTag_frames (g : Grid) (tag : StartTag) :
    g.frames.onStartTag tag = ((g.step (.startTag tag)).1.frames, (g.step (.startTag tag)).2) := by
  rw [Frames.onStartTag, Grid.step]
  split
  · exact onColumn_frames g tag
  · rw [materialize_frames]
    simp only [content, rowsAfter, frames]
    split <;> rfl

theorem onRowEnd_frames (g : Grid) :
    g.frames.onRowEnd =
      (frames { g with rows := g.rows.drop 1 },
        closeColumn rowName g.rows ++ [expandEnd rowName]) := by
  have hend : expandEnd rowName = .endTag element := by decide
  obtain ⟨rows, held⟩ := g
  rw [hend]
  cases rows with
  | nil => rfl
  | cons row outer => cases row <;> rfl

theorem onEndTag_frames (g : Grid) (name : String) :
    g.frames.onEndTag name = ((g.step (.endTag name)).1.frames, (g.step (.endTag name)).2) := by
  have hstep : g.step (.endTag name) = g.content (.endTag name) := rfl
  rw [Frames.onEndTag, hstep, materialize_frames]
  dsimp only [content]
  by_cases hname : name = rowName
  · rw [if_pos hname, if_pos hname, onRowEnd_frames, hname, List.append_assoc]
  · have hclose : closeColumn name g.settle.1.rows = [] := if_neg fun h => hname h.1
    rw [if_neg hname, if_neg hname, hclose, List.append_nil]

theorem pass_frames (g : Grid) (t : Token) :
    g.frames.pass t =
      (g.settle.1.frames, { g.settle.2 with tokens := g.settle.2.tokens ++ [t] }) := by
  rw [Frames.pass, materialize_frames]

theorem onText_frames (g : Grid) (s : String) :
    g.frames.onText s = ((g.step (.text s)).1.frames, (g.step (.text s)).2) := by
  rw [Frames.onText, Grid.step, expecting_frames, pass_frames]
  split <;> rfl

theorem onComment_frames (g : Grid) (s : String) :
    g.frames.onComment s = ((g.step (.comment s)).1.frames, (g.step (.comment s)).2) := by
  rw [Frames.onComment, Grid.step, expecting_frames]
  split <;> rfl

theorem finish_frames (g : Grid) : g.frames.finish = (frames {}, g.finish) := by
  simp [Frames.finish, frames, Grid.finish]

/-- A call of the frames is a call of the grid. -/
theorem handle_frames (g : Grid) (event : Event) :
    g.frames.handle event = ((g.handle event).1.frames, (g.handle event).2) := by
  cases event with
  | finish => exact finish_frames g
  | token t =>
    cases t with
    | startTag tag => exact onStartTag_frames g tag
    | endTag name => exact onEndTag_frames g name
    | text s => exact onText_frames g s
    | comment s => exact onComment_frames g s
    | declaration s => exact pass_frames g (.declaration s)

/-- Behind any events the frames hold what the grid holds. -/
theorem frames_behind (events : List Event) : Frames.behind events = (behind events).frames := by
  induction events using List.reverseRecOn with
  | nil => rfl
  | append_singleton events event ih =>
    rw [Frames.behind_concat, ih, handle_frames, behind_concat]

end Grid

end GridMarkup
