import GridMarkup.Proofs.Conditional

/-!
# Layouts line by line

A layout can be made in one pass over the lines. The blanks that come between two addresses wait
until the second one comes, and then become one text. The pieces are those of the layout.
-/

namespace GridMarkup.Resource

open Text

/-! ## The loop -/

/-- The pieces so far, and the blanks that no address has come behind. -/
structure Draft where
  pieces : List Piece := []
  blanks : List Char := []
  deriving DecidableEq, Repr

namespace Draft

/-- The blanks that wait become a text, if there are any. -/
def flush (d : Draft) : List Piece :=
  if d.blanks.isEmpty then d.pieces else d.pieces ++ [.text d.blanks]

def wait (d : Draft) (blanks : List Char) : Draft := { d with blanks := d.blanks ++ blanks }

/-- What a line adds without its line end. If another token follows the text, a blank last line is
that token's indentation. -/
def addBody (indent : List Char) (followed first last : Bool) (body : List Char) (d : Draft) :
    Draft :=
  let url := trim body
  if url.isEmpty then d.wait (if !first && followed && last then indent else body)
  else
    { pieces := (d.wait (if first then leadingBlanks body else indent)).flush ++ [.resource url] }

/-- The line feed in front of a line, the line, and the carriage return at its end. -/
def addLine (indent : List Char) (followed first last : Bool) (line : List Char) (d : Draft) :
    Draft :=
  let d := if first then d else d.wait ['\n']
  let d := d.addBody indent followed first last (dropReturn line)
  if endsWithReturn line then d.wait ['\r'] else d

/-- The lines from the one with number `i` on. -/
def addLines (indent : List Char) (followed : Bool) (count : Nat) :
    Nat → List (List Char) → Draft → Draft
  | _, [], d => d
  | i, line :: rest, d =>
    addLines indent followed count (i + 1) rest
      (d.addLine indent followed (i == 0) (i + 1 == count) line)

end Draft

def draft (indent : List Char) (followed : Bool) (s : List Char) : List Piece :=
  (Draft.addLines indent followed (lines s).length 0 (lines s) {}).flush

/-! ## What the loop makes -/

namespace Draft

variable {indent line body : List Char} {followed first last : Bool} {more : List Piece}

/-- The pieces of a draft with more pieces behind it. -/
def before (d : Draft) (more : List Piece) : List Piece :=
  d.pieces ++ Piece.merge (.text d.blanks :: more)

theorem flush_eq_before (d : Draft) : d.flush = d.before [] := by
  unfold flush before
  rw [Piece.merge]
  split <;> simp [Piece.merge]

theorem before_wait (d : Draft) (s : List Char) (more : List Piece) :
    (d.wait s).before more = d.before (.text s :: more) := by
  rw [before, before, merge_texts]
  rfl

theorem before_resource (d : Draft) (url : List Char) (more : List Piece) :
    ({ pieces := d.flush ++ [.resource url] } : Draft).before more =
      d.before (.resource url :: more) := by
  unfold before flush
  rw [Piece.merge, Piece.merge]
  split <;> simp [Piece.merge]

theorem before_addBody (d : Draft) (body : List Char) (more : List Piece) :
    (d.addBody indent followed first last body).before more =
      d.before (if (trim body).isEmpty then
          .text (if !first && followed && last then indent else body) :: more
        else
          .text (if first then leadingBlanks body else indent) ::
            .resource (trim body) :: more) := by
  dsimp only [addBody]
  split
  · exact before_wait ..
  · rw [before_resource, before_wait]

/-- A line adds the pieces that the layout has for it. -/
theorem before_addLine (d : Draft) (line : List Char) (more : List Piece) :
    (d.addLine indent followed first last line).before more =
      d.before ((if first then [] else [.text ['\n']]) ++
        (linePieces (if first then none else some indent)
          (if !first && followed && last then some indent else none) line ++ more)) := by
  have hreturn (d : Draft) : (if endsWithReturn line then d.wait ['\r'] else d).before more =
      d.before ((if endsWithReturn line then [.text ['\r']] else []) ++ more) := by
    split
    · exact before_wait ..
    · rfl
  have hfeed (more : List Piece) : (if first then d else d.wait ['\n']).before more =
      d.before ((if first then [] else [.text ['\n']]) ++ more) := by
    split
    · rfl
    · exact before_wait ..
  have hlead (blanks : List Char) :
      (if first then none else some indent).getD blanks = if first then blanks else indent := by
    split <;> rfl
  have hblank (blanks : List Char) :
      (if !first && followed && last then some indent else none).getD blanks =
        if !first && followed && last then indent else blanks := by
    split <;> rfl
  rw [addLine, hreturn, before_addBody, hfeed]
  dsimp only [linePieces]
  rw [hlead, hblank]
  by_cases hempty : (trim (dropReturn line)).isEmpty = true
  · rw [if_pos hempty, if_pos hempty]
    rfl
  · rw [if_neg hempty, if_neg hempty]
    rfl

/-- The lines behind the first add what the layout has for them. -/
theorem before_addLines {count i : Nat} {later : List (List Char)} (hi : 0 < i)
    (hcount : i + later.length = count) (d : Draft) :
    (addLines indent followed count i later d).before [] =
      d.before (laterPieces indent followed later) := by
  induction later generalizing i d with
  | nil => rfl
  | cons line rest ih =>
    have hrest : i + 1 + rest.length = count := by
      rw [← hcount, List.length_cons]
      omega
    have hfirst : (i == 0) = false := beq_false_of_ne hi.ne'
    rw [addLines, ih i.succ_pos hrest, before_addLine, hfirst]
    cases rest with
    | nil =>
      obtain rfl : i + 1 = count := hrest
      cases followed <;> simp [laterPieces]
    | cons next rest =>
      have hlast : (i + 1 == count) = false := by
        rw [← hrest, List.length_cons]
        simp
      rw [hlast, Bool.and_false]
      rfl

end Draft

/-- The pass over the lines makes the layout. -/
theorem draft_eq_layout (indent : List Char) (followed : Bool) (s : List Char) :
    draft indent followed s = layout indent followed s := by
  obtain ⟨first, later, hlines⟩ := List.exists_cons_of_ne_nil (splitWhere_ne_nil (· == '\n') s)
  have hcount : 0 + 1 + later.length = (first :: later).length := by
    rw [List.length_cons]
    omega
  rw [draft, layout, lines, hlines, Draft.flush_eq_before, Draft.addLines,
    Draft.before_addLines (Nat.succ_pos 0) hcount, Draft.before_addLine]
  rfl

end GridMarkup.Resource
