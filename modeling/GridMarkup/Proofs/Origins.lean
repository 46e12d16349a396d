import GridMarkup.Proofs.Rows

/-!
# Origins

Whatever the grid is given, it loses nothing, doubles nothing and changes no order. Each token that
it sends belongs to the expansion of a token that it was given, or it starts or ends the implied
column of a row. Only blanks and comments can be missing, behind the last tag of rows that are never
closed. Rows are told apart by the positions of their start tags.
-/

namespace GridMarkup.Grid

open Text (blank)

variable {g : Grid} {t : Token} {tokens : List Token} {starts : List Nat} {n : Nat}
  {implies : Nat → Bool}

/-! ## Rows by position -/

/-- Content other than a column comes first. -/
def startsContent (tokens : List Token) : Bool :=
  (tokens.dropWhile Token.isLead).head?.any fun t => !startsColumn t

/-- At position `n` starts a row that gets an implied column. -/
def impliesColumn (tokens : List Token) (n : Nat) : Bool :=
  tokens[n]?.any startsRow && startsContent (tokens.drop (n + 1))

/-- The rows that are open behind the token at position `n`, innermost first. -/
def startsBehind (starts : List Nat) (n : Nat) (t : Token) : List Nat :=
  if startsRow t then n :: starts else if t = .endTag rowName then starts.drop 1 else starts

/-- The row that a token closes, if it closes any. -/
def closedBy (starts : List Nat) (t : Token) : List Nat :=
  if t = .endTag rowName then starts.take 1 else []

/-- The rows that tokens close, one after the other. -/
def rowsClosed (starts : List Nat) (n : Nat) : List Token → List Nat
  | [] => []
  | t :: tokens => closedBy starts t ++ rowsClosed (startsBehind starts n t) (n + 1) tokens

/-- An open row has an implied column, or it gets one from the tokens that follow. -/
def getsColumn (tokens : List Token) : Row → Bool
  | .waiting => startsContent tokens
  | .filled => false
  | .implied => true

theorem startsContent_lead (h : t.isLead = true) (tokens : List Token) :
    startsContent (t :: tokens) = startsContent tokens := by
  simp [startsContent, h]

theorem startsContent_cons (h : t.isLead = false) (tokens : List Token) :
    startsContent (t :: tokens) = !startsColumn t := by
  simp [startsContent, h]

theorem getsColumn_lead (h : t.isLead = true) : getsColumn (t :: tokens) = getsColumn tokens := by
  funext row
  cases row with
  | waiting => exact startsContent_lead h tokens
  | _ => rfl

theorem map_getsColumn {rows : List Row} (h : Settled rows)
    (tokens more : List Token) : rows.map (getsColumn tokens) = rows.map (getsColumn more) := by
  refine List.map_congr_left fun row hrow => ?_
  cases row with
  | waiting => exact absurd rfl (h _ hrow)
  | _ => rfl

/-! ## Origins -/

/-- Where a token that is sent comes from: from the expansion of a given token, or from the start or
the end of the implied column of a row. -/
inductive Origin where
  | given (t : Token)
  | column (row : Nat)
  | columnEnd (row : Nat)
  deriving DecidableEq, Repr

namespace Origin

/-- The token that is sent. -/
def token : Origin → Token
  | .given t => t
  | .column _ => impliedColumn
  | .columnEnd _ => .endTag element

def given? : Origin → Option Token
  | .given t => some t
  | _ => none

def column? : Origin → Option Nat
  | .column row => some row
  | _ => none

def columnEnd? : Origin → Option Nat
  | .columnEnd row => some row
  | _ => none

end Origin

/-- The row that waits, where the rows `starts` are open. -/
def rowWaiting (g : Grid) (starts : List Nat) : List Nat :=
  if g.isWaiting then starts.take 1 else []

/-- The row that a token closes together with its implied column. -/
def columnClosedBy (g : Grid) (starts : List Nat) (t : Token) : List Nat :=
  if g.settle.1.rows.head? = some .implied then closedBy starts t else []

/-- The origins of what the grid answers a token with, where the rows `starts` are open. -/
def originsOf (g : Grid) (starts : List Nat) (t : Token) : List Origin :=
  if g.isWaiting ∧ t.isQuiet blank then []
  else if startsColumn t then (g.held ++ expand t).map .given
  else
    (g.rowWaiting starts).map .column ++ g.held.map .given ++
      ((g.columnClosedBy starts t).map .columnEnd ++ (expand t).map .given)

/-- The origins of what the grid makes of tokens, where the first of them stands at position `n`. -/
def origins (g : Grid) (starts : List Nat) (n : Nat) : List Token → List Origin
  | [] => []
  | t :: tokens =>
    g.originsOf starts t ++ (g.step t).1.origins (startsBehind starts n t) (n + 1) tokens

/-! ## The rows and what comes of them -/

/-- The open rows are those that start at `starts`. Which rows get an implied column is told by
`implies`, for the open rows and for those that start at position `n` or behind it. -/
structure Tracks (implies : Nat → Bool) (g : Grid) (starts : List Nat) (n : Nat)
    (tokens : List Token) : Prop where
  sound : g.Sound
  rows : starts.map implies = g.rows.map (getsColumn tokens)
  later : ∀ k, implies (n + k) = impliesColumn tokens k

theorem tracks_fresh (tokens : List Token) : Tracks (impliesColumn tokens) {} [] 0 tokens :=
  ⟨sound_fresh, rfl, fun k => by rw [Nat.zero_add]⟩

theorem Tracks.here (h : Tracks implies g starts n (t :: tokens)) :
    implies n = (startsRow t && startsContent tokens) := h.later 0

/-- Content that is not held comes first. -/
theorem startsContent_of_waiting (hwaiting : g.isWaiting = true)
    (hheld : ¬ (g.isWaiting = true ∧ t.isQuiet blank = true)) (hcolumn : startsColumn t = false) :
    startsContent (t :: tokens) = true := by
  have hlead : t.isLead = false := by
    rw [Token.isLead_eq hcolumn, ← Bool.not_eq_true]
    exact fun hquiet => hheld ⟨hwaiting, hquiet⟩
  rw [startsContent_cons hlead, hcolumn]
  rfl

/-- A column keeps the row from getting an implied one. -/
theorem Sound.map_fill (h : g.Sound) (hlead : t.isLead = false) (hcolumn : startsColumn t = true) :
    (fill g.rows).map (getsColumn tokens) = g.rows.map (getsColumn (t :: tokens)) := by
  rcases h.waiting_or_not with ⟨outer, hrows, houter⟩ | ⟨-, hwaiting, hrows⟩
  · rw [hrows, fill, List.map_cons, List.map_cons, map_getsColumn houter tokens (t :: tokens),
      getsColumn, getsColumn, startsContent_cons hlead, hcolumn]
    rfl
  · rw [fill_eq_self hwaiting]
    exact map_getsColumn hrows _ _

/-- Other content gives the row its implied column. -/
theorem Sound.map_settle (h : g.Sound) (hheld : ¬ (g.isWaiting = true ∧ t.isQuiet blank = true))
    (hcolumn : startsColumn t = false) :
    g.settle.1.rows.map (getsColumn tokens) = g.rows.map (getsColumn (t :: tokens)) := by
  rcases h.waiting_or_not with ⟨outer, hrows, houter⟩ | ⟨-, hwaiting, hrows⟩
  · have hwaiting : g.isWaiting = true := isWaiting_iff.2 (by rw [hrows]; rfl)
    rw [Grid.settle, hrows, List.map_cons, List.map_cons, map_getsColumn houter tokens (t :: tokens),
      getsColumn, getsColumn, startsContent_of_waiting hwaiting hheld hcolumn]
  · rw [settle_eq_self hwaiting]
    exact map_getsColumn hrows _ _

theorem startsBehind_keep (h : t.keepsRows) (starts : List Nat) (n : Nat) :
    startsBehind starts n t = starts := by
  rw [startsBehind, h.1, if_neg Bool.false_ne_true, if_neg h.2]

/-- A row that starts waits, and a row that ends is taken off. -/
theorem map_startsBehind {rows : List Row} (h : starts.map implies = rows.map (getsColumn tokens))
    (hn : implies n = (startsRow t && startsContent tokens)) :
    (startsBehind starts n t).map implies = (rowsBehind rows t).map (getsColumn tokens) := by
  cases t with
  | startTag tag =>
    by_cases hopens : tag.name = rowName ∧ tag.selfClosing = false
    · simp [startsBehind, rowsBehind, rowsAfter, startsRow, getsColumn, hopens, hn, h]
    · simp [startsBehind, rowsBehind, rowsAfter, startsRow, hopens, h]
  | endTag name =>
    by_cases hname : name = rowName
    · simp [startsBehind, rowsBehind, startsRow, hname, List.map_tail, h]
    · simp [startsBehind, rowsBehind, startsRow, hname, h]
  | _ => exact h

theorem Tracks.step (h : Tracks implies g starts n (t :: tokens)) :
    Tracks implies (g.step t).1 (startsBehind starts n t) (n + 1) tokens := by
  refine ⟨sound_step h.sound t, ?_, fun k => ?_⟩
  · have hrows := h.rows
    rcases step_cases g t with ⟨-, hquiet, hstep⟩ | ⟨tag, rfl, hcolumn, hstep⟩ |
        ⟨hheld, hcolumn, hstep⟩
    · rw [getsColumn_lead (Token.lead_of_quiet hquiet)] at hrows
      rw [hstep, startsBehind_keep (Token.keepsRows_of_quiet hquiet)]
      exact hrows
    · rw [hstep, startsBehind_keep (Token.keepsRows_of_column hcolumn)]
      cases hcloses : tag.selfClosing with
      | true =>
        rw [getsColumn_lead ((Token.isLead_column hcolumn).trans hcloses)] at hrows
        simpa [Grid.column, hcloses] using hrows
      | false =>
        rw [← h.sound.map_fill ((Token.isLead_column hcolumn).trans hcloses) hcolumn] at hrows
        simpa [Grid.column, hcloses] using hrows
    · rw [← h.sound.map_settle hheld hcolumn] at hrows
      rw [hstep, content_eq]
      exact map_startsBehind hrows h.here
  · rw [Nat.add_assoc, Nat.add_comm 1 k, h.later]
    rfl

/-! ## One token -/

theorem originsOf_quiet (hwaiting : g.isWaiting = true) (hquiet : t.isQuiet blank = true)
    (starts : List Nat) : g.originsOf starts t = [] := if_pos ⟨hwaiting, hquiet⟩

theorem originsOf_column {tag : StartTag} (hcolumn : isColumn tag.name = true) (g : Grid)
    (starts : List Nat) :
    g.originsOf starts (.startTag tag) = (g.held ++ expandStart tag).map .given := by
  rw [originsOf, if_neg (by rintro ⟨-, ⟨⟩⟩)]
  exact if_pos hcolumn

theorem originsOf_content (hheld : ¬ (g.isWaiting = true ∧ t.isQuiet blank = true))
    (hcolumn : startsColumn t = false) (starts : List Nat) :
    g.originsOf starts t =
      (g.rowWaiting starts).map .column ++ g.held.map .given ++
        ((g.columnClosedBy starts t).map .columnEnd ++ (expand t).map .given) := by
  rw [originsOf, if_neg hheld, hcolumn, if_neg Bool.false_ne_true]

theorem token_given (tokens : List Token) : (tokens.map Origin.given).map Origin.token = tokens := by
  rw [List.map_map]
  exact List.map_id _

/-- The implied column of a row that waits, and what was held. -/
theorem token_settle (h : g.Sound) (hlength : starts.length = g.rows.length) :
    ((g.rowWaiting starts).map Origin.column ++ g.held.map Origin.given).map Origin.token =
      g.settle.2.tokens := by
  rw [List.map_append, token_given]
  rcases h.waiting_or_not with ⟨outer, hrows, -⟩ | ⟨hheld, hwaiting, -⟩
  · rw [hrows] at hlength
    obtain ⟨row, more, rfl⟩ := List.exists_cons_of_length_eq_add_one hlength
    simp [rowWaiting, isWaiting, Grid.settle, hrows, Origin.token]
  · simp [rowWaiting, hwaiting, hheld, settle_eq_self hwaiting]

theorem token_columnEnd (hlength : starts.length = g.rows.length) (t : Token) :
    ((g.columnClosedBy starts t).map Origin.columnEnd).map Origin.token =
      columnEnd g.settle.1.rows t := by
  rw [← length_settle g] at hlength
  cases t with
  | endTag name =>
    by_cases hcloses : name = rowName ∧ g.settle.1.rows.head? = some .implied
    · obtain ⟨outer, hrows⟩ := List.head?_eq_some_iff.1 hcloses.2
      rw [hrows] at hlength
      obtain ⟨row, more, rfl⟩ := List.exists_cons_of_length_eq_add_one hlength
      simp [columnClosedBy, closedBy, columnEnd, closeColumn, hcloses, Origin.token]
    · rw [columnEnd, closeColumn, if_neg hcloses, columnClosedBy, closedBy]
      split
      · next himplied =>
        have hname : name ≠ rowName := fun hname => hcloses ⟨hname, himplied⟩
        simp [hname]
      · rfl
  | _ => simp [columnClosedBy, closedBy, columnEnd]

theorem token_originsOf (h : Tracks implies g starts n (t :: tokens)) :
    (g.originsOf starts t).map Origin.token = (g.step t).2.tokens := by
  have hlength : starts.length = g.rows.length := by simpa using congrArg List.length h.rows
  rcases step_cases g t with ⟨hwaiting, hquiet, hstep⟩ | ⟨tag, rfl, hcolumn, hstep⟩ |
      ⟨hheld, hcolumn, hstep⟩
  · rw [hstep, originsOf_quiet hwaiting hquiet]
    rfl
  · rw [hstep, originsOf_column hcolumn, token_given]
    rfl
  · rw [hstep, content_eq, originsOf_content hheld hcolumn, List.map_append,
      token_settle h.sound hlength, List.map_append, token_columnEnd hlength, token_given]

/-- What is sent or held is what was held, and the expansion of the token. -/
theorem given_originsOf (h : g.Sound) (starts : List Nat) (t : Token) :
    (g.originsOf starts t).filterMap Origin.given? ++ (g.step t).1.held = g.held ++ expand t := by
  rcases step_cases g t with ⟨hwaiting, hquiet, hstep⟩ | ⟨tag, rfl, hcolumn, hstep⟩ |
      ⟨hheld, hcolumn, hstep⟩
  · rw [hstep, originsOf_quiet hwaiting hquiet, expand_quiet hquiet]
    rfl
  · rw [hstep, originsOf_column hcolumn]
    simp [Grid.column, expand, Function.comp_def, Origin.given?]
  · rw [hstep, content_eq, originsOf_content hheld hcolumn]
    simp [Function.comp_def, Origin.given?, h.settle.1]

theorem not_isWaiting {rows : List Row} (h : Settled rows) (held : List Token) :
    isWaiting ⟨rows, held⟩ = false := by
  rw [← Bool.not_eq_true, isWaiting_iff]
  exact head?_ne_of_settled h

theorem Sound.fill (h : g.Sound) : Settled (fill g.rows) := by
  rcases h.waiting_or_not with ⟨outer, hrows, houter⟩ | ⟨-, hwaiting, hrows⟩
  · rw [hrows]
    exact List.forall_mem_cons.2 ⟨by decide, houter⟩
  · rw [fill_eq_self hwaiting]
    exact hrows

/-- Behind content, a row waits only if it starts there. -/
theorem rowWaiting_content {rows : List Row} (h : Settled rows) (held : List Token)
    (starts : List Nat) (n : Nat) (t : Token) :
    rowWaiting ⟨rowsBehind rows t, held⟩ (startsBehind starts n t) =
      if startsRow t then [n] else [] := by
  cases hopens : startsRow t with
  | true =>
    rw [rowsBehind_opens hopens, startsBehind, hopens]
    rfl
  | false =>
    have hrows : Settled (rowsBehind rows t) :=
      fun row hrow => h row (rowsBehind_subset hopens rows hrow)
    rw [rowWaiting, not_isWaiting hrows]
    rfl

/-- A row that waits gets its implied column if content comes first. -/
theorem Tracks.filter_waiting (h : Tracks implies g starts n tokens) :
    (g.rowWaiting starts).filter implies =
      if startsContent tokens then g.rowWaiting starts else [] := by
  have hmap := h.rows
  rcases h.sound.waiting_or_not with ⟨outer, hrows, -⟩ | ⟨-, hwaiting, -⟩
  · rw [hrows] at hmap
    obtain ⟨row, more, rfl, hrow, -⟩ := List.map_eq_cons_iff.1 hmap
    have hrow : implies row = startsContent tokens := hrow
    simp [rowWaiting, isWaiting, hrows, List.filter_cons, hrow]
  · simp [rowWaiting, hwaiting]

theorem Tracks.filter_here (h : Tracks implies g starts n (t :: tokens)) :
    [n].filter implies = if startsContent tokens then if startsRow t then [n] else [] else [] := by
  rw [List.filter_singleton, h.here]
  cases startsRow t <;> cases startsContent tokens <;> rfl

/-- The start of an implied column is sent for a row that waits and gets one. A row that still waits
behind the token is counted with it, and so is the row that starts with the token. -/
theorem column_originsOf (h : Tracks implies g starts n (t :: tokens)) :
    (g.originsOf starts t).filterMap Origin.column? ++
        ((g.step t).1.rowWaiting (startsBehind starts n t)).filter implies =
      (g.rowWaiting starts).filter implies ++ [n].filter implies := by
  rw [h.step.filter_waiting, h.filter_waiting, h.filter_here]
  rcases step_cases g t with ⟨hwaiting, hquiet, hstep⟩ | ⟨tag, rfl, hcolumn, hstep⟩ |
      ⟨hheld, hcolumn, hstep⟩
  · have hkeeps := Token.keepsRows_of_quiet hquiet
    rw [hstep, originsOf_quiet hwaiting hquiet, startsBehind_keep hkeeps, hkeeps.1,
      startsContent_lead (Token.lead_of_quiet hquiet)]
    simp [rowWaiting, isWaiting, Grid.hold]
  · have hkeeps := Token.keepsRows_of_column hcolumn
    rw [hstep, originsOf_column hcolumn, startsBehind_keep hkeeps, hkeeps.1]
    have hlead := Token.isLead_column hcolumn
    cases hcloses : tag.selfClosing with
    | true =>
      -- The row goes on waiting.
      rw [startsContent_lead (hlead.trans hcloses)]
      simp [rowWaiting, isWaiting, Grid.column, hcloses, Function.comp_def, Origin.column?]
    | false =>
      -- The row gets no implied column, and none waits behind the tag.
      rw [startsContent_cons (hlead.trans hcloses),
        show startsColumn (.startTag tag) = true from hcolumn]
      simp [rowWaiting, Grid.column, hcloses, not_isWaiting h.sound.fill, Function.comp_def,
        Origin.column?]
  · -- A row that waits gets its implied column here, and one that starts here waits.
    rw [hstep, content_eq, originsOf_content hheld hcolumn, rowWaiting_content h.sound.settle.2]
    cases hwaiting : g.isWaiting with
    | true =>
      rw [startsContent_of_waiting hwaiting hheld hcolumn]
      simp [Function.comp_def, Origin.column?]
    | false => simp [rowWaiting, hwaiting, Function.comp_def, Origin.column?]

/-- The row that a token closes is closed with its implied column if it has one. -/
theorem columnClosedBy_eq {rows : List Row} (h : starts.map implies = rows.map (getsColumn tokens))
    (hrows : Settled rows) (t : Token) :
    (if rows.head? = some .implied then closedBy starts t else []) =
      (closedBy starts t).filter implies := by
  by_cases hend : t = .endTag rowName
  · rw [closedBy, if_pos hend]
    cases rows with
    | nil =>
      rw [List.map_eq_nil_iff.1 h]
      rfl
    | cons row outer =>
      obtain ⟨start, more, rfl, hstart, -⟩ := List.map_eq_cons_iff.1 h
      cases row with
      | waiting => exact absurd rfl (hrows _ List.mem_cons_self)
      | filled => simp [hstart, getsColumn]
      | implied => simp [hstart, getsColumn]
  · rw [closedBy, if_neg hend, ite_self]
    rfl

theorem columnEnd_originsOf (h : Tracks implies g starts n (t :: tokens)) :
    (g.originsOf starts t).filterMap Origin.columnEnd? = (closedBy starts t).filter implies := by
  rcases step_cases g t with ⟨hwaiting, hquiet, hstep⟩ | ⟨tag, rfl, hcolumn, hstep⟩ |
      ⟨hheld, hcolumn, hstep⟩
  · rw [originsOf_quiet hwaiting hquiet, closedBy, if_neg (Token.keepsRows_of_quiet hquiet).2]
    rfl
  · rw [originsOf_column hcolumn, closedBy, if_neg (Token.keepsRows_of_column hcolumn).2]
    simp [Function.comp_def, Origin.columnEnd?]
  · have hrows := h.rows.trans (h.sound.map_settle hheld hcolumn).symm
    rw [originsOf_content hheld hcolumn, ← columnClosedBy_eq hrows h.sound.settle.2]
    simp [columnClosedBy, Function.comp_def, Origin.columnEnd?]

/-! ## All tokens -/

theorem token_origins (h : Tracks implies g starts n tokens) :
    (g.origins starts n tokens).map Origin.token = (g.expandAll tokens).2 := by
  induction tokens generalizing g starts n with
  | nil => rfl
  | cons t tokens ih => rw [origins, List.map_append, token_originsOf h, ih h.step, expandAll]

theorem given_origins (h : g.Sound) (starts : List Nat) (n : Nat) (tokens : List Token) :
    (g.origins starts n tokens).filterMap Origin.given? ++ (g.expandAll tokens).1.held =
      g.held ++ tokens.flatMap expand := by
  induction tokens generalizing g starts n with
  | nil => exact (List.append_nil _).symm
  | cons t tokens ih =>
    rw [origins, List.filterMap_append, List.append_assoc, expandAll, ih (sound_step h t),
      ← List.append_assoc, given_originsOf h, List.append_assoc, List.flatMap_cons]

theorem column_origins (h : Tracks implies g starts n tokens) :
    (g.origins starts n tokens).filterMap Origin.column? =
      (g.rowWaiting starts).filter implies ++ (List.range' n tokens.length).filter implies := by
  induction tokens generalizing g starts n with
  | nil =>
    rw [h.filter_waiting]
    rfl
  | cons t tokens ih =>
    rw [origins, List.filterMap_append, ih h.step, ← List.append_assoc, column_originsOf h,
      List.append_assoc, ← List.filter_append, List.length_cons, List.range'_succ]
    rfl

theorem columnEnd_origins (h : Tracks implies g starts n tokens) :
    (g.origins starts n tokens).filterMap Origin.columnEnd? =
      (rowsClosed starts n tokens).filter implies := by
  induction tokens generalizing g starts n with
  | nil => rfl
  | cons t tokens ih =>
    rw [origins, List.filterMap_append, columnEnd_originsOf h, ih h.step, rowsClosed,
      List.filter_append]

/-- What is held is what came last. -/
theorem held_step (h : g.Sound) (t : Token) : (g.step t).1.held <:+ g.held ++ [t] := by
  rcases step_cases g t with ⟨-, -, hstep⟩ | ⟨tag, rfl, -, hstep⟩ | ⟨-, -, hstep⟩
  · rw [hstep]
    exact List.suffix_rfl
  · rw [hstep]
    exact List.nil_suffix
  · rw [hstep, content_eq]
    exact h.settle.1 ▸ List.nil_suffix

theorem held_expandAll (h : g.Sound) (tokens : List Token) :
    (g.expandAll tokens).1.held <:+ g.held ++ tokens := by
  induction tokens generalizing g with
  | nil =>
    rw [List.append_nil]
    exact List.suffix_rfl
  | cons t tokens ih =>
    obtain ⟨before, hbefore⟩ := held_step h t
    have hnext : (g.step t).1.held ++ tokens <:+ g.held ++ t :: tokens :=
      ⟨before, by rw [← List.append_assoc, hbefore, List.append_assoc, List.singleton_append]⟩
    exact (ih (sound_step h t)).trans hnext

/-- At the end, a notice counts what is still held. -/
theorem Sound.finish (h : g.Sound) (hheld : g.held ≠ []) :
    g.finish.notices = [.rowsNeverClosed g.rows.length g.held.length] := by
  have hrows : g.rows.isEmpty = false := by
    obtain ⟨outer, hrows⟩ := List.head?_eq_some_iff.1 (isWaiting_iff.1 (h.waiting hheld))
    rw [hrows]
    rfl
  rw [Grid.finish, hrows]
  rfl

/-- Nothing is lost, nothing is doubled and nothing changes its place. What the grid sends is the
expansion of each token, without the tokens that are held at the end, and with two kinds of tokens in
between: the start of the implied column of each row that gets one, and its end where such a row is
closed. The tokens held at the end are the last ones, they are quiet, and a notice counts them. -/
theorem expandAll_origins (tokens : List Token) :
    let last := (expandAll {} tokens).1
    let sent := origins {} [] 0 tokens
    (expandAll {} tokens).2 ++ last.finish.tokens = sent.map Origin.token ∧
      sent.filterMap Origin.given? ++ last.held = tokens.flatMap expand ∧
      sent.filterMap Origin.column? =
        (List.range tokens.length).filter (impliesColumn tokens) ∧
      sent.filterMap Origin.columnEnd? =
        (rowsClosed [] 0 tokens).filter (impliesColumn tokens) ∧
      last.held <:+ tokens ∧ (∀ t ∈ last.held, t.isQuiet blank = true) ∧
      (last.held ≠ [] →
        last.finish.notices = [.rowsNeverClosed last.rows.length last.held.length]) := by
  intro last sent
  have htracks := tracks_fresh tokens
  have hsound : last.Sound := sound_expandAll sound_fresh tokens
  refine ⟨?_, given_origins sound_fresh [] 0 tokens, ?_, columnEnd_origins htracks,
    held_expandAll sound_fresh tokens, hsound.quiet, hsound.finish⟩
  · have hfinish : last.finish.tokens = [] := (Stage.grid last).lastReply_tokens
    rw [hfinish, List.append_nil, token_origins htracks]
  · rw [List.range_eq_range', column_origins htracks]
    rfl

/-- The second row is never closed, and what follows it is not sent. -/
example :
    origins {} [] 0
        [.endTag "r", .startTag ⟨"r", [], false⟩, .comment "a", .text "b", .endTag "r",
          .startTag ⟨"r", [], false⟩, .text " "] =
      [.given (.endTag "div"), .given (.startTag ⟨"div", [⟨"class", some "row"⟩], false⟩), .column 1,
        .given (.comment "a"), .given (.text "b"), .columnEnd 1, .given (.endTag "div"),
        .given (.startTag ⟨"div", [⟨"class", some "row"⟩], false⟩)] := by decide

end GridMarkup.Grid
