import GridMarkup.Proofs.RowFrames
import GridMarkup.Proofs.Rows

/-!
# Open rows

Whatever the grid is given, and however often a document ends in between, only its innermost row
waits, only quiet tokens are held, and only for that row. An open row is told by the number of rows
around it. It gets an implied column at most once, with one start tag that is sent just then, and
keeps it until the row is closed.
-/

namespace GridMarkup

open Text (blank)

namespace Grid

/-! ## Rows and events -/

/-- The row that `d` others are around. -/
def rowAt (g : Grid) (d : Nat) : Option Row := g.rows.reverse[d]?

/-- From one grid to the next, a row gets an implied column that had none. -/
def ColumnStarts (g next : Grid) : Prop :=
  ∃ d, g.rowAt d ≠ some .implied ∧ next.rowAt d = some .implied

end Grid

/-- The number of open rows behind an event. At the end of a document no row is open any more. -/
def Event.countRows (n : Nat) : Event → Nat
  | .token t => t.countRows n
  | .finish => 0

namespace Grid

variable {g : Grid} {rows outer : List Row} {row : Row} {t : Token} {d : Nat} {events : List Event}

theorem stage_behind (indent : String) (events : List Event) :
    events.foldl (fun s event => (s.handle indent event).1) (.grid {}) =
      Stage.grid (behind events) := by
  induction events using List.reverseRecOn with
  | nil => rfl
  | append_singleton events event ih =>
    rw [List.foldl_append, ih, List.foldl_cons, List.foldl_nil, Stage.handle_grid, behind_concat]

theorem reachable_behind (events : List Event) : Reachable (behind events) := by
  induction events using List.reverseRecOn with
  | nil => exact .fresh
  | append_singleton events event ih =>
    rw [behind_concat]
    exact ih.next "" event (Stage.handle_grid "" (behind events) event)

theorem length_handle (g : Grid) (event : Event) :
    (g.handle event).1.rows.length = event.countRows g.rows.length := by
  cases event with
  | token t => exact length_step g t
  | finish => rfl

theorem length_behind (events : List Event) :
    (behind events).rows.length = events.foldl Event.countRows 0 := by
  induction events using List.reverseRecOn with
  | nil => rfl
  | append_singleton events event ih =>
    rw [behind_concat, length_handle, ih, List.foldl_append]
    rfl

/-! ## Rows by what is around them -/

/-- The innermost row, and the rows around it. -/
theorem getElem?_reverse_cons (row : Row) (outer : List Row) (d : Nat) :
    (row :: outer).reverse[d]? = if d = outer.length then some row else outer.reverse[d]? := by
  rw [List.reverse_cons]
  by_cases hd : d = outer.length
  · rw [if_pos hd, hd, ← List.length_reverse, List.getElem?_concat_length]
  · rw [if_neg hd, List.getElem?_append]
    split
    · rfl
    · next hlt =>
      rw [List.length_reverse] at hlt
      rw [List.getElem?_eq_none, List.getElem?_eq_none] <;> simp <;> omega

/-- The implied column of a row around others is told by the others alone. -/
theorem implied_cons_iff (hrow : row ≠ .implied) :
    (row :: outer).reverse[d]? = some .implied ↔ outer.reverse[d]? = some .implied := by
  rw [getElem?_reverse_cons]
  split
  · next hd =>
    rw [hd, ← List.length_reverse, List.getElem?_length]
    exact iff_of_false (fun h => hrow (Option.some.inj h)) nofun
  · rfl

theorem implied_tail (h : rows.tail.reverse[d]? = some .implied) :
    rows.reverse[d]? = some .implied := by
  cases rows with
  | nil => exact h
  | cons row outer =>
    rw [List.tail_cons] at h
    have hd : d ≠ outer.length := by
      rintro rfl
      rw [← List.length_reverse, List.getElem?_length] at h
      cases h
    rwa [getElem?_reverse_cons, if_neg hd]

/-- Content adds rows that wait, or takes the innermost row off. -/
theorem implied_rowsBehind (h : (rowsBehind rows t).reverse[d]? = some .implied) :
    rows.reverse[d]? = some .implied := by
  cases t with
  | startTag tag =>
    rw [rowsBehind, rowsAfter] at h
    split at h
    · exact (implied_cons_iff (by decide)).1 h
    · exact h
  | endTag name =>
    rw [rowsBehind] at h
    split at h
    · exact implied_tail (List.drop_one ▸ h)
    · exact h
  | _ => exact h

theorem rowsBehind_implied (h : rows.reverse[d]? = some .implied)
    (hopen : d < (rowsBehind rows t).length) :
    (rowsBehind rows t).reverse[d]? = some .implied := by
  cases t with
  | startTag tag =>
    rw [rowsBehind, rowsAfter]
    split
    · exact (implied_cons_iff (by decide)).2 h
    · exact h
  | endTag name =>
    rw [rowsBehind] at hopen ⊢
    split
    · next hname =>
      rw [if_pos hname] at hopen
      cases rows with
      | nil => exact h
      | cons row outer =>
        have hd : d ≠ outer.length := Nat.ne_of_lt hopen
        rwa [getElem?_reverse_cons, if_neg hd] at h
    · exact h
  | _ => exact h

theorem implied_fill (d : Nat) :
    (fill rows).reverse[d]? = some .implied ↔ rows.reverse[d]? = some .implied := by
  unfold fill
  split
  · next outer => rw [implied_cons_iff (by decide), implied_cons_iff (by decide)]
  · rfl

theorem settle_implied (h : g.rowAt d = some .implied) : g.settle.1.rowAt d = some .implied := by
  unfold Grid.settle
  split
  · next outer hrows =>
    rw [rowAt, hrows, implied_cons_iff (by decide)] at h
    rw [rowAt, getElem?_reverse_cons, h]
    exact ite_self _
  · exact h

/-! ## Rows from call to call -/

/-- A row that has its implied column keeps it while it is open. -/
theorem implied_handle {event : Event} (h : g.rowAt d = some .implied)
    (hopen : d < (g.handle event).1.rows.length) : (g.handle event).1.rowAt d = some .implied := by
  cases event with
  | finish => exact absurd hopen (Nat.not_lt_zero d)
  | token t =>
    change d < (g.step t).1.rows.length at hopen
    change (g.step t).1.rowAt d = some .implied
    rcases step_cases g t with ⟨-, -, hstep⟩ | ⟨tag, -, -, hstep⟩ | ⟨-, -, hstep⟩
    · rw [hstep]
      exact h
    · rw [hstep, rowAt, Grid.column]
      split
      · exact h
      · exact (implied_fill d).2 h
    · rw [hstep, content_eq] at hopen ⊢
      exact rowsBehind_implied (settle_implied h) hopen

theorem implied_behind {later : List Event}
    (hopen : ∀ k ≤ later.length, d < (behind (events ++ later.take k)).rows.length)
    (h : (behind events).rowAt d = some .implied) :
    (behind (events ++ later)).rowAt d = some .implied := by
  induction later using List.reverseRecOn with
  | nil => rwa [List.append_nil]
  | append_singleton later event ih =>
    have hlast := hopen _ le_rfl
    rw [List.take_length, ← List.append_assoc, behind_concat] at hlast
    rw [← List.append_assoc, behind_concat]
    refine implied_handle (ih ?_) hlast
    intro k hk
    have hbefore := hopen k (by rw [List.length_append]; omega)
    rwa [List.take_append_of_le_length hk] at hbefore

theorem columnEnd_eq_nil (h : t ≠ .endTag rowName) (rows : List Row) : columnEnd rows t = [] := by
  cases t with
  | endTag name =>
    have hname : name ≠ rowName := fun hname => h (congrArg Token.endTag hname)
    rw [columnEnd, closeColumn, if_neg (fun hends => hname hends.1)]
  | _ => rfl

/-- Content gives a row that waits its implied column, with what was held inside. -/
theorem content_waiting (h : g.rows = .waiting :: outer) (t : Token) :
    (g.content t).1 = ⟨rowsBehind (.implied :: outer) t, []⟩ ∧
      (g.content t).2.tokens =
        impliedColumn :: (g.held ++ (columnEnd (.implied :: outer) t ++ expand t)) := by
  rw [content_eq, Grid.settle, h]
  exact ⟨rfl, rfl⟩

/-- A call in which a row gets its implied column sends one start tag for it, then what was held,
and then what the token becomes by itself. -/
theorem tokens_of_columnStarts {event : Event} (h : g.ColumnStarts (g.handle event).1) :
    ∃ t, event = .token t ∧
      (g.handle event).2.tokens = impliedColumn :: (g.held ++ expand t) := by
  obtain ⟨d, hbefore, hafter⟩ := h
  cases event with
  | finish => cases hafter
  | token t =>
    refine ⟨t, rfl, ?_⟩
    change (g.step t).1.rowAt d = some .implied at hafter
    change (g.step t).2.tokens = _
    rcases step_cases g t with ⟨-, -, hstep⟩ | ⟨tag, -, -, hstep⟩ | ⟨-, -, hstep⟩
    · rw [hstep] at hafter
      exact absurd hafter hbefore
    · rw [hstep, rowAt, Grid.column] at hafter
      split at hafter
      · exact absurd hafter hbefore
      · exact absurd ((implied_fill d).1 hafter) hbefore
    · rw [hstep] at hafter ⊢
      cases hwaiting : g.isWaiting with
      | false =>
        rw [content_eq, settle_eq_self hwaiting] at hafter
        exact absurd (implied_rowsBehind hafter) hbefore
      | true =>
        obtain ⟨outer, hrows⟩ := List.head?_eq_some_iff.1 (isWaiting_iff.1 hwaiting)
        obtain ⟨hnext, htokens⟩ := content_waiting hrows t
        -- The end of a row would take the row off again.
        have ht : t ≠ .endTag rowName := by
          rintro rfl
          have houter : outer.reverse[d]? = some .implied := by
            rw [hnext] at hafter
            exact hafter
          rw [rowAt, hrows, ne_eq, implied_cons_iff (by decide)] at hbefore
          exact hbefore houter
        rw [htokens, columnEnd_eq_nil ht, List.nil_append]

/-- Any other call, the end of a row apart, holds the token, or it sends what was held and what the
token becomes by itself. -/
theorem tokens_of_not_columnStarts (hg : g.Sound) (ht : t ≠ .endTag rowName)
    (h : ¬ g.ColumnStarts (g.step t).1) :
    ((g.step t).1.held = g.held ++ [t] ∧ (g.step t).2.tokens = []) ∨
      ((g.step t).1.held = [] ∧ (g.step t).2.tokens = g.held ++ expand t) := by
  rcases step_cases g t with ⟨-, -, hstep⟩ | ⟨tag, rfl, -, hstep⟩ | ⟨-, -, hstep⟩
  · rw [hstep]
    exact .inl ⟨rfl, rfl⟩
  · rw [hstep]
    exact .inr ⟨rfl, rfl⟩
  · rw [hstep] at h ⊢
    rcases hg.waiting_or_not with ⟨outer, hrows, -⟩ | ⟨hheld, hwaiting, -⟩
    · -- The row that waited has its implied column behind the call.
      refine absurd ⟨outer.length, ?_, ?_⟩ h
      · rw [rowAt, hrows, getElem?_reverse_cons, if_pos rfl]
        decide
      · rw [(content_waiting hrows t).1, rowAt]
        apply rowsBehind_implied
        · rw [getElem?_reverse_cons, if_pos rfl]
        · rw [length_rowsBehind]
          unfold Token.countRows
          rw [if_neg ht, List.length_cons]
          split <;> omega
    · refine .inr ?_
      rw [content_eq, settle_eq_self hwaiting, hheld, columnEnd_eq_nil ht]
      exact ⟨rfl, rfl⟩

/-- The end of a row closes it together with its implied column. A row that still waits gets that
column from its own end. -/
theorem step_rowEnd (hg : g.Sound) (hrows : g.rows = row :: outer) :
    (g.step (.endTag rowName)).1 = ⟨outer, []⟩ ∧
      (g.step (.endTag rowName)).2.tokens =
        (if row = .waiting then impliedColumn :: g.held else []) ++
          if row = .filled then [.endTag element] else [.endTag element, .endTag element] := by
  have hend : g.step (.endTag rowName) = g.content (.endTag rowName) := rfl
  have hgrid : expand (.endTag rowName) = [.endTag element] := by decide
  by_cases hrow : row = .waiting
  · subst hrow
    obtain ⟨hnext, htokens⟩ := content_waiting hrows (.endTag rowName)
    rw [hend, hnext, htokens, hgrid]
    exact ⟨rfl, rfl⟩
  · have hwaiting : g.isWaiting = false := by
      rw [← Bool.not_eq_true, isWaiting_iff, hrows]
      exact fun hhead => hrow (Option.some.inj hhead)
    have hself : g = ⟨row :: outer, []⟩ := by
      rw [← hrows, ← hg.held_eq_nil hwaiting]
    rw [hself, step_endRow hrow, if_neg hrow]
    cases row with
    | waiting => exact absurd rfl hrow
    | filled => exact ⟨rfl, rfl⟩
    | implied => exact ⟨rfl, rfl⟩

/-- The stage holds what the frames hold, and gives their answers. A row with an implied column
expects none. Between two calls the grid is sound, and it has a row for each start tag of a row since
the last end of a document that no end tag has closed. A row that gets an implied column keeps it
while it is open, and its start tag is sent in just that call, in front of what was held. Any other
call sends no column but what its token becomes by itself. The end of a row is two end tags if the
row has an implied column by then, and else one. -/
theorem behind_rows (events : List Event) :
    let g := behind events
    ((∀ indent, events.foldl (fun s event => (s.handle indent event).1) (.grid {}) =
        Stage.grid g) ∧
      Frames.behind events = g.frames ∧
      ∀ event, (g.frames.handle event).2 = (g.handle event).2) ∧
      (∀ row ∈ g.frames.rows, row.implied = true → row.column = .present) ∧
      g.Sound ∧
      g.rows.length = events.foldl Event.countRows 0 ∧
      (∀ later d, (∀ k ≤ later.length, d < (behind (events ++ later.take k)).rows.length) →
        g.rowAt d = some .implied → (behind (events ++ later)).rowAt d = some .implied) ∧
      (∀ event, g.ColumnStarts (behind (events ++ [event])) →
        ∃ t, event = .token t ∧
          (g.handle event).2.tokens = impliedColumn :: (g.held ++ expand t)) ∧
      (∀ t, t ≠ .endTag rowName → ¬ g.ColumnStarts (behind (events ++ [.token t])) →
        let next := behind (events ++ [.token t])
        (next.held = g.held ++ [t] ∧ (g.step t).2.tokens = []) ∨
          (next.held = [] ∧ (g.step t).2.tokens = g.held ++ expand t)) ∧
      ∀ row outer, g.rows = row :: outer →
        behind (events ++ [.token (.endTag rowName)]) = ⟨outer, []⟩ ∧
          (g.step (.endTag rowName)).2.tokens =
            (if row = .waiting then impliedColumn :: g.held else []) ++
              if row = .filled then [.endTag element] else [.endTag element, .endTag element] := by
  intro g
  have hsound : g.Sound := (reachable_behind events).sound
  have hframes : Frames.behind events = g.frames := frames_behind events
  refine ⟨⟨fun indent => stage_behind indent events, hframes, ?_⟩,
    hframes ▸ Frames.sound_behind events, hsound, length_behind events,
    fun later d => implied_behind, ?_, ?_, ?_⟩
  · intro event
    rw [handle_frames]
  · intro event hstarts
    rw [behind_concat] at hstarts
    exact tokens_of_columnStarts hstarts
  · intro t ht hstarts
    rw [behind_concat] at hstarts ⊢
    exact tokens_of_not_columnStarts hsound ht hstarts
  · intro row outer hrows
    rw [behind_concat]
    exact step_rowEnd hsound hrows

/-- A document that ends, and a row with a comment. -/
def rowEvents : List Event :=
  [.token (.startTag ⟨"r", [], false⟩), .finish, .token (.endTag "r"),
    .token (.startTag ⟨"r", [], false⟩), .token (.comment "a")]

theorem behind_rows_text :
    behind rowEvents = ⟨[.waiting], [.comment "a"]⟩ ∧
      ((behind rowEvents).step (.text "b")).2.tokens =
        [impliedColumn, .comment "a", .text "b"] ∧
      ((behind (rowEvents ++ [.token (.text "b")])).step (.comment "c")).2.tokens =
        [.comment "c"] ∧
      (behind (rowEvents ++ [.token (.text "b")] ++ [.token (.comment "c")])).rowAt 0 =
        some .implied ∧
      ((behind (rowEvents ++ [.token (.text "b")])).step (.endTag "r")).2.tokens =
        [.endTag "div", .endTag "div"] := by
  have hwaits : behind rowEvents = ⟨[.waiting], [.comment "a"]⟩ := by decide
  have himplied : behind (rowEvents ++ [.token (.text "b")]) = ⟨[.implied], []⟩ := by decide
  obtain ⟨-, -, -, -, -, hstarts, -⟩ := behind_rows rowEvents
  obtain ⟨-, -, -, -, hkeeps, -, hpasses, hend⟩ := behind_rows (rowEvents ++ [.token (.text "b")])
  refine ⟨hwaits, ?_, ?_, ?_, ?_⟩
  · obtain ⟨t, ht, htokens⟩ := hstarts (.token (.text "b")) ⟨0, by decide, by decide⟩
    obtain rfl : Token.text "b" = t := Event.token.inj ht
    exact htokens.trans (by decide)
  · have hsame : behind (rowEvents ++ [.token (.text "b")] ++ [.token (.comment "c")]) =
        ⟨[.implied], []⟩ := by decide
    have hnone : ¬ ColumnStarts (behind (rowEvents ++ [.token (.text "b")]))
        (behind (rowEvents ++ [.token (.text "b")] ++ [.token (.comment "c")])) := by
      rw [hsame, himplied]
      rintro ⟨d, hbefore, hafter⟩
      exact hbefore hafter
    rcases hpasses (.comment "c") (by decide) hnone with ⟨hheld, -⟩ | ⟨-, htokens⟩
    · rw [hsame, himplied] at hheld
      cases hheld
    · exact htokens.trans (by decide)
  · exact hkeeps [.token (.comment "c")] 0 (by decide) (by decide)
  · exact (hend .implied [] (by rw [himplied])).2.trans (by decide)

end Grid

end GridMarkup
