import GridMarkup.Proofs.Passes

/-!
# Stages in turn, to their ends

A run takes every token through all stages before the next one, and ends one stage after the other.
It sends the same tokens and leaves the same stages as when each stage answers the whole stream and
is finished before the next stage starts.
-/

namespace GridMarkup

/-! ## One stage after the other -/

/-- What a stage makes of a whole stream and of its end, which has the indentation `final`, and the
state that it is left in. -/
def Stage.serve (final : String) (s : Stage) (xs : List (String × Token)) :
    Stage × List (String × Token) :=
  let (last, ys) := s.stream xs
  let (done, reply) := last.finish
  (done, ys ++ reply.tokens.map (final, ·))

namespace Expansion

/-- The stages in turn, each with all that the one before sent up to its end. -/
def inTurn (final : String) : List Stage → List (String × Token) → List Stage × List (String × Token)
  | [], xs => ([], xs)
  | s :: later, xs =>
    let (done, ys) := s.serve final xs
    let (later, zs) := inTurn final later ys
    (done :: later, zs)

/-- The indentation behind the last token. -/
def indentAtEnd (e : Expansion) (tokens : List Token) : String := tokens.foldl indentAfter e.indent

/-- Stages with one more that passes every token on, behind the first `n`. -/
def withIdle (n : Nat) (e : Expansion) : Expansion :=
  { e with stages := e.stages.take n ++ .idle :: e.stages.drop n }

/-! ## Endings -/

/-- The end of a stage passes the later stages before they end themselves. So it may as well stand
at the end of the stream that they get. -/
theorem inTurn_eq (final : String) (number : Nat) (stages : List Stage)
    (xs : List (String × Token)) :
    let ending := flushWithin final stages.length number (streams stages xs).1
    inTurn final stages xs = (ending.1, (streams stages xs).2 ++ ending.2.output.map (final, ·)) := by
  induction stages generalizing number xs with
  | nil => exact congrArg ([], ·) (List.append_nil xs).symm
  | cons s later ih =>
    intro ending
    let ys := (s.stream xs).2
    let last := (s.stream xs).1.finish
    let fed := feed (passWithin final later.length (number + 1)) (streams later ys).1 last.2.tokens
    let rest := flushWithin final later.length (number + 1) fed.1
    obtain ⟨hstages, houtput⟩ : Agree final fed
        (streams (streams later ys).1 (last.2.tokens.map (final, ·))) :=
      feed_agree (passWithin_agree final later.length (number + 1)) last.2.tokens _
        (streams_length later ys)
    have hlater : inTurn final later (ys ++ last.2.tokens.map (final, ·)) =
        (rest.1, (streams later ys).2 ++ fed.2.output.map (final, ·) ++
          rest.2.output.map (final, ·)) := by
      rw [ih (number + 1), streams_append, ← hstages, ← houtput]
    have hturn : inTurn final (s :: later) xs =
        (last.1 :: (inTurn final later (ys ++ last.2.tokens.map (final, ·))).1,
          (inTurn final later (ys ++ last.2.tokens.map (final, ·))).2) := rfl
    have hsent : ending.2.output = fed.2.output ++ rest.2.output := rfl
    rw [hturn, hlater, hsent, List.map_append, ← List.append_assoc]
    rfl

/-! ## Runs -/

theorem acceptAll_state (stages : List Stage) (indent : String) (tokens : List Token) :
    (acceptAll ⟨stages, indent⟩ tokens).1 =
      ⟨(streams stages (indented indent tokens)).1, tokens.foldl indentAfter indent⟩ := by
  induction tokens generalizing stages indent with
  | nil =>
    rw [indented, streams_nil]
    rfl
  | cons t tokens ih =>
    obtain ⟨hstages, -⟩ := passWithin_agree (indentAfter indent t) stages.length 0 stages t rfl
    rw [indented, streams_cons, ← hstages]
    exact ih _ _

theorem run_eq_inTurn (e : Expansion) (tokens : List Token) :
    let whole := inTurn (e.indentAtEnd tokens) e.stages (indented e.indent tokens)
    (e.run tokens).1 = ⟨whole.1, e.indentAtEnd tokens⟩ ∧
      (e.run tokens).2.output = whole.2.map Prod.snd := by
  intro whole
  let served := streams e.stages (indented e.indent tokens)
  let ending := flushWithin (e.indentAtEnd tokens) e.stages.length 0 served.1
  have hstate : (e.acceptAll tokens).1 = ⟨served.1, e.indentAtEnd tokens⟩ :=
    acceptAll_state e.stages e.indent tokens
  have houtput : (e.acceptAll tokens).2.output = served.2.map Prod.snd :=
    acceptAll_output e.stages e.indent tokens
  have hflush : flush (e.acceptAll tokens).1.indent (e.acceptAll tokens).1.stages = ending := by
    rw [hstate, flush, streams_length]
  have hwhole : whole = (ending.1, served.2 ++ ending.2.output.map (e.indentAtEnd tokens, ·)) :=
    inTurn_eq (e.indentAtEnd tokens) 0 e.stages (indented e.indent tokens)
  have htokens : (ending.2.output.map (e.indentAtEnd tokens, ·)).map Prod.snd = ending.2.output := by
    rw [List.map_map]
    exact List.map_id _
  constructor
  · change (⟨(flush _ _).1, (e.acceptAll tokens).1.indent⟩ : Expansion) = _
    rw [hflush, hwhole, hstate]
  · change (e.acceptAll tokens).2.output ++ (flush _ _).2.output = _
    rw [hflush, hwhole, houtput, List.map_append, htokens]

/-! ## Stages that do nothing -/

theorem stream_idle (xs : List (String × Token)) : Stage.stream .idle xs = (.idle, xs) := by
  induction xs with
  | nil => rfl
  | cons x xs ih =>
    simp only [Stage.stream, Stage.step, ih]
    rfl

theorem serve_idle (final : String) (xs : List (String × Token)) :
    Stage.serve final .idle xs = (.idle, xs) := by
  simp only [Stage.serve, stream_idle]
  exact congrArg (Stage.idle, ·) (List.append_nil xs)

theorem inTurn_append (final : String) (before after : List Stage) (xs : List (String × Token)) :
    inTurn final (before ++ after) xs =
      ((inTurn final before xs).1 ++ (inTurn final after (inTurn final before xs).2).1,
        (inTurn final after (inTurn final before xs).2).2) := by
  induction before generalizing xs with
  | nil => rfl
  | cons s later ih => simp only [List.cons_append, inTurn, ih]

theorem inTurn_length (final : String) (stages : List Stage) (xs : List (String × Token)) :
    (inTurn final stages xs).1.length = stages.length := by
  induction stages generalizing xs with
  | nil => rfl
  | cons s later ih => simp only [inTurn, List.length_cons, ih]

theorem inTurn_withIdle (final : String) (n : Nat) (stages : List Stage)
    (xs : List (String × Token)) :
    inTurn final (stages.take n ++ .idle :: stages.drop n) xs =
      ((inTurn final stages xs).1.take n ++ .idle :: (inTurn final stages xs).1.drop n,
        (inTurn final stages xs).2) := by
  let first := inTurn final (stages.take n) xs
  let rest := inTurn final (stages.drop n) first.2
  have hstages : inTurn final stages xs = (first.1 ++ rest.1, rest.2) := by
    conv => lhs; rw [← List.take_append_drop n stages]
    exact inTurn_append final _ _ xs
  have hfirst : first.1.length = (stages.take n).length := inTurn_length final _ xs
  have hrest : rest.1.length = (stages.drop n).length := inTurn_length final _ first.2
  have hidle : inTurn final (.idle :: stages.drop n) first.2 = (.idle :: rest.1, rest.2) := by
    rw [inTurn]
    simp only [serve_idle]
    rfl
  rw [List.length_take] at hfirst
  rw [List.length_drop] at hrest
  have hcut : (first.1 ++ rest.1).take n = first.1 ∧ (first.1 ++ rest.1).drop n = rest.1 := by
    rcases Nat.le_total n stages.length with hn | hn
    · have hfirst : first.1.length = n := by omega
      exact ⟨List.take_left' hfirst, List.drop_left' hfirst⟩
    · have hnil : rest.1 = [] := List.eq_nil_of_length_eq_zero (by omega)
      rw [hnil, List.append_nil]
      exact ⟨List.take_of_length_le (by omega), List.drop_of_length_le (by omega)⟩
  rw [hstages, hcut.1, hcut.2, inTurn_append]
  change (first.1 ++ (inTurn final (.idle :: stages.drop n) first.2).1,
    (inTurn final (.idle :: stages.drop n) first.2).2) = _
  rw [hidle]

/-- Running every token through all stages, and ending the stages one by one, comes to the same as
running each stage over the whole stream up to its end. A stage that passes every token on changes
nothing, wherever it stands. -/
theorem run_inTurn (e : Expansion) (tokens : List Token) :
    let whole := inTurn (e.indentAtEnd tokens) e.stages (indented e.indent tokens)
    (e.run tokens).1 = ⟨whole.1, e.indentAtEnd tokens⟩ ∧
      (e.run tokens).2.output = whole.2.map Prod.snd ∧
      ∀ n, ((e.withIdle n).run tokens).1 = (e.run tokens).1.withIdle n ∧
        ((e.withIdle n).run tokens).2.output = (e.run tokens).2.output := by
  intro whole
  obtain ⟨hstate, houtput⟩ := run_eq_inTurn e tokens
  refine ⟨hstate, houtput, fun n => ?_⟩
  have hidle : inTurn (e.indentAtEnd tokens) (e.withIdle n).stages (indented e.indent tokens) =
      (whole.1.take n ++ .idle :: whole.1.drop n, whole.2) :=
    inTurn_withIdle (e.indentAtEnd tokens) n e.stages (indented e.indent tokens)
  obtain ⟨hidleState, hidleOutput⟩ : ((e.withIdle n).run tokens).1 =
        ⟨(inTurn (e.indentAtEnd tokens) (e.withIdle n).stages (indented e.indent tokens)).1,
          e.indentAtEnd tokens⟩ ∧
      ((e.withIdle n).run tokens).2.output =
        (inTurn (e.indentAtEnd tokens) (e.withIdle n).stages
          (indented e.indent tokens)).2.map Prod.snd :=
    run_eq_inTurn (e.withIdle n) tokens
  rw [hidle] at hidleState hidleOutput
  rw [hidleState, hidleOutput, hstate, houtput]
  exact ⟨rfl, rfl⟩

end Expansion

end GridMarkup
