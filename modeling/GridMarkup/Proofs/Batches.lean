import GridMarkup.Proofs.InTurn
import GridMarkup.Proofs.Rows

/-!
# Batches

A run leaves its stages as they were before their first token. So nothing goes from one batch of
tokens to the next but the indentation of the last text, and where no row and no block is open, a
run can be cut in two.
-/

namespace GridMarkup

/-- The content of a text. -/
def Token.text? : Token → Option String
  | .text s => some s
  | _ => none

/-- The indentation that the last text leaves, or the one before if there is no text. -/
def indentBehind (indent : String) (tokens : List Token) : String :=
  match (tokens.filterMap Token.text?).getLast? with
  | none => indent
  | some s => String.ofList (Text.indentation s.toList)

/-- No row and no block is open. -/
def Stage.Closed : Stage → Prop
  | .resources block => block = none
  | .grid g => g.rows = []
  | .idle => True

instance : DecidablePred Stage.Closed
  | .resources block => inferInstanceAs (Decidable (block = none))
  | .grid g => inferInstanceAs (Decidable (g.rows = []))
  | .idle => inferInstanceAs (Decidable True)

/-- The stages before their first token. -/
def Expansion.start (stages : List Stage) (indent : String) : Expansion :=
  ⟨stages.map Stage.fresh, indent⟩

variable {indent : String} {s : Stage} {stages : List Stage}

/-! ## Stages that are fresh again -/

namespace Stage

@[simp]
theorem fresh_fresh (s : Stage) : s.fresh.fresh = s.fresh := by
  cases s <;> rfl

theorem fresh_step (indent : String) (s : Stage) (t : Token) : (s.step indent t).1.fresh = s.fresh := by
  cases s <;> rfl

theorem fresh_stream (s : Stage) (xs : List (String × Token)) : (s.stream xs).1.fresh = s.fresh := by
  induction xs generalizing s with
  | nil => rfl
  | cons x xs ih =>
    rw [stream]
    exact (ih _).trans (fresh_step x.1 s x.2)

/-- A fresh stage that has come to a point where nothing is open is fresh again. -/
theorem Closed.eq_fresh {xs : List (String × Token)} (h : (s.fresh.stream xs).1.Closed) :
    (s.fresh.stream xs).1 = s.fresh := by
  cases s with
  | resources block =>
    change ((resources none).stream xs).1 = _
    change ((resources none).stream xs).1.Closed at h
    rw [(Resource.stream_eq none xs).1] at h ⊢
    rw [show (Resource.expandAll none xs).1 = none from h]
    rfl
  | grid g =>
    change ((grid {}).stream xs).1 = _
    change ((grid {}).stream xs).1.Closed at h
    rw [(Grid.stream_eq {} xs).1] at h ⊢
    have hsound := Grid.sound_expandAll Grid.sound_fresh (xs.map Prod.snd)
    generalize (Grid.expandAll {} (xs.map Prod.snd)).1 = g at h hsound ⊢
    obtain ⟨rows, held⟩ := g
    obtain rfl : rows = [] := h
    obtain rfl : held = [] := hsound.held_eq_nil rfl
    rfl
  | idle => exact congrArg Prod.fst (Expansion.stream_idle xs)

end Stage

namespace Expansion

theorem inTurn_fresh (final : String) (stages : List Stage) (xs : List (String × Token)) :
    (inTurn final stages xs).1 = stages.map Stage.fresh := by
  induction stages generalizing xs with
  | nil => rfl
  | cons s later ih =>
    rw [inTurn, List.map_cons, ← s.fresh_stream xs]
    exact congrArg (_ :: ·) (ih _)

theorem streams_of_closed {xs : List (String × Token)}
    (h : ∀ s ∈ (streams (stages.map Stage.fresh) xs).1, s.Closed) :
    (streams (stages.map Stage.fresh) xs).1 = stages.map Stage.fresh := by
  induction stages generalizing xs with
  | nil => rfl
  | cons s later ih =>
    obtain ⟨hs, hlater⟩ := List.forall_mem_cons.1 h
    exact congrArg₂ List.cons hs.eq_fresh (ih hlater)

/-! ## The indentation -/

theorem indentAtEnd_eq (e : Expansion) (tokens : List Token) :
    e.indentAtEnd tokens = indentBehind e.indent tokens := by
  unfold indentAtEnd
  induction tokens using List.reverseRecOn with
  | nil => rfl
  | append_singleton tokens t ih =>
    rw [List.foldl_append, ih]
    cases t <;> simp [indentAfter, indentBehind, Token.text?]

/-- A run leaves fresh stages, whatever is open before it or at its end. -/
theorem run_state (e : Expansion) (tokens : List Token) :
    (e.run tokens).1 = start e.stages (indentBehind e.indent tokens) := by
  rw [(run_eq_inTurn e tokens).1, inTurn_fresh, indentAtEnd_eq]
  rfl

theorem start_start (stages : List Stage) (before indent : String) :
    start (start stages before).stages indent = start stages indent := by
  simp [start, Function.comp_def]

theorem indentBehind_append (indent : String) (tokens more : List Token) :
    indentBehind (indentBehind indent tokens) more = indentBehind indent (tokens ++ more) := by
  simp only [← indentAtEnd_eq ⟨[], _⟩, indentAtEnd, List.foldl_append]

/-! ## Batches -/

theorem runAll_start (stages : List Stage) (indent : String) (batches : List (List Token)) :
    (start stages indent).runAll batches =
      (start stages (indentBehind indent batches.flatten),
        batches.mapIdx fun i tokens =>
          ((start stages (indentBehind indent (batches.take i).flatten)).run tokens).2) := by
  induction batches generalizing indent with
  | nil => rfl
  | cons tokens batches ih =>
    have hstate : ((start stages indent).run tokens).1 =
        start stages (indentBehind indent tokens) := by
      rw [run_state, start_start]
      rfl
    rw [runAll]
    simp only [hstate, ih, indentBehind_append, List.mapIdx_cons, List.flatten_cons,
      List.take_succ_cons]
    rfl

/-- Where nothing is open, a run can be cut. -/
theorem run_cut {xs : List Token}
    (h : ∀ s ∈ ((start stages indent).acceptAll xs).1.stages, s.Closed) (ys : List Token) :
    ((start stages indent).run (xs ++ ys)).2.output =
      ((start stages indent).run xs).2.output ++
        (((start stages indent).run xs).1.run ys).2.output := by
  rw [start, acceptAll_state] at h
  have hstages := streams_of_closed h
  have hindent : xs.foldl indentAfter indent = indentBehind indent xs :=
    indentAtEnd_eq ⟨[], indent⟩ xs
  rw [run_state, start_start]
  simp only [run_output, start, indented_append, streams_append, List.map_append, hstages, hindent]

/-- Nothing but the indentation of the last text goes from one batch to the next: the stages are
fresh behind every batch, and each batch becomes what it becomes behind that indentation alone. Where
a batch can be cut so that no row and no block is open, it becomes the same as two. -/
theorem runAll_batches (stages : List Stage) (batches : List (List Token)) :
    let ran := (start stages "").runAll batches
    ran.1 = start stages (indentBehind "" batches.flatten) ∧
      ran.2 = batches.mapIdx (fun i tokens =>
        ((start stages (indentBehind "" (batches.take i).flatten)).run tokens).2) ∧
      ∀ xs, (∀ s ∈ (ran.1.acceptAll xs).1.stages, s.Closed) → ∀ ys,
        (ran.1.run (xs ++ ys)).1 = ((ran.1.run xs).1.run ys).1 ∧
          (ran.1.run (xs ++ ys)).2.output =
            (ran.1.run xs).2.output ++ ((ran.1.run xs).1.run ys).2.output := by
  rw [runAll_start]
  refine ⟨rfl, rfl, fun xs hclosed ys => ⟨?_, run_cut hclosed ys⟩⟩
  simp only [run_state, start_start]
  rw [← indentBehind_append]
  rfl

/-- A row that is left open, and a batch that is cut in front of a block. -/
theorem runAll_batches_row :
    let stages : List Stage := [.resources none, .idle, .grid {}]
    let started : List Token := [.startTag ⟨"r", [], false⟩, .text "\n  ", .comment "held"]
    let row : List Token := [.startTag ⟨"r", [], false⟩, .text " ", .endTag "r"]
    let block : List Token := [.startTag ⟨"js", [], false⟩, .text "\na.js\n", .endTag "js"]
    let behind := ((start stages "").runAll [started]).1
    behind = start stages "  " ∧
      (∀ s ∈ (behind.acceptAll row).1.stages, s.Closed) ∧
      (behind.run (row ++ block)).2.output =
        (behind.run row).2.output ++ ((behind.run row).1.run block).2.output := by
  intro stages started row block behind
  obtain ⟨hstate, -, hcut⟩ := runAll_batches stages [started]
  have hindent : indentBehind "" [started].flatten = "  " := by decide
  have hclosed : ∀ s ∈ (behind.acceptAll row).1.stages, s.Closed := by decide +kernel
  exact ⟨hstate.trans (congrArg (start stages) hindent), hclosed, (hcut row hclosed block).2⟩

end Expansion

end GridMarkup
