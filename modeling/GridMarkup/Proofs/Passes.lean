import GridMarkup.Expansion
import Mathlib.Data.List.TakeWhile

/-!
# One stage after the other

A run takes each token through all stages before the next one starts. It sends out the same tokens
as when every stage in turn answers the whole stream, since a stage sees nothing of the others but
the tokens that reach it and the indentation in force.
-/

namespace GridMarkup

variable {indent : String} {s : Stage} {stages : List Stage} {t : Token} {tokens : List Token}
  {xs ys : List (String × Token)} {P : List Token → Prop}

def Text.AllBlank (s : List Char) : Prop := ∀ c ∈ s, Text.isBlank c = true

instance (s : List Char) : Decidable (Text.AllBlank s) := List.decidableBAll _ s

theorem Text.allBlank_indentation (s : List Char) : AllBlank (indentation s) := by
  intro c hc
  rw [indentation, trailing, List.mem_reverse] at hc
  have hblank := List.mem_takeWhile_imp hc
  rw [Bool.and_eq_true] at hblank
  exact hblank.1

/-! ## Whole streams -/

/-- What a stage makes of a stream, in which every token has the indentation in force, and the
state that it is left in. -/
def Stage.stream (s : Stage) : List (String × Token) → Stage × List (String × Token)
  | [] => (s, [])
  | (indent, t) :: rest =>
    let (next, reply) := s.step indent t
    let (last, more) := next.stream rest
    (last, reply.tokens.map (indent, ·) ++ more)

/-- The stages in turn, each with all that the one before made. -/
def Expansion.streams : List Stage → List (String × Token) → List Stage × List (String × Token)
  | [], xs => ([], xs)
  | s :: later, xs =>
    let (last, ys) := s.stream xs
    let (later, zs) := streams later ys
    (last :: later, zs)

/-- The tokens of a source, each with the indentation behind it. -/
def Expansion.indented (indent : String) : List Token → List (String × Token)
  | [] => []
  | t :: tokens => (indentAfter indent t, t) :: indented (indentAfter indent t) tokens

theorem Stage.stream_append (s : Stage) (xs ys : List (String × Token)) :
    s.stream (xs ++ ys) =
      (((s.stream xs).1.stream ys).1, (s.stream xs).2 ++ ((s.stream xs).1.stream ys).2) := by
  induction xs generalizing s with
  | nil => rfl
  | cons x xs ih =>
    simp only [List.cons_append, Stage.stream, ih, List.append_assoc]

/-- A stage that gets tokens one by one, under any indentations, ends in a state and has sent other
tokens. -/
inductive Stage.Runs : Stage → List Token → Stage → List Token → Prop where
  | nil (s : Stage) : Runs s [] s []
  | cons {s last : Stage} {t : Token} {tokens sent : List Token} {indent : String}
      (hindent : Text.AllBlank indent.toList)
      (h : Runs (s.step indent t).1 tokens last sent) :
      Runs s (t :: tokens) last ((s.step indent t).2.tokens ++ sent)

theorem Stage.runs_stream (s : Stage) (hxs : ∀ x ∈ xs, Text.AllBlank x.1.toList) :
    s.Runs (xs.map Prod.snd) (s.stream xs).1 ((s.stream xs).2.map Prod.snd) := by
  induction xs generalizing s with
  | nil => exact .nil s
  | cons x xs ih =>
    obtain ⟨indent, t⟩ := x
    have hreply : ((s.step indent t).2.tokens.map (indent, ·)).map Prod.snd =
        (s.step indent t).2.tokens := by
      rw [List.map_map]
      exact List.map_id _
    rw [Stage.stream, List.map_append, hreply]
    exact .cons (hxs _ List.mem_cons_self) (ih _ fun x hx => hxs x (List.mem_cons_of_mem _ hx))

/-- A stage answers under the indentations that it gets. -/
theorem Stage.stream_indents (s : Stage) {y : String × Token} (hy : y ∈ (s.stream xs).2) :
    ∃ x ∈ xs, x.1 = y.1 := by
  induction xs generalizing s with
  | nil => cases hy
  | cons x xs ih =>
    obtain ⟨indent, t⟩ := x
    rw [Stage.stream, List.mem_append] at hy
    rcases hy with hy | hy
    · obtain ⟨u, -, rfl⟩ := List.mem_map.1 hy
      exact ⟨_, List.mem_cons_self, rfl⟩
    · obtain ⟨x, hx, heq⟩ := ih _ hy
      exact ⟨x, List.mem_cons_of_mem _ hx, heq⟩

/-- No stage keeps a token back for the end of the stream. -/
theorem Stage.lastReply_tokens (s : Stage) : s.lastReply.tokens = [] := by
  cases s with
  | resources block => cases block <;> rfl
  | grid g =>
    change g.finish.tokens = []
    unfold Grid.finish
    split <;> rfl
  | idle => rfl

namespace Expansion

theorem streams_nil (stages : List Stage) : streams stages [] = (stages, []) := by
  induction stages with
  | nil => rfl
  | cons s later ih => simp only [streams, Stage.stream, ih]

theorem streams_append (stages : List Stage) (xs ys : List (String × Token)) :
    streams stages (xs ++ ys) =
      ((streams (streams stages xs).1 ys).1,
        (streams stages xs).2 ++ (streams (streams stages xs).1 ys).2) := by
  induction stages generalizing xs ys with
  | nil => rfl
  | cons s later ih => simp only [streams, Stage.stream_append, ih]

theorem streams_cons (stages : List Stage) (x : String × Token) (xs : List (String × Token)) :
    streams stages (x :: xs) =
      ((streams (streams stages [x]).1 xs).1,
        (streams stages [x]).2 ++ (streams (streams stages [x]).1 xs).2) :=
  streams_append stages [x] xs

theorem streams_length (stages : List Stage) (xs : List (String × Token)) :
    (streams stages xs).1.length = stages.length := by
  induction stages generalizing xs with
  | nil => rfl
  | cons s later ih => simp only [streams, List.length_cons, ih]

/-! ## One token after the other -/

/-- Stages that were run depth first are left as after whole streams, with the same output. -/
def Agree (indent : String) (run : List Stage × Passage)
    (whole : List Stage × List (String × Token)) : Prop :=
  run.1 = whole.1 ∧ run.2.output.map (indent, ·) = whole.2

theorem feed_agree {pass : List Stage → Token → List Stage × Passage} {depth : Nat}
    (hpass : ∀ stages t, stages.length = depth →
      Agree indent (pass stages t) (streams stages [(indent, t)]))
    (tokens : List Token) (stages : List Stage) (hlength : stages.length = depth) :
    Agree indent (feed pass stages tokens) (streams stages (tokens.map (indent, ·))) := by
  induction tokens generalizing stages with
  | nil =>
    rw [List.map_nil, streams_nil]
    exact ⟨rfl, rfl⟩
  | cons t tokens ih =>
    obtain ⟨hstages, houtput⟩ := hpass stages t hlength
    have hlength' : (pass stages t).1.length = depth := by
      rw [hstages, streams_length, hlength]
    obtain ⟨hrest, hmore⟩ := ih _ hlength'
    rw [List.map_cons, streams_cons, ← hstages, ← houtput, ← hrest, ← hmore, ← List.map_append]
    exact ⟨rfl, rfl⟩

theorem passWithin_agree (indent : String) (depth number : Nat) (stages : List Stage) (t : Token)
    (hlength : stages.length = depth) :
    Agree indent (passWithin indent depth number stages t) (streams stages [(indent, t)]) := by
  induction depth generalizing number stages t with
  | zero =>
    rw [List.eq_nil_of_length_eq_zero hlength]
    exact ⟨rfl, rfl⟩
  | succ depth ih =>
    -- What the first stage sends goes through the later ones, which are one stage less deep.
    obtain ⟨s, later, rfl⟩ := List.exists_cons_of_length_eq_add_one hlength
    obtain ⟨hlater, hrest⟩ := feed_agree (fun stages t => ih (number + 1) stages t)
      (s.step indent t).2.tokens later (Nat.succ.inj hlength)
    simp only [streams, Stage.stream, List.append_nil, ← hlater, ← hrest]
    exact ⟨rfl, rfl⟩

theorem flushWithin_output (indent : String) (depth number : Nat) (stages : List Stage) :
    (flushWithin indent depth number stages).2.output = [] := by
  induction depth generalizing number stages with
  | zero => rfl
  | succ depth ih =>
    cases stages with
    | nil => rfl
    | cons s later =>
      have hlater := ih (number + 1) later
      have hfinish : s.finish.2.tokens = [] := s.lastReply_tokens
      rw [flushWithin]
      simp only [hfinish, feed]
      exact hlater

theorem acceptAll_output (stages : List Stage) (indent : String) (tokens : List Token) :
    (acceptAll ⟨stages, indent⟩ tokens).2.output =
      (streams stages (indented indent tokens)).2.map Prod.snd := by
  induction tokens generalizing stages indent with
  | nil =>
    rw [indented, streams_nil]
    rfl
  | cons t tokens ih =>
    obtain ⟨hstages, houtput⟩ :=
      passWithin_agree (indentAfter indent t) stages.length 0 stages t rfl
    have hfirst : (pass (indentAfter indent t) stages t).2.output =
        (streams stages [(indentAfter indent t, t)]).2.map Prod.snd := by
      rw [← houtput, List.map_map]
      exact (List.map_id _).symm
    rw [indented, streams_cons, ← hstages, List.map_append, ← hfirst]
    exact congrArg (_ ++ ·) (ih _ _)

/-- A run sends out what the stages make of the whole stream, one after the other. -/
theorem run_output (e : Expansion) (tokens : List Token) :
    (e.run tokens).2.output = (streams e.stages (indented e.indent tokens)).2.map Prod.snd := by
  have hflush (e : Expansion) : (flush e.indent e.stages).2.output = [] :=
    flushWithin_output _ _ _ _
  change (e.acceptAll tokens).2.output ++ (flush _ _).2.output = _
  rw [hflush, List.append_nil]
  exact acceptAll_output e.stages e.indent tokens

theorem indented_tokens (indent : String) (tokens : List Token) :
    (indented indent tokens).map Prod.snd = tokens := by
  induction tokens generalizing indent with
  | nil => rfl
  | cons t tokens ih => rw [indented, List.map_cons, ih]

theorem allBlank_indentAfter (hindent : Text.AllBlank indent.toList) (t : Token) :
    Text.AllBlank (indentAfter indent t).toList := by
  cases t with
  | text s =>
    rw [indentAfter, String.toList_ofList]
    exact Text.allBlank_indentation _
  | _ => exact hindent

theorem indented_indents (hindent : Text.AllBlank indent.toList) :
    ∀ x ∈ indented indent tokens, Text.AllBlank x.1.toList := by
  induction tokens generalizing indent with
  | nil => exact List.forall_mem_nil _
  | cons t tokens ih =>
    have hafter := allBlank_indentAfter hindent t
    exact List.forall_mem_cons.2 ⟨hafter, ih hafter⟩

/-- What every stage keeps, a run keeps. -/
theorem run_keeps {e : Expansion} (hindent : Text.AllBlank e.indent.toList)
    (hkeeps : ∀ s ∈ e.stages, ∀ tokens last sent, s.Runs tokens last sent → P tokens → P sent)
    (h : P tokens) : P (e.run tokens).2.output := by
  have hstreams (stages : List Stage) (xs : List (String × Token))
      (hkeeps : ∀ s ∈ stages, ∀ tokens last sent, s.Runs tokens last sent → P tokens → P sent)
      (hxs : ∀ x ∈ xs, Text.AllBlank x.1.toList) (h : P (xs.map Prod.snd)) :
      P ((streams stages xs).2.map Prod.snd) := by
    induction stages generalizing xs with
    | nil => exact h
    | cons s later ih =>
      refine ih _ (fun u hu => hkeeps u (List.mem_cons_of_mem _ hu)) ?_
        (hkeeps s List.mem_cons_self _ _ _ (s.runs_stream hxs) h)
      intro y hy
      obtain ⟨x, hx, heq⟩ := s.stream_indents hy
      rw [← heq]
      exact hxs x hx
  rw [run_output]
  apply hstreams _ _ hkeeps (indented_indents hindent)
  rwa [indented_tokens]

end Expansion

end GridMarkup
