import GridMarkup.Compile
import GridMarkup.Proofs.Passes

/-!
# The two stages

A run of the compiler is a run of the resource blocks over the tokens of a source, where they are
on, and a run of the grid over what comes out of it.
-/

namespace GridMarkup

/-- What the resource blocks make of tokens, each with the indentation in force, and the block that
is left open. -/
def Resource.expandAll (block : Option Block) : List (String × Token) → Option Block × List Token
  | [] => (block, [])
  | (indent, t) :: rest =>
    let (next, reply) := step indent block t
    let (last, more) := expandAll next rest
    (last, reply.tokens ++ more)

/-- What the grid makes of tokens, and the grid that is left. -/
def Grid.expandAll (g : Grid) : List Token → Grid × List Token
  | [] => (g, [])
  | t :: tokens =>
    let (next, reply) := g.step t
    let (last, more) := next.expandAll tokens
    (last, reply.tokens ++ more)

/-- What goes into the grid: the tokens of a document with its resource blocks expanded. -/
def Options.included (o : Options) (tokens : List Token) : List Token :=
  if o.resources then (Resource.expandAll none (Expansion.indented "" tokens)).2 else tokens

/-- What a run with fresh stages makes of the tokens of a document. -/
def Options.expand (o : Options) (tokens : List Token) : List Token :=
  (Expansion.run { stages := o.stages } tokens).2.output

/-- The block that is open behind the tokens of a document, if blocks are on. -/
def Options.openBlock (o : Options) (tokens : List Token) : Option Resource.Block :=
  if o.resources then (Resource.expandAll none (Expansion.indented "" tokens)).1 else none

/-! ## One stage -/

theorem Resource.stream_eq (block : Option Block) (xs : List (String × Token)) :
    ((Stage.resources block).stream xs).1 = .resources (expandAll block xs).1 ∧
      ((Stage.resources block).stream xs).2.map Prod.snd = (expandAll block xs).2 := by
  induction xs generalizing block with
  | nil => exact ⟨rfl, rfl⟩
  | cons x xs ih =>
    obtain ⟨hlast, hmore⟩ := ih (step x.1 block x.2).1
    refine ⟨hlast, ?_⟩
    simp only [Stage.stream, Stage.step, expandAll, List.map_append, List.map_map, hmore]
    exact congrArg (· ++ _) (List.map_id _)

theorem Grid.stream_eq (g : Grid) (xs : List (String × Token)) :
    ((Stage.grid g).stream xs).1 = .grid (g.expandAll (xs.map Prod.snd)).1 ∧
      ((Stage.grid g).stream xs).2.map Prod.snd = (g.expandAll (xs.map Prod.snd)).2 := by
  induction xs generalizing g with
  | nil => exact ⟨rfl, rfl⟩
  | cons x xs ih =>
    obtain ⟨hlast, hmore⟩ := ih (g.step x.2).1
    refine ⟨hlast, ?_⟩
    simp only [Stage.stream, Stage.step, expandAll, List.map_append, List.map_map, List.map_cons,
      hmore]
    exact congrArg (· ++ _) (List.map_id _)

theorem Resource.expandAll_append (block : Option Block) (xs ys : List (String × Token)) :
    expandAll block (xs ++ ys) =
      ((expandAll (expandAll block xs).1 ys).1,
        (expandAll block xs).2 ++ (expandAll (expandAll block xs).1 ys).2) := by
  induction xs generalizing block with
  | nil => rfl
  | cons x xs ih => simp only [List.cons_append, expandAll, ih, List.append_assoc]

theorem Grid.expandAll_append (g : Grid) (tokens more : List Token) :
    g.expandAll (tokens ++ more) =
      (((g.expandAll tokens).1.expandAll more).1,
        (g.expandAll tokens).2 ++ ((g.expandAll tokens).1.expandAll more).2) := by
  induction tokens generalizing g with
  | nil => rfl
  | cons t tokens ih => simp only [List.cons_append, expandAll, ih, List.append_assoc]

/-! ## Both stages -/

theorem Expansion.indented_append (indent : String) (tokens more : List Token) :
    indented indent (tokens ++ more) =
      indented indent tokens ++ indented (tokens.foldl indentAfter indent) more := by
  induction tokens generalizing indent with
  | nil => rfl
  | cons t tokens ih =>
    rw [List.cons_append, indented, indented, ih, List.foldl_cons, List.cons_append]

/-- A run is the grid's run over what comes out of the resource blocks. -/
theorem Options.expand_eq (o : Options) (tokens : List Token) :
    o.expand tokens =
      if o.grid then (Grid.expandAll {} (o.included tokens)).2 else o.included tokens := by
  have hincluded : (Expansion.streams (if o.resources then [.resources none] else [])
      (Expansion.indented "" tokens)).2.map Prod.snd = o.included tokens := by
    unfold included
    split
    · exact (Resource.stream_eq none _).2
    · exact Expansion.indented_tokens "" tokens
  rw [expand, Expansion.run_output, stages, ← hincluded]
  split <;> split
  · exact (Grid.stream_eq {} _).2
  · rfl
  · exact (Grid.stream_eq {} _).2
  · rfl

end GridMarkup
