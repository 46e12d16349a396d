import GridMarkup.Compile
import GridMarkup.Proofs.Grid
import GridMarkup.Proofs.Passes

/-!
# Nesting

Tokens are well nested when every end tag closes the innermost open element and none is left open.
Each stage keeps that. The elements open behind a stage follow from those in front of it: a resource
block hides what it holds, and a row with an implied column stands for two elements.
-/

namespace GridMarkup

open Element (opensElement isVoid)

/-! ## Open elements -/

/-- The elements open behind a token, innermost first. None where an end tag does not close the
innermost one. -/
def nest : List String → Token → Option (List String)
  | names, .startTag tag => some (if opensElement tag then tag.name :: names else names)
  | top :: names, .endTag name => if name = top then some names else none
  | [], .endTag _ => none
  | names, _ => some names

def nestAll (names : List String) : List Token → Option (List String)
  | [] => some names
  | t :: tokens => (nest names t).bind (nestAll · tokens)

def WellNested (tokens : List Token) : Prop := nestAll [] tokens = some []

instance (tokens : List Token) : Decidable (WellNested tokens) :=
  inferInstanceAs (Decidable (_ = _))

/-- The tokens leave the elements open that were open before them. -/
def Neutral (tokens : List Token) : Prop := ∀ names, nestAll names tokens = some names

variable {name : String} {names before after inner : List String} {t : Token} {tag : StartTag}
  {tokens more : List Token} {s : Stage} {b : Resource.Block} {g : Grid} {rows : List Grid.Row}
  {indent : String}

theorem nest_startTag (names : List String) (tag : StartTag) :
    nest names (.startTag tag) =
      some (if opensElement tag then tag.name :: names else names) := by
  cases names <;> rfl

theorem nest_endTag (name : String) (names : List String) :
    nest (name :: names) (.endTag name) = some names := if_pos rfl

theorem eq_cons_of_nest_endTag (h : nest names (.endTag name) = some before) :
    names = name :: before := by
  cases names with
  | nil => cases h
  | cons top names =>
    by_cases heq : name = top
    · rw [← heq, nest_endTag] at h
      rw [heq, Option.some.inj h]
    · have hnone : nest (top :: names) (.endTag name) = none := if_neg heq
      rw [hnone] at h
      cases h

theorem nestAll_singleton (names : List String) (t : Token) : nestAll names [t] = nest names t :=
  Option.bind_fun_some _

theorem nestAll_append (names : List String) (tokens more : List Token) :
    nestAll names (tokens ++ more) = (nestAll names tokens).bind (nestAll · more) := by
  induction tokens generalizing names with
  | nil => rfl
  | cons t tokens ih =>
    rw [List.cons_append, nestAll, nestAll, Option.bind_assoc]
    exact congrArg _ (funext fun between => ih between)

namespace Neutral

theorem nil : Neutral [] := fun _ => rfl

theorem append (h : Neutral tokens) (h' : Neutral more) : Neutral (tokens ++ more) := by
  intro names
  rw [nestAll_append, h names]
  exact h' names

theorem text (content : String) : Neutral [.text content] := by
  rintro ⟨⟩ <;> rfl

theorem comment (content : String) : Neutral [.comment content] := by
  rintro ⟨⟩ <;> rfl

theorem declaration (content : String) : Neutral [.declaration content] := by
  rintro ⟨⟩ <;> rfl

theorem startTag (h : opensElement tag = false) : Neutral [.startTag tag] := by
  intro names
  rw [nestAll_singleton, nest_startTag, if_neg (by rw [h]; decide)]

theorem element (h : opensElement tag = true) : Neutral [.startTag tag, .endTag tag.name] := by
  intro names
  rw [nestAll, nest_startTag, if_pos h, Option.bind_some, nestAll_singleton, nest_endTag]

theorem unchanged (h : Neutral [t]) (hnest : nest names t = some before) : names = before := by
  have hnames := h names
  rw [nestAll_singleton, hnest] at hnames
  exact (Option.some.inj hnames).symm

end Neutral

/-! ## Resource blocks -/

namespace Resource

theorem neutral_include (kind : Kind) (url : String) : Neutral (kind.tokens url) := by
  cases kind with
  | scripts =>
    have hscript : isVoid "script" = false := by decide
    exact .element (by rw [opensElement, hscript]; rfl)
  | stylesheets =>
    have hlink : isVoid "link" = true := by decide
    exact .startTag (by rw [opensElement, hlink]; rfl)

theorem neutral_piece (kind : Kind) (piece : Piece) : Neutral (piece.tokens kind) := by
  cases piece with
  | text s => exact .text _
  | resource url => exact neutral_include kind _

theorem neutral_pieces (kind : Kind) (pieces : List Piece) :
    Neutral (pieces.flatMap (Piece.tokens kind)) := by
  induction pieces with
  | nil => exact .nil
  | cons piece pieces ih => exact (neutral_piece kind piece).append ih

theorem neutral_children (kind : Kind) (indent : List Char) (children : List Child) :
    Neutral (childrenTokens kind indent children) := by
  induction children with
  | nil => exact .nil
  | cons child rest ih =>
    refine .append ?_ ih
    cases child with
    | text s => exact neutral_pieces kind _
    | comment s => exact .comment _

theorem opensElement_of_kind {kind : Kind} (h : Kind.ofTagName? tag.name = some kind) :
    tag.name = kind.tagName ∧ opensElement tag = !tag.selfClosing := by
  have hname : tag.name = kind.tagName := by
    unfold Kind.ofTagName? at h
    split at h
    · next hjs => cases h; exact hjs
    · split at h
      · next hcss => cases h; exact hcss
      · cases h
  have hvoid : isVoid kind.tagName = false := by cases kind <;> decide
  refine ⟨hname, ?_⟩
  rw [opensElement, hname, hvoid, Bool.not_false, Bool.and_true]

/-- The elements open in front of a stage are those behind it and, inside a block, the block and
what is nested in it. -/
def Covers : Option Block → List String → List String → Prop
  | none, before, after => before = after
  | some b, before, after => before = b.nested.names ++ b.kind.tagName :: after

theorem covers_outside (indent : String) (h : nest names t = some before) :
    ∃ after, nestAll names (outside indent t).2.tokens = some after ∧
      Covers (outside indent t).1 before after := by
  unfold outside
  split
  · next tag =>
    rw [nest_startTag] at h
    cases h
    split
    · next kind hkind =>
      obtain ⟨hname, hopens⟩ := opensElement_of_kind hkind
      refine ⟨names, rfl, ?_⟩
      cases hclosing : tag.selfClosing
      · rw [hopens, hclosing, hname]
        exact rfl
      · rw [hopens, hclosing]
        exact rfl
    · exact ⟨_, by rw [nestAll_singleton, nest_startTag], rfl⟩
  · exact ⟨before, by rw [nestAll_singleton, h], rfl⟩

theorem Covers.add {child : Child} (h : Covers (some b) names after) :
    Covers (some (b.add child)) names after := by
  unfold Block.add
  split <;> exact h

theorem close_nested (h : b.nested.names = name :: inner) :
    b.close name = some { b with nested := ⟨inner⟩ } := by
  simp [Block.close, OpenElements.close, OpenElements.contains, h]

theorem close_block (h : b.nested.names = []) : b.close b.kind.tagName = none := by
  simp [Block.close, OpenElements.contains, h]

theorem covers_block (hcovers : Covers (some b) names after) (h : nest names t = some before) :
    ∃ after', nestAll after (b.step t).2.tokens = some after' ∧
      Covers (b.step t).1 before after' := by
  have hnames : names = b.nested.names ++ b.kind.tagName :: after := hcovers
  cases t with
  | startTag tag =>
    rw [nest_startTag] at h
    cases h
    refine ⟨after, rfl, ?_⟩
    change Covers (some (if opensElement tag then { b with nested := b.nested.push tag.name } else b))
      (if opensElement tag then tag.name :: names else names) after
    split
    · exact congrArg (tag.name :: ·) hnames
    · exact hcovers
  | endTag name =>
    rw [eq_cons_of_nest_endTag h] at hnames
    -- The end tag closes the innermost nested element or, without one, the block.
    cases hnested : b.nested.names with
    | nil =>
      rw [hnested, List.nil_append, List.cons.injEq] at hnames
      obtain ⟨rfl, rfl⟩ := hnames
      rw [Block.step, close_block hnested]
      exact ⟨before, neutral_children _ _ _ before, rfl⟩
    | cons top inner =>
      rw [hnested, List.cons_append, List.cons.injEq] at hnames
      obtain ⟨rfl, hbefore⟩ := hnames
      rw [Block.step, close_nested hnested]
      exact ⟨after, rfl, hbefore⟩
  | text content =>
    rw [← (Neutral.text content).unchanged h]
    exact ⟨after, rfl, hcovers.add⟩
  | comment content =>
    rw [← (Neutral.comment content).unchanged h]
    exact ⟨after, rfl, hcovers.add⟩
  | declaration content =>
    rw [← (Neutral.declaration content).unchanged h]
    exact ⟨after, rfl, hcovers⟩

theorem covers_step {block : Option Block} (indent : String) (hcovers : Covers block names after)
    (h : nest names t = some before) :
    ∃ after', nestAll after (step indent block t).2.tokens = some after' ∧
      Covers (step indent block t).1 before after' := by
  cases block with
  | none =>
    cases hcovers
    exact covers_outside indent h
  | some b => exact covers_block hcovers h

end Resource

/-! ## The grid -/

namespace Grid

/-- The elements open in front of the grid, its rows, and the elements open behind it. Outside of
the innermost row no row waits, since an element has been opened in it. -/
inductive Mirrors : List String → List Row → List String → Prop where
  | none : Mirrors [] [] []
  | element {name : String} {before after : List String} {rows : List Row}
      (hname : name ≠ rowName) (hrows : rows.head? ≠ some .waiting)
      (h : Mirrors before rows after) : Mirrors (name :: before) rows (written name :: after)
  | row {row : Row} {before after : List String} {rows : List Row}
      (hrow : row ≠ .implied) (hrows : rows.head? ≠ some .waiting)
      (h : Mirrors before rows after) :
      Mirrors (rowName :: before) (row :: rows) (Grid.element :: after)
  | implied {before after : List String} {rows : List Row}
      (hrows : rows.head? ≠ some .waiting) (h : Mirrors before rows after) :
      Mirrors (rowName :: before) (.implied :: rows) (Grid.element :: Grid.element :: after)

structure Follows (g : Grid) (before after : List String) : Prop where
  mirrors : Mirrors before g.rows after
  held : Neutral g.held

/-! ### What a tag opens and closes -/

theorem opensElement_of_isGrid (h : isGrid tag.name = true) :
    opensElement tag = !tag.selfClosing := by
  rw [opensElement, isVoid_of_isGrid h, Bool.not_false, Bool.and_true]

theorem opensElement_expandTag (tag : StartTag) :
    opensElement (expandTag tag) = (opensElement tag || (tag.selfClosing && isGrid tag.name)) := by
  have helement : isVoid element = false := by decide
  rw [opensElement, expandTag_name, expandTag_selfClosing, written]
  cases hgrid : isGrid tag.name with
  | true =>
    rw [opensElement_of_isGrid hgrid, if_pos rfl, helement]
    cases tag.selfClosing <;> rfl
  | false =>
    rw [opensElement]
    cases tag.selfClosing <;> simp

theorem nest_impliedColumn (names : List String) :
    nest names impliedColumn = some (element :: names) := by
  have hopens : opensElement ⟨element, [⟨"class", some (ClassName.column .md 12).text⟩], false⟩ =
      true := by decide
  rw [impliedColumn, nest_startTag, if_pos hopens]

theorem nest_expandEnd (name : String) (names : List String) :
    nest (written name :: names) (expandEnd name) = some names :=
  nest_endTag (written name) names

theorem neutral_impliedColumn : Neutral [impliedColumn, .endTag element] := by
  intro names
  rw [nestAll, nest_impliedColumn, Option.bind_some, nestAll_singleton, nest_endTag]

/-- What closes a grid tag that closes itself closes just the element that it became. -/
theorem nestAll_closing (names : List String)
    (hclosing : tag.selfClosing = true ∧ isGrid tag.name = true) :
    nestAll (element :: names) (closing tag) = some names := by
  have hend : nestAll (element :: names) [.endTag element] = some names := by
    rw [nestAll_singleton, nest_endTag]
  rw [closing, if_pos hclosing]
  split
  · change nestAll _ ([impliedColumn, .endTag element] ++ [.endTag element]) = _
    rw [nestAll_append, neutral_impliedColumn, Option.bind_some, hend]
  · exact hend

/-- A start tag opens what it becomes, and a grid tag that closes itself opens nothing. -/
theorem nestAll_expandStart (names : List String) (tag : StartTag) :
    nestAll names (expandStart tag) =
      some (if opensElement tag then written tag.name :: names else names) := by
  rw [expandStart, nestAll, nest_startTag, Option.bind_some, opensElement_expandTag,
    expandTag_name]
  by_cases hclosing : tag.selfClosing = true ∧ isGrid tag.name = true
  · have hopens : opensElement tag = false := by rw [opensElement, hclosing.1]; rfl
    rw [hopens, hclosing.1, hclosing.2, written, if_pos hclosing.2]
    exact nestAll_closing names hclosing
  · have hnot : (tag.selfClosing && isGrid tag.name) = false := by
      rw [← Bool.not_eq_true, Bool.and_eq_true]
      exact hclosing
    rw [closing, if_neg hclosing, hnot, Bool.or_false]
    rfl

/-! ### Rows -/

theorem written_rowName : written rowName = element := by decide

/-- A column of its own keeps the innermost row from waiting. -/
theorem Mirrors.fill (h : Mirrors before rows after) :
    Mirrors before (Grid.fill rows) after ∧ (Grid.fill rows).head? ≠ some .waiting := by
  unfold Grid.fill
  split
  · cases h with
    | element hname hrows h => exact absurd rfl hrows
    | row hrow hrows h => exact ⟨.row (by decide) hrows h, by rintro ⟨⟩⟩
  · next hwaiting =>
    refine ⟨h, ?_⟩
    cases rows with
    | nil => rintro ⟨⟩
    | cons row outer =>
      rintro ⟨⟩
      exact hwaiting outer rfl

theorem Follows.settle (h : g.Follows before after) :
    ∃ after', nestAll after g.settle.2.tokens = some after' ∧
      g.settle.1.Follows before after' := by
  obtain ⟨hmirrors, hheld⟩ := h
  unfold Grid.settle
  split
  · next outer hrows =>
    rw [hrows] at hmirrors
    refine ⟨element :: after, ?_, ?_⟩
    · rw [nestAll, nest_impliedColumn, Option.bind_some, hheld]
    · cases hmirrors with
      | element hname hrows h => exact absurd rfl hrows
      | row hrow hrows h => exact ⟨.implied hrows h, .nil⟩
  · exact ⟨after, rfl, hmirrors, hheld⟩

theorem Follows.column (h : g.Follows names after) (hcolumn : isColumn tag.name = true)
    (hnest : nest names (.startTag tag) = some before) :
    ∃ after', nestAll after (g.column tag).2.tokens = some after' ∧
      (g.column tag).1.Follows before after' := by
  obtain ⟨hmirrors, hheld⟩ := h
  have hopens := opensElement_of_isGrid (isGrid_of_isColumn hcolumn)
  rw [nest_startTag, hopens] at hnest
  cases hnest
  refine ⟨if !tag.selfClosing then written tag.name :: after else after, ?_, ?_, .nil⟩
  · change nestAll after (g.held ++ expandStart tag) = _
    rw [nestAll_append, hheld, Option.bind_some, nestAll_expandStart, hopens]
  · change Mirrors _ (if tag.selfClosing then g.rows else Grid.fill g.rows) _
    cases tag.selfClosing with
    | true => exact hmirrors
    | false =>
      obtain ⟨hfill, hhead⟩ := hmirrors.fill
      refine .element ?_ hhead hfill
      intro hname
      rw [hname, isColumn_rowName] at hcolumn
      cases hcolumn

theorem Follows.contentStart (h : g.Follows names after)
    (hnest : nest names (.startTag tag) = some before) :
    ∃ after', nestAll after (g.content (.startTag tag)).2.tokens = some after' ∧
      (g.content (.startTag tag)).1.Follows before after' := by
  obtain ⟨between, hsettle, hmirrors, hheld⟩ := h.settle
  have hhead := settle_not_waiting g
  rw [nest_startTag] at hnest
  cases hnest
  refine ⟨if opensElement tag then written tag.name :: between else between, ?_, ?_, hheld⟩
  · change nestAll after (g.settle.2.tokens ++ expandStart tag) = _
    rw [nestAll_append, hsettle, Option.bind_some, nestAll_expandStart]
  · change Mirrors _ (rowsAfter tag g.settle.1.rows) _
    unfold rowsAfter
    by_cases hrow : tag.name = rowName ∧ ¬ tag.selfClosing
    · have hgrid : isGrid tag.name = true := by rw [hrow.1]; decide
      have hopens : opensElement tag = true := by
        rw [opensElement_of_isGrid hgrid, eq_false_of_ne_true hrow.2]
        rfl
      rw [if_pos hrow, hopens, hrow.1, written_rowName]
      exact .row (by decide) hhead hmirrors
    · rw [if_neg hrow]
      split
      · next hopens =>
        refine .element ?_ hhead hmirrors
        intro hname
        refine hrow ⟨hname, ?_⟩
        intro hself
        rw [opensElement, hself] at hopens
        cases hopens
      · exact hmirrors

theorem Follows.contentEnd (h : g.Follows names after)
    (hnest : nest names (.endTag name) = some before) :
    ∃ after', nestAll after (g.content (.endTag name)).2.tokens = some after' ∧
      (g.content (.endTag name)).1.Follows before after' := by
  obtain ⟨between, hsettle, hmirrors, hheld⟩ := h.settle
  have hhead := settle_not_waiting g
  rw [eq_cons_of_nest_endTag hnest] at hmirrors
  have htokens : nestAll after (g.content (.endTag name)).2.tokens =
      nestAll between (closeColumn name g.settle.1.rows ++ [expandEnd name]) := by
    change nestAll after (g.settle.2.tokens ++ closeColumn name g.settle.1.rows ++
      [expandEnd name]) = _
    rw [List.append_assoc, nestAll_append, hsettle, Option.bind_some]
  rw [htokens]
  suffices hclose : ∃ after',
      nestAll between (closeColumn name g.settle.1.rows ++ [expandEnd name]) = some after' ∧
        Mirrors before (if name = rowName then g.settle.1.rows.drop 1 else g.settle.1.rows)
          after' by
    obtain ⟨after', hafter, hrows⟩ := hclose
    exact ⟨after', hafter, hrows, hheld⟩
  generalize g.settle.1.rows = rows at hmirrors hhead
  -- The end tag closes an element of the row, the row, or the row with its implied column.
  cases hmirrors with
  | @element _ _ after _ hname hrows h =>
    refine ⟨after, ?_, ?_⟩
    · rw [closeColumn, if_neg (fun hr => hname hr.1), List.nil_append, nestAll_singleton,
        nest_expandEnd]
    · rw [if_neg hname]
      exact h
  | @row row _ after rows hrow hrows h =>
    refine ⟨after, ?_, h⟩
    rw [closeColumn, if_neg (fun hr => hrow (Option.some.inj hr.2)), List.nil_append,
      nestAll_singleton, ← written_rowName, nest_expandEnd]
  | @implied _ after rows hrows h =>
    refine ⟨after, ?_, h⟩
    rw [closeColumn, if_pos ⟨rfl, rfl⟩, List.singleton_append, nestAll, nest_endTag,
      Option.bind_some, nestAll_singleton, ← written_rowName, nest_expandEnd]

theorem Follows.contentNeutral (h : g.Follows before after) (ht : Neutral [t])
    (htag : (∀ tag, t ≠ .startTag tag) ∧ ∀ name, t ≠ .endTag name) :
    ∃ after', nestAll after (g.content t).2.tokens = some after' ∧
      (g.content t).1.Follows before after' := by
  obtain ⟨between, hsettle, hfollows⟩ := h.settle
  have hcontent : g.content t =
      (g.settle.1, { g.settle.2 with tokens := g.settle.2.tokens ++ [t] }) := by
    cases t with
    | startTag tag => exact absurd rfl (htag.1 tag)
    | endTag name => exact absurd rfl (htag.2 name)
    | _ => rfl
  rw [hcontent]
  refine ⟨between, ?_, hfollows⟩
  rw [nestAll_append, hsettle, Option.bind_some, ht]

theorem Follows.hold (h : g.Follows before after) (ht : Neutral [t]) :
    (g.hold t).1.Follows before after :=
  ⟨h.mirrors, h.held.append ht⟩

theorem follows_step (h : g.Follows names after) (hnest : nest names t = some before) :
    ∃ after', nestAll after (g.step t).2.tokens = some after' ∧
      (g.step t).1.Follows before after' := by
  cases t with
  | startTag tag =>
    rw [Grid.step]
    split
    · next hcolumn => exact h.column hcolumn hnest
    · exact h.contentStart hnest
  | endTag name => exact h.contentEnd hnest
  | text s =>
    rw [← (Neutral.text s).unchanged hnest]
    rw [Grid.step]
    split
    · exact ⟨after, rfl, h.hold (.text s)⟩
    · exact h.contentNeutral (.text s) ⟨by rintro _ ⟨⟩, by rintro _ ⟨⟩⟩
  | comment s =>
    rw [← (Neutral.comment s).unchanged hnest]
    rw [Grid.step]
    split
    · exact ⟨after, rfl, h.hold (.comment s)⟩
    · exact ⟨after, Neutral.comment s after, h⟩
  | declaration s =>
    rw [← (Neutral.declaration s).unchanged hnest]
    exact h.contentNeutral (.declaration s) ⟨by rintro _ ⟨⟩, by rintro _ ⟨⟩⟩

end Grid

/-! ## All stages -/

/-- The elements open in front of a stage and behind it. -/
def Stage.Follows : Stage → List String → List String → Prop
  | .resources block, before, after => Resource.Covers block before after
  | .grid g, before, after => g.Follows before after
  | .idle, before, after => before = after

theorem Stage.follows_step (indent : String) (h : s.Follows names after)
    (hnest : nest names t = some before) :
    ∃ after', nestAll after (s.step indent t).2.tokens = some after' ∧
      (s.step indent t).1.Follows before after' := by
  cases s with
  | resources block => exact Resource.covers_step indent h hnest
  | grid g => exact Grid.follows_step h hnest
  | idle =>
    cases h
    exact ⟨before, by rw [Stage.step, nestAll_singleton, hnest], rfl⟩

theorem Stage.follows_runs {last : Stage} {sent : List Token} (hruns : s.Runs tokens last sent)
    (h : s.Follows names after) (hnest : nestAll names tokens = some before) :
    ∃ after', nestAll after sent = some after' ∧ last.Follows before after' := by
  induction hruns generalizing names after with
  | nil s =>
    cases hnest
    exact ⟨after, rfl, h⟩
  | cons _ _ ih =>
    rw [nestAll, Option.bind_eq_some_iff] at hnest
    obtain ⟨between, ht, hrest⟩ := hnest
    obtain ⟨middle, hreply, hnext⟩ := Stage.follows_step _ h ht
    obtain ⟨after', hmore, hlast⟩ := ih hnext hrest
    refine ⟨after', ?_, hlast⟩
    rw [nestAll_append, hreply, Option.bind_some]
    exact hmore

theorem Stage.Follows.closed (h : s.Follows [] after) : after = [] := by
  cases s with
  | resources block =>
    cases block with
    | none => exact h.symm
    | some b =>
      have hnames : [] = b.nested.names ++ b.kind.tagName :: after := h
      exact absurd hnames.symm (by simp)
  | grid g =>
    have hmirrors := Grid.Follows.mirrors h
    generalize g.rows = rows at hmirrors
    cases hmirrors
    rfl
  | idle => exact h.symm

theorem Options.follows_stages (o : Options) : ∀ s ∈ o.stages, s.Follows [] [] := by
  intro s hs
  rw [Options.stages, List.mem_append] at hs
  rcases hs with hs | hs
  · split at hs
    · rw [List.mem_singleton.1 hs]
      exact rfl
    · cases hs
  · split at hs
    · rw [List.mem_singleton.1 hs]
      exact ⟨.none, .nil⟩
    · cases hs

/-- A run keeps tokens well nested, whichever stages it has. -/
theorem wellNested_run (o : Options) (tokens : List Token) (h : WellNested tokens) :
    WellNested (Expansion.run { stages := o.stages } tokens).2.output := by
  refine Expansion.run_keeps (List.forall_mem_nil _) ?_ h
  intro s hs tokens last sent hruns hnest
  obtain ⟨after, hafter, hfollows⟩ := Stage.follows_runs hruns (o.follows_stages s hs) hnest
  rw [WellNested, hafter, hfollows.closed]

/-- Rows with a column, with an implied one and closed at once, and a block with an element. -/
def nestedPage : List Token :=
  [.startTag ⟨"r", [], false⟩, .text "\n  ", .startTag ⟨"c4", [⟨"hidden", none⟩], false⟩,
    .startTag ⟨"r", [], false⟩, .comment "held", .startTag ⟨"br", [], false⟩, .endTag "r",
    .startTag ⟨"css", [], false⟩, .text "a.css", .startTag ⟨"p", [], false⟩, .endTag "p",
    .endTag "css", .endTag "c4", .startTag ⟨"r", [], true⟩, .endTag "r"]

theorem wellNested_run_page :
    WellNested nestedPage ∧
      WellNested (Expansion.run { stages := ({} : Options).stages } nestedPage).2.output :=
  ⟨by decide, wellNested_run {} nestedPage (by decide)⟩

end GridMarkup
