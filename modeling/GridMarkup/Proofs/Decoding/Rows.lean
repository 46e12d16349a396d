import GridMarkup.Proofs.Decoding.Blocks
import GridMarkup.Proofs.Joined
import GridMarkup.Proofs.Rows

/-!
# Rows with references decoded

A row that waits for a column takes a text that is not blank for its content. A text that is blank
only when its references are decoded is content in one spelling and held in the other. That shows in
the tags if nothing else decides about the row before a column arrives or the source ends.
-/

namespace GridMarkup

open Text Element

/-- The text consists of blanks once its references are decoded. -/
def Text.blankDecoded (s : String) : Bool := blank (decodeString s)

theorem tag?_of_quiet {t : Token} {blank : String → Bool} (h : t.isQuiet blank = true) :
    t.tag? = none := by
  cases t with
  | startTag tag => cases h
  | endTag name => cases h
  | _ => rfl

namespace Grid

/-! ## Tags without texts -/

/-- The rows behind content that is no column. -/
def settledRows : List Row → List Row
  | .waiting :: outer => .implied :: outer
  | rows => rows

def settledTags : List Row → List (Bool × String)
  | .waiting :: _ => [(true, element)]
  | _ => []

/-- What a token does to the open rows, and the tags that are sent for it, where it is given which
texts count as blank. -/
def stepRows (blank : String → Bool) (rows : List Row) : Token → List Row × List (Bool × String)
  | .startTag tag =>
    if isColumn tag.name then
      (if tag.selfClosing then rows else fill rows, tags (expandStart tag))
    else (rowsAfter tag (settledRows rows), settledTags rows ++ tags (expandStart tag))
  | .endTag name =>
    (if name = rowName then (settledRows rows).drop 1 else settledRows rows,
      settledTags rows ++ tags (closeColumn name (settledRows rows) ++ [expandEnd name]))
  | .text s => if blank s then (rows, []) else (settledRows rows, settledTags rows)
  | .comment _ => (rows, [])
  | .declaration _ => (settledRows rows, settledTags rows)

/-- The tags that are sent for tokens. -/
def tagsFrom (blank : String → Bool) (rows : List Row) : List Token → List (Bool × String)
  | [] => []
  | t :: tokens =>
    (stepRows blank rows t).2 ++ tagsFrom blank (stepRows blank rows t).1 tokens

variable {g : Grid} {t : Token} {tokens raw decoded : List Token} {rows outer : List Row}
  {p q : String → Bool} {tag : StartTag}

theorem settle_tags (hheld : tags g.held = []) :
    g.settle.1.rows = settledRows g.rows ∧ tags g.settle.1.held = [] ∧
      tags g.settle.2.tokens = settledTags g.rows := by
  unfold Grid.settle
  split
  · next outer hrows =>
    have himplied : tags (impliedColumn :: g.held) = (true, element) :: tags g.held := rfl
    rw [hrows]
    refine ⟨rfl, rfl, ?_⟩
    simp only [himplied, hheld, settledTags]
  · next hrows =>
    unfold settledRows settledTags
    split
    · next outer heq => exact absurd heq (hrows outer)
    · exact ⟨rfl, hheld, rfl⟩

theorem settledRows_of_not_waiting (h : rows.head? ≠ some .waiting) :
    settledRows rows = rows ∧ settledTags rows = [] := by
  unfold settledRows settledTags
  split
  · exact absurd rfl h
  · exact ⟨rfl, rfl⟩

theorem stepRows_quiet (h : t.isQuiet p = true) (rows : List Row) :
    stepRows p rows t = (rows, []) := by
  cases t with
  | text s => exact if_pos h
  | comment s => rfl
  | startTag tag => cases h
  | endTag name => cases h
  | declaration s => cases h

theorem stepRows_column (h : isColumn tag.name = true) (p : String → Bool) (rows : List Row) :
    stepRows p rows (.startTag tag) =
      (if tag.selfClosing then rows else fill rows, tags (expandStart tag)) :=
  if_pos h

theorem tags_quiet (h : t.isQuiet p = true) : tags [t] = [] := by
  rw [tags, List.filterMap_cons, tag?_of_quiet h]
  rfl

/-- Content settles the rows, and its own tags follow. Quiet tokens do the same where no row waits. -/
theorem stepRows_settles (h : ¬ (rows.head? = some .waiting ∧ t.isQuiet p = true))
    (hcolumn : startsColumn t = false) :
    stepRows p rows t =
      (rowsBehind (settledRows rows) t,
        settledTags rows ++ tags (columnEnd (settledRows rows) t ++ expand t)) := by
  cases t with
  | startTag tag => exact if_neg (Bool.not_eq_true _ ▸ hcolumn)
  | endTag name => rfl
  | text s =>
    by_cases hquiet : p s = true
    · obtain ⟨hsame, hnothing⟩ := settledRows_of_not_waiting fun hwaiting => h ⟨hwaiting, hquiet⟩
      rw [stepRows, if_pos hquiet, hsame, hnothing]
      rfl
    · rw [stepRows, if_neg hquiet]
      exact congrArg (_, ·) (List.append_nil _).symm
  | comment s =>
    obtain ⟨hsame, hnothing⟩ := settledRows_of_not_waiting fun hwaiting => h ⟨hwaiting, rfl⟩
    rw [hsame, hnothing]
    rfl
  | declaration s => exact congrArg (_, ·) (List.append_nil _).symm

/-- The grid sends the tags that its rows and the tokens decide. It holds none. -/
theorem step_tags (hheld : tags g.held = []) (t : Token) :
    (g.step t).1.rows = (stepRows blank g.rows t).1 ∧ tags (g.step t).1.held = [] ∧
      tags (g.step t).2.tokens = (stepRows blank g.rows t).2 := by
  rcases step_cases g t with ⟨-, hquiet, hstep⟩ | ⟨tag, rfl, hcolumn, hstep⟩ |
      ⟨hloud, hcolumn, hstep⟩
  · rw [hstep, stepRows_quiet hquiet, Grid.hold, tags_append, hheld, tags_quiet hquiet]
    exact ⟨rfl, rfl, rfl⟩
  · rw [hstep, stepRows_column hcolumn, Grid.column, tags_append, hheld]
    exact ⟨rfl, rfl, rfl⟩
  · rw [isWaiting_iff] at hloud
    obtain ⟨hrows, hnone, hsent⟩ := settle_tags hheld
    rw [hstep, content_eq, stepRows_settles hloud hcolumn, ← hrows, ← hsent, ← tags_append]
    exact ⟨rfl, hnone, rfl⟩

theorem tags_expandAll (hheld : tags g.held = []) (tokens : List Token) :
    tags (g.expandAll tokens).2 = tagsFrom blank g.rows tokens := by
  induction tokens generalizing g with
  | nil => rfl
  | cons t tokens ih =>
    obtain ⟨hrows, hnone, hsent⟩ := step_tags hheld t
    simp only [Grid.expandAll, tags_append, tagsFrom, hsent, ih hnone, hrows]

/-! ## Alike tokens -/

theorem tags_expandStart (tag : StartTag) :
    tags (expandStart tag) = (true, written tag.name) :: tags (closing tag) := by
  rw [expandStart, tags, List.filterMap_cons, ← tags, Token.tag?, expandTag_name]

/-- Only the name of a start tag counts, and whether it closes itself. -/
theorem stepRows_startTag {tag' : StartTag} (hname : tag'.name = tag.name)
    (hcloses : tag'.selfClosing = tag.selfClosing) (rows : List Row) :
    stepRows q rows (.startTag tag') = stepRows p rows (.startTag tag) := by
  have hclosing : closing tag' = closing tag := by
    unfold closing
    rw [hname, hcloses]
  have hrows (rows : List Row) : rowsAfter tag' rows = rowsAfter tag rows := by
    unfold rowsAfter
    rw [hname, hcloses]
  simp only [stepRows, tags_expandStart, hname, hcloses, hclosing, hrows]

/-- Behind the start tag of a raw text element, no row waits. -/
theorem stepRows_rawText (hopens : opensRawText tag = true) (s : String) (rows : List Row) :
    stepRows q (stepRows p rows (.startTag tag)).1 (.text s) =
      ((stepRows p rows (.startTag tag)).1, []) := by
  have hraw : isRawText tag.name = true := by
    rw [opensRawText, Bool.and_eq_true] at hopens
    exact hopens.2
  have hcolumn : isColumn tag.name = false := by
    have hgrid := isGrid_of_isRawText hraw
    rw [isGrid, Bool.or_eq_false_iff] at hgrid
    exact hgrid.1
  have hrows : (stepRows p rows (.startTag tag)).1 = settledRows rows := by
    rw [stepRows, hcolumn]
    exact if_neg fun hrow => ne_rowName_of_isRawText hraw hrow.1
  have hsettled : (settledRows rows).head? ≠ some .waiting := by
    unfold settledRows
    split
    · simp
    · next hrows =>
      intro hhead
      obtain ⟨outer, rfl⟩ := List.head?_eq_some_iff.1 hhead
      exact hrows outer rfl
  obtain ⟨hsame, hnothing⟩ := settledRows_of_not_waiting hsettled
  rw [hrows, stepRows, hsame, hnothing]
  split <;> rfl

theorem decode_of_allBlank {s : List Char} (h : AllBlank s) : decode s = s := by
  induction s with
  | nil => exact decode_nil
  | cons c s ih =>
    obtain ⟨hc, hs⟩ := List.forall_mem_cons.1 h
    have hne : c ≠ '&' := by
      rintro rfl
      exact absurd hc (by decide)
    rw [decode_cons_of_ne hne, ih hs]

theorem blankDecoded_of_blank {s : String} (h : blank s = true) : blankDecoded s = true := by
  have hsame : decodeString s = s := by
    rw [decodeString, decode_of_allBlank (List.all_eq_true.1 h), String.ofList_toList]
  rw [blankDecoded, hsame, h]

theorem isQuiet_mono (hpq : ∀ s, p s = true → q s = true) (h : t.isQuiet p = true) :
    t.isQuiet q = true := by
  cases t with
  | text s => exact hpq s h
  | comment s => rfl
  | startTag tag => cases h
  | endTag name => cases h
  | declaration s => cases h

/-- With references decoded, the grid sends the tags that it would send for the tokens as they are
spelled, if texts counted as blank that are blank when decoded. -/
theorem tagsFrom_alike (h : Alike raw decoded) (rows : List Row) :
    tagsFrom blank rows decoded = tagsFrom blankDecoded rows raw := by
  induction h generalizing rows with
  | nil => rfl
  | startTag hname hcloses _ ih =>
    rw [tagsFrom, tagsFrom, stepRows_startTag (p := blankDecoded) hname hcloses, ih]
  | rawText s hname hcloses hopens _ ih =>
    simp only [tagsFrom, stepRows_startTag (p := blankDecoded) (q := blank) hname hcloses,
      stepRows_rawText hopens, ih]
  | endTag name _ ih =>
    rw [tagsFrom, ih]
    rfl
  | text s _ ih =>
    rw [tagsFrom, ih]
    rfl
  | declaration s _ ih =>
    rw [tagsFrom, ih]
    rfl
  | quiet ht _ ih =>
    rw [ih, tagsFrom, stepRows_quiet (isQuiet_mono (fun _ => blankDecoded_of_blank) ht)]
    rfl
  | quietDecoded ht _ ih =>
    rw [tagsFrom, stepRows_quiet ht, ← ih]
    rfl

end Grid

theorem Alike.tags {raw decoded : List Token} (h : Alike raw decoded) :
    tags raw = tags decoded := by
  unfold GridMarkup.tags
  induction h with
  | nil => rfl
  | startTag hname _ _ ih => simp [Token.tag?, hname, ih]
  | rawText s hname _ _ _ ih =>
    have htext : (Token.text s).tag? = none := rfl
    simp [List.filterMap_cons_none htext, Token.tag?, hname, ih]
  | endTag name _ ih => simp [Token.tag?, ih]
  | text s _ ih => exact ih
  | declaration s _ ih => exact ih
  | quiet ht _ ih => rw [List.filterMap_cons_none (tag?_of_quiet ht), ih]
  | quietDecoded ht _ ih => rw [List.filterMap_cons_none (tag?_of_quiet ht), ih]

end GridMarkup
