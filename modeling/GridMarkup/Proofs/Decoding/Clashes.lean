import GridMarkup.Proofs.Decoding.Rows
import GridMarkup.Proofs.ReadBack

/-!
# Rows that references decide about

The tags of a document stay the same when its references are decoded, unless a row finds a text that
is blank only then, and after it nothing but a column or the end.
-/

namespace GridMarkup

open Text Element

open Scan (scan)

namespace Grid

/-! ## Tokens in a row -/

/-- With references decoded, the token decides nothing about a row that waits. -/
def isHeld : Token → Bool
  | .comment _ => true
  | .text s => blankDecoded s
  | .startTag tag => isColumn tag.name && tag.selfClosing
  | _ => false

/-- The text is blank only with its references decoded. -/
def isBlankDecoded : Token → Bool
  | .text s => blankDecoded s && !blank s
  | _ => false

/-- A column or the end comes before all that decides about a row. -/
def columnFollows : List Token → Bool
  | [] => true
  | t :: tokens => startsColumn t || (isHeld t && columnFollows tokens)

/-- A text that is blank only with its references decoded comes before all that decides about a row,
and so does a column or the end behind it. -/
def clashFollows : List Token → Bool
  | [] => false
  | t :: tokens => (isBlankDecoded t && columnFollows tokens) || (isHeld t && clashFollows tokens)

/-- For some row, content in one spelling is held for a column in the other. -/
def clashes : List Token → Bool
  | [] => false
  | t :: tokens => (startsRow t && clashFollows tokens) || clashes tokens

/-- Other content than columns, in both spellings. -/
def isContent (t : Token) : Bool := !isHeld t && !startsColumn t

variable {t : Token} {tokens : List Token} {rows rows' outer outer' : List Row} {p : String → Bool}
  {tag : StartTag} {n : Nat}

theorem columnFollows_of_clashFollows (h : clashFollows tokens = true) :
    columnFollows tokens = true := by
  induction tokens with
  | nil => cases h
  | cons t tokens ih =>
    rw [clashFollows, Bool.or_eq_true, Bool.and_eq_true, Bool.and_eq_true] at h
    rw [columnFollows, Bool.or_eq_true, Bool.and_eq_true]
    rcases h with ⟨hblank, hcolumn⟩ | ⟨hheld, hclash⟩
    · refine .inr ⟨?_, hcolumn⟩
      cases t with
      | text s =>
        rw [isBlankDecoded, Bool.and_eq_true] at hblank
        exact hblank.1
      | _ => cases hblank
    · exact .inr ⟨hheld, ih hclash⟩

/-! ## Steps by kind of token -/

/-- What content does to settled rows, and the tags that are sent for it. -/
def contentStep (rows : List Row) : Token → List Row × List (Bool × String)
  | .startTag tag => (rowsAfter tag rows, tags (expandStart tag))
  | .endTag name =>
    (if name = rowName then rows.drop 1 else rows,
      tags (closeColumn name rows ++ [expandEnd name]))
  | _ => (rows, [])

/-- A token is quiet in both spellings, blank in one, a column, or content in both. -/
theorem token_cases (t : Token) :
    t.isQuiet blank = true ∨ isBlankDecoded t = true ∨ startsColumn t = true ∨
      isContent t = true := by
  cases t with
  | startTag tag =>
    by_cases hcolumn : isColumn tag.name = true
    · exact .inr (.inr (.inl hcolumn))
    · exact .inr (.inr (.inr (by simp [isContent, isHeld, startsColumn, hcolumn])))
  | endTag name => exact .inr (.inr (.inr rfl))
  | text s =>
    by_cases hblank : blank s = true
    · exact .inl hblank
    · by_cases hdecoded : blankDecoded s = true
      · exact .inr (.inl (by simp [isBlankDecoded, hblank, hdecoded]))
      · exact .inr (.inr (.inr (by simp [isContent, isHeld, startsColumn, hdecoded])))
  | comment s => exact .inl rfl
  | declaration s => exact .inr (.inr (.inr rfl))

theorem isQuiet_decoded (h : t.isQuiet blank = true) : t.isQuiet blankDecoded = true :=
  isQuiet_mono (fun _ => blankDecoded_of_blank) h

theorem stepRows_content (h : isContent t = true) (hp : ∀ s, p s = true → blankDecoded s = true)
    (rows : List Row) :
    stepRows p rows t =
      ((contentStep (settledRows rows) t).1,
        settledTags rows ++ (contentStep (settledRows rows) t).2) := by
  cases t with
  | startTag tag =>
    have hcolumn : ¬ isColumn tag.name = true := by
      intro hcolumn
      simp [isContent, startsColumn, hcolumn] at h
    exact if_neg hcolumn
  | endTag name => rfl
  | text s =>
    have hloud : ¬ p s = true := by
      intro hps
      simp [isContent, isHeld, hp s hps] at h
    rw [stepRows, if_neg hloud]
    simp [contentStep]
  | comment s => cases h
  | declaration s => simp [stepRows, contentStep]

theorem stepRows_blankDecoded (h : isBlankDecoded t = true) (rows : List Row) :
    stepRows blank rows t = (settledRows rows, settledTags rows) ∧
      stepRows blankDecoded rows t = (rows, []) := by
  cases t with
  | text s =>
    rw [isBlankDecoded, Bool.and_eq_true, Bool.not_eq_true'] at h
    exact ⟨if_neg (by rw [h.2]; decide), if_pos h.1⟩
  | _ => cases h

theorem settledRows_settled (h : Settled rows.tail) : Settled (settledRows rows) := by
  cases rows with
  | nil => exact List.forall_mem_nil _
  | cons r outer =>
    have houter : Settled outer := h
    cases r with
    | waiting => exact List.forall_mem_cons.2 ⟨by decide, houter⟩
    | filled => exact List.forall_mem_cons.2 ⟨by decide, houter⟩
    | implied => exact List.forall_mem_cons.2 ⟨by decide, houter⟩

/-- Behind content, only a row that it starts waits. -/
theorem contentStep_rows (h : Settled rows) (hcontent : isContent t = true) :
    Settled (contentStep rows t).1.tail ∧
      ((contentStep rows t).1.head? = some .waiting ↔ startsRow t = true) := by
  have htail : Settled rows.tail := fun r hr => h r (List.mem_of_mem_tail hr)
  have hhead := head?_ne_of_settled h
  cases t with
  | startTag tag =>
    simp only [contentStep, rowsAfter, startsRow, Bool.and_eq_true, beq_iff_eq,
      Bool.not_eq_true', Bool.not_eq_true]
    split
    · next hrow => exact ⟨h, by simp [hrow]⟩
    · next hrow => exact ⟨htail, by simp [hrow, hhead]⟩
  | endTag name =>
    simp only [contentStep, startsRow]
    split
    · have hdrop : Settled (rows.drop 1) := fun r hr => h r (List.mem_of_mem_drop hr)
      refine ⟨fun r hr => hdrop r (List.mem_of_mem_tail hr), ?_⟩
      exact iff_of_false (head?_ne_of_settled hdrop) (by decide)
    · exact ⟨htail, by simp [hhead]⟩
  | _ => exact ⟨htail, by simp [contentStep, startsRow, hhead]⟩

/-! ## Start tags that are sent -/

/-- How many of the tags are start tags. -/
def starts (sent : List (Bool × String)) : Nat := sent.countP Prod.fst

theorem starts_append (sent more : List (Bool × String)) :
    starts (sent ++ more) = starts sent + starts more :=
  List.countP_append

/-- A row that got an implied column in one spelling, and a column of its own in the other. -/
def Over (r r' : Row) : Prop := r' = r ∨ (r = .implied ∧ r' = .filled)

/-- The rows as the tokens are spelled and with references decoded, and how many start tags the
first run is ahead. -/
inductive Covers : List Row → List Row → Nat → Prop where
  | level {rows rows' : List Row} (h : List.Forall₂ Over rows rows') (hrows : Settled rows.tail) :
      Covers rows rows' 0
  | ahead {outer outer' : List Row} (h : List.Forall₂ Over outer outer') (houter : Settled outer) :
      Covers (.implied :: outer) (.waiting :: outer') 1

theorem over_settledRows (h : List.Forall₂ Over rows rows') :
    List.Forall₂ Over (settledRows rows) (settledRows rows') ∧
      settledTags rows' = settledTags rows := by
  cases h with
  | nil => exact ⟨.nil, rfl⟩
  | cons hhead htail =>
    rcases hhead with rfl | ⟨rfl, rfl⟩
    · rename_i r _ _
      cases r with
      | waiting => exact ⟨.cons (.inl rfl) htail, rfl⟩
      | filled => exact ⟨.cons (.inl rfl) htail, rfl⟩
      | implied => exact ⟨.cons (.inl rfl) htail, rfl⟩
    · exact ⟨.cons (.inr ⟨rfl, rfl⟩) htail, rfl⟩

theorem contentStep_covers (h : List.Forall₂ Over rows rows') (hrows : Settled rows)
    (hcontent : isContent t = true) :
    Covers (contentStep rows t).1 (contentStep rows' t).1 0 ∧
      starts (contentStep rows' t).2 = starts (contentStep rows t).2 := by
  have hsettled := (contentStep_rows hrows hcontent).1
  refine ⟨.level ?_ hsettled, ?_⟩
  · cases t with
    | startTag tag =>
      simp only [contentStep, rowsAfter]
      split
      · exact .cons (.inl rfl) h
      · exact h
    | endTag name =>
      simp only [contentStep]
      split
      · exact List.forall₂_drop 1 h
      · exact h
    | _ => exact h
  · cases t with
    | endTag name =>
      have hclose (rows : List Row) :
          starts (tags (closeColumn name rows ++ [expandEnd name])) = 0 := by
        unfold closeColumn
        split <;> rfl
      simp only [contentStep, hclose]
    | _ => rfl

theorem fill_over (h : List.Forall₂ Over rows rows') :
    List.Forall₂ Over (fill rows) (fill rows') := by
  cases h with
  | nil => exact .nil
  | cons hhead htail =>
    rcases hhead with rfl | ⟨rfl, rfl⟩
    · rename_i r _ _
      cases r with
      | waiting => exact .cons (.inl rfl) htail
      | filled => exact .cons (.inl rfl) htail
      | implied => exact .cons (.inl rfl) htail
    · exact .cons (.inr ⟨rfl, rfl⟩) htail

theorem covers_blankDecoded (h : Covers rows rows' n) :
    ∃ m, Covers (settledRows rows) rows' m ∧ m ≤ starts (settledTags rows) + n := by
  cases h with
  | ahead h houter => exact ⟨1, .ahead h houter, Nat.le_refl _⟩
  | level h hrows =>
    by_cases hhead : rows.head? = some .waiting
    · -- The row waits in both runs, and is settled in one.
      obtain ⟨outer, rfl⟩ := List.head?_eq_some_iff.1 hhead
      cases h with
      | cons hover htail =>
        rcases hover with rfl | ⟨himplied, -⟩
        · exact ⟨1, .ahead htail hrows, Nat.le_refl _⟩
        · cases himplied
    · obtain ⟨hsame, -⟩ := settledRows_of_not_waiting hhead
      rw [hsame]
      exact ⟨0, .level h hrows, Nat.zero_le _⟩

theorem covers_column (h : Covers rows rows' n) :
    ∃ m, Covers (fill rows) (fill rows') m ∧ m ≤ n := by
  cases h with
  | level h hrows =>
    refine ⟨0, .level (fill_over h) ?_, Nat.le_refl _⟩
    rw [fill_tail]
    exact hrows
  | ahead h houter => exact ⟨0, .level (.cons (.inr ⟨rfl, rfl⟩) h) houter, Nat.zero_le _⟩

theorem covers_content (h : Covers rows rows' n) (hcontent : isContent t = true) :
    Covers (contentStep (settledRows rows) t).1 (contentStep (settledRows rows') t).1 0 ∧
      starts (settledTags rows' ++ (contentStep (settledRows rows') t).2) ≤
        starts (settledTags rows ++ (contentStep (settledRows rows) t).2) + n := by
  cases h with
  | level h hrows =>
    obtain ⟨hover, htags⟩ := over_settledRows h
    obtain ⟨hcovers, hstarts⟩ := contentStep_covers hover (settledRows_settled hrows) hcontent
    refine ⟨hcovers, ?_⟩
    rw [starts_append, starts_append, htags, hstarts]
    exact Nat.le_refl _
  | @ahead outer outer' h houter =>
    have hsettled : Settled (.implied :: outer) := List.forall_mem_cons.2 ⟨by decide, houter⟩
    obtain ⟨hcovers, hstarts⟩ := contentStep_covers (.cons (.inl rfl) h) hsettled hcontent
    refine ⟨hcovers, ?_⟩
    have hone : starts [(true, element)] = 1 := rfl
    have hnone : starts [] = 0 := rfl
    simp only [settledRows, settledTags, starts_append, hstarts, hone, hnone]
    omega

/-- The first run stays ahead. -/
theorem stepRows_covers (h : Covers rows rows' n) (t : Token) :
    ∃ m, Covers (stepRows blank rows t).1 (stepRows blankDecoded rows' t).1 m ∧
      starts (stepRows blankDecoded rows' t).2 + m ≤ starts (stepRows blank rows t).2 + n := by
  rcases token_cases t with hquiet | hblank | hcolumn | hcontent
  · rw [stepRows_quiet hquiet, stepRows_quiet (isQuiet_decoded hquiet)]
    exact ⟨n, h, Nat.le_refl _⟩
  · rw [(stepRows_blankDecoded hblank rows).1, (stepRows_blankDecoded hblank rows').2]
    obtain ⟨m, hcovers, hle⟩ := covers_blankDecoded h
    exact ⟨m, hcovers, by simpa [starts] using hle⟩
  · cases t with
    | startTag tag =>
      rw [stepRows_column hcolumn, stepRows_column hcolumn]
      by_cases hcloses : tag.selfClosing = true
      · simp only [hcloses, if_true]
        exact ⟨n, h, Nat.le_refl _⟩
      · obtain ⟨m, hcovers, hle⟩ := covers_column h
        simp only [hcloses, Bool.false_eq_true, if_false]
        exact ⟨m, hcovers, Nat.add_le_add_left hle _⟩
    | _ => cases hcolumn
  · rw [stepRows_content hcontent fun _ => blankDecoded_of_blank,
      stepRows_content hcontent fun _ h => h]
    exact ⟨0, covers_content h hcontent⟩

theorem starts_tagsFrom (h : Covers rows rows' n) (tokens : List Token) :
    starts (tagsFrom blankDecoded rows' tokens) ≤ starts (tagsFrom blank rows tokens) + n := by
  induction tokens generalizing rows rows' n with
  | nil => exact Nat.zero_le _
  | cons t tokens ih =>
    obtain ⟨m, hcovers, hle⟩ := stepRows_covers h t
    have hrest := ih hcovers
    rw [tagsFrom, tagsFrom, starts_append, starts_append]
    omega

/-! ## The same tags -/

theorem over_refl (outer : List Row) : List.Forall₂ Over outer outer :=
  List.forall₂_same.2 fun _ _ => .inl rfl

theorem tags_expandStart_column (h : isColumn tag.name = true) :
    tags (expandStart tag) =
      if tag.selfClosing then [(true, element), (false, element)] else [(true, element)] := by
  have hgrid := isGrid_of_isColumn h
  have hrow : tag.name ≠ rowName := by
    rintro hname
    rw [hname] at h
    exact absurd h (by decide)
  rw [tags_expandStart, written, if_pos hgrid, closing]
  by_cases hcloses : tag.selfClosing = true
  · rw [if_pos ⟨hcloses, hgrid⟩, if_neg hrow, if_pos hcloses]
    rfl
  · rw [if_neg fun h => hcloses h.1, if_neg hcloses]
    rfl

/-- A run that is ahead by an implied column sends other tags when a column arrives. -/
theorem ne_of_column (houter : Settled outer) (h : startsColumn t = true) :
    (true, element) :: tagsFrom blank (.implied :: outer) (t :: tokens) ≠
      tagsFrom blankDecoded (.waiting :: outer) (t :: tokens) := by
  cases t with
  | startTag tag =>
    intro heq
    rw [tagsFrom, tagsFrom, stepRows_column h, stepRows_column h, tags_expandStart_column h] at heq
    by_cases hcloses : tag.selfClosing = true
    · -- An end tag stands where the other run has its column.
      simp [hcloses] at heq
    · simp only [hcloses, Bool.false_eq_true, if_false, List.singleton_append, List.cons.injEq,
        true_and] at heq
      have hover : List.Forall₂ Over (.implied :: outer) (.filled :: outer) :=
        .cons (.inr ⟨rfl, rfl⟩) (over_refl outer)
      have hle := starts_tagsFrom (.level hover houter) tokens
      have hstarts := congrArg starts heq
      have hcons (sent : List (Bool × String)) :
          starts ((true, element) :: sent) = starts sent + 1 := List.countP_cons_of_pos rfl
      rw [hcons] at hstarts
      simp only [fill] at hstarts
      omega
  | _ => cases h

theorem facts_of_quiet (h : t.isQuiet blank = true) :
    startsRow t = false ∧ isBlankDecoded t = false ∧ isHeld t = true ∧ startsColumn t = false := by
  cases t with
  | text s =>
    have hblank : blank s = true := h
    exact ⟨rfl, by simp [isBlankDecoded, hblank], blankDecoded_of_blank h, rfl⟩
  | comment s => exact ⟨rfl, rfl, rfl, rfl⟩
  | startTag tag => cases h
  | endTag name => cases h
  | declaration s => cases h

theorem facts_of_blankDecoded (h : isBlankDecoded t = true) :
    startsRow t = false ∧ isHeld t = true ∧ startsColumn t = false := by
  cases t with
  | text s =>
    rw [isBlankDecoded, Bool.and_eq_true] at h
    exact ⟨rfl, h.1, rfl⟩
  | _ => cases h

theorem facts_of_column (h : isColumn tag.name = true) :
    startsRow (.startTag tag) = false ∧ isHeld (.startTag tag) = tag.selfClosing := by
  refine ⟨?_, by simp [isHeld, h]⟩
  by_contra hrow
  rw [Bool.not_eq_false, startsRow, Bool.and_eq_true, beq_iff_eq] at hrow
  rw [hrow.1] at h
  exact absurd h (by decide)

theorem facts_of_content (h : isContent t = true) :
    isBlankDecoded t = false ∧ isHeld t = false ∧ startsColumn t = false := by
  rw [isContent, Bool.and_eq_true, Bool.not_eq_true', Bool.not_eq_true'] at h
  refine ⟨?_, h.1, h.2⟩
  cases t with
  | text s =>
    have hdecoded : blankDecoded s = false := h.1
    simp [isBlankDecoded, hdecoded]
  | _ => rfl

/-- Two runs from the same rows send the same tags, whatever counts as blank. -/
def SameFrom (tokens : List Token) : Prop :=
  ∀ rows, Settled rows.tail →
    (tagsFrom blank rows tokens = tagsFrom blankDecoded rows tokens ↔
      ¬ (clashes tokens = true ∨ rows.head? = some .waiting ∧ clashFollows tokens = true))

/-- The run that is ahead by an implied column has sent the same tags in the end. -/
def AheadFrom (tokens : List Token) : Prop :=
  ∀ outer, Settled outer →
    ((true, element) :: tagsFrom blank (.implied :: outer) tokens =
        tagsFrom blankDecoded (.waiting :: outer) tokens ↔
      ¬ (clashes tokens = true ∨ columnFollows tokens = true))

theorem from_quiet (h : t.isQuiet blank = true) (hsame : SameFrom tokens)
    (hahead : AheadFrom tokens) : SameFrom (t :: tokens) ∧ AheadFrom (t :: tokens) := by
  obtain ⟨hrow, hreference, hheld, hcolumn⟩ := facts_of_quiet h
  simp only [SameFrom, AheadFrom, tagsFrom, stepRows_quiet h, stepRows_quiet (isQuiet_decoded h),
    List.nil_append, clashes, clashFollows, columnFollows, hrow, hreference, hheld, hcolumn,
    Bool.false_and, Bool.true_and, Bool.false_or]
  exact ⟨hsame, hahead⟩

theorem from_blankDecoded (h : isBlankDecoded t = true) (hsame : SameFrom tokens)
    (hahead : AheadFrom tokens) : SameFrom (t :: tokens) ∧ AheadFrom (t :: tokens) := by
  obtain ⟨hrow, hheld, hcolumn⟩ := facts_of_blankDecoded h
  have hclashes : clashes (t :: tokens) = clashes tokens := by
    simp only [clashes, hrow, Bool.false_and, Bool.false_or]
  have hcolumns : columnFollows (t :: tokens) = columnFollows tokens := by
    simp only [columnFollows, hcolumn, hheld, Bool.false_or, Bool.true_and]
  have hclash : clashFollows (t :: tokens) = columnFollows tokens := by
    simp only [clashFollows, h, hheld, Bool.true_and, Bool.or_eq_left_iff_imp]
    exact columnFollows_of_clashFollows
  constructor
  · intro rows hrows
    rw [tagsFrom, tagsFrom, (stepRows_blankDecoded h rows).1, (stepRows_blankDecoded h rows).2,
      hclashes, hclash]
    by_cases hhead : rows.head? = some .waiting
    · -- One run gives the row its implied column here.
      obtain ⟨outer, rfl⟩ := List.head?_eq_some_iff.1 hhead
      simpa [hhead, settledRows, settledTags] using hahead outer hrows
    · obtain ⟨hrest, hnothing⟩ := settledRows_of_not_waiting hhead
      simpa [hhead, hrest, hnothing] using hsame rows hrows
  · intro outer houter
    rw [tagsFrom, tagsFrom, (stepRows_blankDecoded h _).1, (stepRows_blankDecoded h _).2, hclashes,
      hcolumns]
    exact hahead outer houter

theorem from_column (h : startsColumn t = true) (hsame : SameFrom tokens) :
    SameFrom (t :: tokens) ∧ AheadFrom (t :: tokens) := by
  refine ⟨fun rows hrows => ?_, fun outer houter => ?_⟩
  · cases t with
    | startTag tag =>
      obtain ⟨hrow, hheld⟩ := facts_of_column h
      have hclashes : clashes (.startTag tag :: tokens) = clashes tokens := by
        simp only [clashes, hrow, Bool.false_and, Bool.false_or]
      have hclash : clashFollows (.startTag tag :: tokens) =
          (tag.selfClosing && clashFollows tokens) := by
        simp only [clashFollows, isBlankDecoded, hheld, Bool.false_and, Bool.false_or]
      rw [tagsFrom, tagsFrom, stepRows_column h, stepRows_column h, hclashes, hclash,
        List.append_cancel_left_eq]
      by_cases hcloses : tag.selfClosing = true
      · simpa [hcloses] using hsame rows hrows
      · have hfill : (fill rows).head? ≠ some .waiting := by
          cases rows with
          | nil => simp [fill]
          | cons r outer => cases r <;> simp [fill]
        have htail : Settled (fill rows).tail := by
          rw [fill_tail]
          exact hrows
        simpa [hcloses, hfill] using hsame (fill rows) htail
    | _ => cases h
  · refine iff_of_false (ne_of_column houter h) ?_
    simp [columnFollows, h]

theorem from_content (h : isContent t = true) (hsame : SameFrom tokens) :
    SameFrom (t :: tokens) ∧ AheadFrom (t :: tokens) := by
  obtain ⟨hreference, hheld, hcolumn⟩ := facts_of_content h
  have hclash : clashFollows (t :: tokens) = false := by
    simp only [clashFollows, hreference, hheld, Bool.false_and, Bool.or_self]
  have hcolumns : columnFollows (t :: tokens) = false := by
    simp only [columnFollows, hcolumn, hheld, Bool.false_and, Bool.or_self]
  -- Both runs go on from the same rows.
  have hstep (rows : List Row) (hrows : Settled rows) :
      tagsFrom blank (contentStep rows t).1 tokens =
          tagsFrom blankDecoded (contentStep rows t).1 tokens ↔
        ¬ clashes (t :: tokens) = true := by
    obtain ⟨hsettled, hwaits⟩ := contentStep_rows hrows h
    rw [hsame _ hsettled, hwaits, clashes, Bool.or_eq_true, Bool.and_eq_true, or_comm]
  constructor
  · intro rows hrows
    rw [tagsFrom, tagsFrom, stepRows_content h fun _ => blankDecoded_of_blank,
      stepRows_content h fun _ hs => hs, List.append_cancel_left_eq,
      hstep _ (settledRows_settled hrows), hclash]
    simp
  · intro outer houter
    have hsettled : Settled (.implied :: outer) := List.forall_mem_cons.2 ⟨by decide, houter⟩
    rw [tagsFrom, tagsFrom, stepRows_content h fun _ => blankDecoded_of_blank,
      stepRows_content h fun _ hs => hs, hcolumns]
    simp only [settledRows, settledTags, List.nil_append, List.cons_append, List.cons.injEq,
      true_and, List.append_cancel_left_eq, hstep _ hsettled]
    simp

/-- The tags are the same unless the two spellings clash in some row. -/
theorem tagsFrom_eq_iff (tokens : List Token) : SameFrom tokens ∧ AheadFrom tokens := by
  induction tokens with
  | nil => simp [SameFrom, AheadFrom, tagsFrom, clashes, clashFollows, columnFollows]
  | cons t tokens ih =>
    obtain ⟨hsame, hahead⟩ := ih
    rcases token_cases t with hquiet | hblank | hcolumn | hcontent
    · exact from_quiet hquiet hsame hahead
    · exact from_blankDecoded hblank hsame hahead
    · exact from_column hcolumn hsame
    · exact from_content hcontent hsame

end Grid

/-! ## Documents -/

variable {o : Options} {raw decoded tokens : List Token} {decode : Bool} {source : String}

theorem Options.tags_respelled (h : Respelled raw decoded)
    (hlisted : o.listings raw = o.listings decoded) :
    tags (o.expand raw) = tags (o.expand decoded) ↔
      (o.grid = true → Grid.clashes (o.included raw) = false) := by
  have halike := o.alike_included h hlisted
  rw [o.expand_eq, o.expand_eq]
  by_cases hgrid : o.grid = true
  · have hheld : tags ({} : Grid).held = [] := rfl
    obtain ⟨hsame, -⟩ := Grid.tagsFrom_eq_iff (o.included raw)
    rw [if_pos hgrid, if_pos hgrid, Grid.tags_expandAll hheld, Grid.tags_expandAll hheld,
      Grid.tagsFrom_alike halike, hsame [] (List.forall_mem_nil _)]
    simp [hgrid]
  · rw [if_neg hgrid, if_neg hgrid]
    exact iff_of_true halike.tags fun hon => absurd hon hgrid

/-- Decoding the references of a source keeps the tags that are sent, where blocks list as many
addresses either way, unless a row finds a text that is blank only then in front of a column or the
end. -/
theorem tags_decoded (o : Options) (h : readTokens decode source = .ok tokens) :
    ∃ raw decoded, readTokens false source = .ok raw ∧ readTokens true source = .ok decoded ∧
      (o.listings raw = o.listings decoded →
        (tags (o.expand raw) = tags (o.expand decoded) ↔
          (o.grid = true → Grid.clashes (o.included raw) = false))) := by
  have htwice := readTwice_scan source.toList
  rw [readTokens_eq_ok_iff] at h
  generalize hraw : scan false source.toList = first, hdecoded : scan true source.toList = second
    at htwice
  cases htwice with
  | error fault => cases decode <;> simp_all
  | ok hrespelled =>
    exact ⟨_, _, readTokens_eq_ok_iff.2 hraw, readTokens_eq_ok_iff.2 hdecoded,
      Options.tags_respelled hrespelled⟩

/-- A no-break space is content of its row as a reference, and held for the column once decoded; a
line feed parts two addresses only once decoded. -/
theorem decoding_changes_tags :
    (∃ raw decoded, readTokens false "<r>&nbsp;<c>x</c></r>" = .ok raw ∧
      readTokens true "<r>&nbsp;<c>x</c></r>" = .ok decoded ∧
      tags (({} : Options).expand raw) ≠ tags (({} : Options).expand decoded)) ∧
    ∃ raw decoded, readTokens false "<js>a&#10;b</js>" = .ok raw ∧
      readTokens true "<js>a&#10;b</js>" = .ok decoded ∧
      tags (({} : Options).expand raw) ≠ tags (({} : Options).expand decoded) := by
  refine ⟨⟨[.startTag ⟨"r", [], false⟩, .text "&nbsp;", .startTag ⟨"c", [], false⟩, .text "x",
      .endTag "c", .endTag "r"],
    [.startTag ⟨"r", [], false⟩, .text "\u00a0", .startTag ⟨"c", [], false⟩, .text "x",
      .endTag "c", .endTag "r"], ?_, ?_, ?_⟩,
    [.startTag ⟨"js", [], false⟩, .text "a&#10;b", .endTag "js"],
    [.startTag ⟨"js", [], false⟩, .text "a\nb", .endTag "js"], ?_, ?_, ?_⟩ <;> decide +kernel

/-- A reference that is content either way, and one that is blank behind its column. -/
theorem tags_decoded_page :
    ∃ raw decoded,
      readTokens false "<r> &lt;<js>a&amp;b</js></r><r> <c>&nbsp;</c></r>" = .ok raw ∧
      readTokens true "<r> &lt;<js>a&amp;b</js></r><r> <c>&nbsp;</c></r>" = .ok decoded ∧
      raw ≠ decoded ∧ tags (({} : Options).expand raw) = tags (({} : Options).expand decoded) := by
  have hraw : readTokens false "<r> &lt;<js>a&amp;b</js></r><r> <c>&nbsp;</c></r>" =
      .ok [.startTag ⟨"r", [], false⟩, .text " &lt;", .startTag ⟨"js", [], false⟩, .text "a&amp;b",
        .endTag "js", .endTag "r", .startTag ⟨"r", [], false⟩, .text " ",
        .startTag ⟨"c", [], false⟩, .text "&nbsp;", .endTag "c", .endTag "r"] := by
    decide +kernel
  have hdecoded : readTokens true "<r> &lt;<js>a&amp;b</js></r><r> <c>&nbsp;</c></r>" =
      .ok [.startTag ⟨"r", [], false⟩, .text " <", .startTag ⟨"js", [], false⟩, .text "a&b",
        .endTag "js", .endTag "r", .startTag ⟨"r", [], false⟩, .text " ",
        .startTag ⟨"c", [], false⟩, .text "\u00a0", .endTag "c", .endTag "r"] := by
    decide +kernel
  obtain ⟨raw, decoded, hfirst, hsecond, hsame⟩ := tags_decoded {} hraw
  rw [hraw] at hfirst
  rw [hdecoded] at hsecond
  cases hfirst
  cases hsecond
  exact ⟨_, _, hraw, hdecoded, by decide, (hsame (by decide)).2 fun _ => by decide +kernel⟩

end GridMarkup
