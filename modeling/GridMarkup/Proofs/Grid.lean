import GridMarkup.Element
import GridMarkup.Grid
import GridMarkup.Proofs.Classes
import GridMarkup.Proofs.Rules

/-!
# The grid

A grid element is written as a `div`, and every other element keeps its name. No grid element is
void or holds raw text. Once the grid is settled, its innermost row does not wait.
-/

namespace GridMarkup

variable {name : String} {n : Nat} {g : Grid}

/-! ## Quiet tokens -/

/-- The text consists of blanks, as it is spelled. -/
def Text.blank (s : String) : Bool := s.toList.all isBlank

/-- A comment or a blank text: no content to a row. -/
def Token.isQuiet (blank : String → Bool) : Token → Bool
  | .comment _ => true
  | .text s => blank s
  | _ => false

namespace Grid

/-! ## Names -/

/-- The name under which an element is written. -/
def written (name : String) : String := if isGrid name then element else name

theorem columnWidth?_eq_some_iff :
    columnWidth? name = some n ↔ (1 ≤ n ∧ n ≤ 12) ∧ name = "c" ++ toString n := by
  simp only [columnWidth?, Option.bind_eq_some_iff, Text.strip?_eq_some_iff,
    ClassName.width?_eq_some_iff, ← String.toList_inj, String.toList_append]
  constructor
  · rintro ⟨rest, hname, hn, rfl⟩
    exact ⟨hn, hname⟩
  · rintro ⟨hn, hname⟩
    exact ⟨_, hname, hn, rfl⟩

/-- The names of all grid elements. -/
def gridNames : List String :=
  ["container", "container-fluid", "clearfix", rowName, "c"] ++
    (List.range 12).map fun n => String.ofList ('c' :: Nat.toDigits 10 (n + 1))

theorem isGrid_iff : isGrid name = true ↔ name ∈ gridNames := by
  have hgrid : ∀ name ∈ gridNames, isGrid name = true := by decide
  refine ⟨?_, hgrid name⟩
  intro h
  rw [isGrid, isColumn, Bool.or_eq_true, Bool.or_eq_true, beq_iff_eq] at h
  rcases h with (rfl | hcolumn) | hown
  · decide
  · obtain ⟨n, hn⟩ := Option.isSome_iff_exists.1 hcolumn
    obtain ⟨hrange, rfl⟩ := columnWidth?_eq_some_iff.1 hn
    obtain ⟨m, rfl⟩ : ∃ m, n = m + 1 := ⟨n - 1, by omega⟩
    refine List.mem_append_right _ (List.mem_map.2 ⟨m, List.mem_range.2 (by omega), ?_⟩)
    rw [← String.toList_inj]
    simp
  · unfold ownClass? at hown
    split at hown
    · next h => rcases h with rfl | rfl | rfl <;> decide
    · split at hown
      · next h =>
        rw [h]
        decide
      · cases hown

theorem oneWord_ownClass {own : String} (h : ownClass? name = some own) :
    Text.OneWord own := by
  unfold ownClass? at h
  split at h
  · next hname =>
    cases h
    rcases hname with rfl | rfl | rfl <;> decide
  · split at h
    · cases h
      decide
    · cases h

theorem isColumn_rowName : isColumn rowName = false := by decide

theorem isGrid_of_isColumn (h : isColumn name = true) : isGrid name = true := by
  rw [isGrid, h, Bool.true_or]

theorem isVoid_of_isGrid (h : isGrid name = true) : Element.isVoid name = false := by
  have hvoid : ∀ name ∈ gridNames, Element.isVoid name = false := by decide
  exact hvoid name (isGrid_iff.1 h)

theorem isRawText_of_isGrid (h : isGrid name = true) : Element.isRawText name = false := by
  have hraw : ∀ name ∈ gridNames, Element.isRawText name = false := by decide
  exact hraw name (isGrid_iff.1 h)

theorem isGrid_of_isRawText (h : Element.isRawText name = true) : isGrid name = false := by
  rw [← Bool.not_eq_true]
  intro hgrid
  rw [isRawText_of_isGrid hgrid] at h
  cases h

theorem ne_rowName_of_isRawText (h : Element.isRawText name = true) : name ≠ rowName := by
  rintro rfl
  exact absurd h (by decide)

/-! ## Start tags -/

theorem isGrid_of_not_isColumn (hcolumn : ¬ isColumn name = true) :
    isGrid name = (ownClass? name).isSome := by
  rw [isGrid, eq_false_of_ne_true hcolumn, Bool.false_or]

theorem expandVisibility_name (tag : StartTag) : (expandVisibility tag).name = tag.name := by
  simp [expandVisibility]

theorem expandVisibility_selfClosing (tag : StartTag) :
    (expandVisibility tag).selfClosing = tag.selfClosing := by
  simp [expandVisibility]

theorem expandTag_name (tag : StartTag) : (expandTag tag).name = written tag.name := by
  unfold expandTag
  split
  · next hcolumn =>
    rw [written, if_pos (isGrid_of_isColumn hcolumn)]
    simp [expandColumn]
  · next hcolumn =>
    rw [written, isGrid_of_not_isColumn hcolumn]
    split
    · next hown => simp [hown, expandVisibility_name]
    · next own hown => simp [hown, expandVisibility_name]

theorem expandTag_selfClosing (tag : StartTag) :
    (expandTag tag).selfClosing = (tag.selfClosing && !isGrid tag.name) := by
  unfold expandTag
  split
  · next hcolumn =>
    rw [isGrid_of_isColumn hcolumn]
    simp [expandColumn]
  · next hcolumn =>
    rw [isGrid_of_not_isColumn hcolumn]
    split
    · next hown => simp [hown, expandVisibility_selfClosing]
    · next own hown => simp [hown, expandVisibility_selfClosing]

/-! ## Kinds of tokens -/

def startsColumn : Token → Bool
  | .startTag tag => isColumn tag.name
  | _ => false

def startsRow : Token → Bool
  | .startTag tag => tag.name == rowName && !tag.selfClosing
  | _ => false

/-! ## Settling -/

/-- No row waits. -/
def Settled (rows : List Row) : Prop := ∀ r ∈ rows, r ≠ .waiting

theorem head?_ne_of_settled {rows : List Row} (h : Settled rows) : rows.head? ≠ some .waiting := by
  intro hhead
  exact h _ (List.mem_of_head? hhead) rfl

theorem fill_tail (rows : List Row) : (fill rows).tail = rows.tail := by
  unfold fill
  split <;> rfl

theorem settle_not_waiting (g : Grid) : g.settle.1.rows.head? ≠ some .waiting := by
  unfold Grid.settle
  split
  · rintro ⟨⟩
  · next hwaiting =>
    intro hhead
    cases hrows : g.rows with
    | nil => rw [hrows] at hhead; cases hhead
    | cons row outer =>
      rw [hrows] at hhead
      cases hhead
      exact hwaiting outer hrows

theorem settle_of_not_waiting (h : g.rows.head? ≠ some .waiting) : g.settle = (g, {}) := by
  unfold Grid.settle
  split
  · next outer hrows =>
    rw [hrows] at h
    exact absurd rfl h
  · rfl

end Grid

end GridMarkup
