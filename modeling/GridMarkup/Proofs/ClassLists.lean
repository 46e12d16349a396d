import GridMarkup.Proofs.Rules
import GridMarkup.Proofs.Vocabulary

/-!
# Class lists

The class list of a start tag that the grid has rewritten: the classes of its attributes and the
words of its own class attribute, in an order that depends on the element. All other attributes stay
as they are, and those that stand for classes are gone.
-/

namespace GridMarkup

open ClassName (Rule classesOf? convert)
open Text

/-! ## What the list consists of -/

/-- The class of a column width. -/
def ClassName.IsWidth (w : String) : Prop :=
  ∃ (s : Screen) (n : Nat), (1 ≤ n ∧ n ≤ 12) ∧ w = "col-" ++ s.text ++ "-" ++ toString n

namespace Grid

/-- The names of all columns. -/
def columnNames : List String := "c" :: (List.range' 1 12).map fun n => "c" ++ toString n

/-- What a column has in front of the classes of its attributes: the width that its name gives, or
the least one if no attribute gives any. -/
inductive WidthList (classes : List String) : String → List String → Prop where
  | numbered {n : Nat} (hn : 1 ≤ n ∧ n ≤ 12) :
      WidthList classes ("c" ++ toString n) ["col-md-" ++ toString n]
  | given (h : ∃ w ∈ classes, ClassName.IsWidth w) : WidthList classes "c" []
  | least (h : ∀ w ∈ classes, ¬ ClassName.IsWidth w) : WidthList classes "c" ["col-md-1"]

/-- The class list of an element, from the classes of its attributes and its own words. -/
inductive ClassList (classes own : List String) : String → List String → Prop where
  | column {name : String} {width : List String} (h : WidthList classes name width) :
      ClassList classes own name (width ++ classes ++ own)
  | named {name : String} (h : name ∈ ["container", "container-fluid", "clearfix"]) :
      ClassList classes own name (own ++ [name] ++ classes)
  | row : ClassList classes own rowName (own ++ ["row"] ++ classes)
  | other {name : String} (h : name ∉ gridNames) : ClassList classes own name (own ++ classes)

/-- The rules for the attributes of an element. -/
def rulesFor (name : String) : List Rule :=
  if name ∈ columnNames then Rule.column else Rule.visibility

/-- The classes that the attributes stand for, in their order. -/
def made (tag : StartTag) : List String :=
  tag.attributes.flatMap fun a =>
    ((classesOf? (rulesFor tag.name) a.name).getD []).map ClassName.text

/-- The attributes that stand for no classes. -/
def kept (tag : StartTag) : List Attribute :=
  tag.attributes.filter fun a => (classesOf? (rulesFor tag.name) a.name).isNone

end Grid

/-- How the grid rewrites a start tag. -/
structure Grid.Rewrites (tag new : StartTag) : Prop where
  name : new.name = if tag.name ∈ gridNames then "div" else tag.name
  selfClosing : new.selfClosing = (tag.selfClosing && decide (tag.name ∉ gridNames))
  classes : ClassList (made tag) tag.classWords tag.name new.classWords
  attributes : if tag.name ∉ gridNames ∧ made tag = [] then new.attributes = kept tag
    else StartTag.Placed (" ".intercalate new.classWords) (kept tag) new.attributes

variable {tag : StartTag} {name : String} {own words : List String} {c : ClassName}
  {classes : List ClassName}

/-! ## Columns -/

namespace ClassName

/-- The character behind the screen of a column's class is a digit. -/
def digitBehind (w : String) : Bool := w.toList[7]?.any Char.isDigit

theorem digitBehind_column (s : Screen) (n : Nat) :
    digitBehind ("col-" ++ s.text ++ "-" ++ toString n) = true := by
  have hdigits : ∀ d ∈ Nat.toDigits 10 n, d.isDigit = true :=
    fun d hd => Nat.isDigit_of_mem_toDigits (by decide) (by decide) hd
  obtain ⟨d, rest, hn⟩ := List.exists_cons_of_ne_nil (Nat.toDigits_ne_nil (n := n) (b := 10))
  have hd : d.isDigit = true := hdigits d (hn ▸ List.mem_cons_self)
  cases s <;> simp [digitBehind, Screen.text, hn, hd]

theorem digitBehind_shift (s : Screen) (p : Shift) (n : Nat) :
    digitBehind ("col-" ++ s.text ++ "-" ++ p.text ++ "-" ++ toString n) = false := by
  cases s <;> cases p <;> simp [digitBehind, Screen.text, Shift.text]

theorem digitBehind_visible (s : Screen) (d : Display) :
    digitBehind ("visible-" ++ s.text ++ "-" ++ d.text) = false := by
  cases s <;> cases d <;> decide

theorem digitBehind_hidden (s : Screen) : digitBehind ("hidden-" ++ s.text) = false := by
  cases s <;> decide

theorem isWidth_iff {w : String} (h : IsWord w) : IsWidth w ↔ digitBehind w = true := by
  constructor
  · rintro ⟨s, n, -, rfl⟩
    exact digitBehind_column s n
  · intro hdigit
    cases h with
    | visible s d => simp [digitBehind_visible] at hdigit
    | hidden s => simp [digitBehind_hidden] at hdigit
    | column s hn => exact ⟨s, _, hn, rfl⟩
    | shift s p hn => rw [digitBehind_shift] at hdigit; cases hdigit

theorem isSize_eq (c : ClassName) : c.isSize = digitBehind c.text := by
  cases c with
  | visible s d => exact (digitBehind_visible s d).symm
  | hidden s => exact (digitBehind_hidden s).symm
  | column s n => exact (digitBehind_column s n).symm
  | shift s p n => exact (digitBehind_shift s p n).symm

/-- A class is a width by its text exactly if it is one by its form. -/
theorem isSize_iff (h : IsWord c.text) : c.isSize = true ↔ IsWidth c.text := by
  rw [isSize_eq, isWidth_iff h]

end ClassName

namespace Grid

theorem isColumn_iff : isColumn name = true ↔ name ∈ columnNames := by
  simp only [isColumn, Bool.or_eq_true, beq_iff_eq, Option.isSome_iff_exists,
    columnWidth?_eq_some_iff, columnNames, List.mem_cons, List.mem_map, List.mem_range'_1]
  refine or_congr_right ⟨?_, ?_⟩
  · rintro ⟨n, hn, rfl⟩
    exact ⟨n, by omega, rfl⟩
  · rintro ⟨n, hn, rfl⟩
    exact ⟨n, by omega, rfl⟩

theorem columnSize_append_ne_nil (name : String) (classes : List ClassName) :
    columnSize name classes ++ classes ≠ [] := by
  unfold columnSize
  split
  · simp
  · split
    · next hsize =>
      rintro hnil
      simp [List.append_eq_nil_iff.1 hnil |>.2] at hsize
    · simp

theorem widthList_iff (h : ∀ c ∈ classes, ClassName.IsWord c.text) :
    WidthList (classes.map ClassName.text) name words ↔
      isColumn name = true ∧ words = (columnSize name classes).map ClassName.text := by
  have hsize : classes.any ClassName.isSize = true ↔
      ∃ w ∈ classes.map ClassName.text, ClassName.IsWidth w := by
    rw [List.any_eq_true]
    constructor
    · rintro ⟨c, hc, hsize⟩
      exact ⟨_, List.mem_map_of_mem hc, (ClassName.isSize_iff (h c hc)).1 hsize⟩
    · rintro ⟨w, hw, hwidth⟩
      obtain ⟨c, hc, rfl⟩ := List.mem_map.1 hw
      exact ⟨c, hc, (ClassName.isSize_iff (h c hc)).2 hwidth⟩
  have hplain : columnWidth? "c" = none := by decide
  constructor
  · rintro (⟨hn⟩ | ⟨hgiven⟩ | ⟨hleast⟩)
    · have hwidth := columnWidth?_eq_some_iff.2 ⟨hn, rfl⟩
      refine ⟨by rw [isColumn, hwidth]; simp, ?_⟩
      rw [columnSize, hwidth]
      rfl
    · refine ⟨rfl, ?_⟩
      rw [columnSize, hplain]
      simp [hsize.2 hgiven]
    · have hnot : ¬ classes.any ClassName.isSize = true := by
        rw [hsize]
        rintro ⟨w, hw, hwidth⟩
        exact hleast w hw hwidth
      refine ⟨rfl, ?_⟩
      rw [columnSize, hplain]
      simp only [hnot]
      rfl
  · rintro ⟨hcolumn, rfl⟩
    cases hwidth : columnWidth? name with
    | some n =>
      obtain ⟨hn, rfl⟩ := columnWidth?_eq_some_iff.1 hwidth
      rw [columnSize, hwidth]
      exact .numbered hn
    | none =>
      have hname : name = "c" := by simpa [isColumn, hwidth] using hcolumn
      rw [hname, columnSize, hplain]
      by_cases hgiven : classes.any ClassName.isSize = true
      · simp only [hgiven]
        exact .given (hsize.1 hgiven)
      · simp only [hgiven]
        exact .least fun w hw hwidth => hgiven (hsize.2 ⟨w, hw, hwidth⟩)

theorem classList_iff (h : ∀ c ∈ classes, ClassName.IsWord c.text) :
    ClassList (classes.map ClassName.text) own name words ↔
      words = if isColumn name = true
        then (columnSize name classes).map ClassName.text ++ classes.map ClassName.text ++ own
        else own ++ ((ownClass? name).toList ++ classes.map ClassName.text) := by
  constructor
  · intro hlist
    cases hlist with
    | column hwidth =>
      obtain ⟨hcolumn, rfl⟩ := (widthList_iff h).1 hwidth
      rw [if_pos hcolumn]
    | named hname =>
      have hown : ∀ name ∈ ["container", "container-fluid", "clearfix"],
          isColumn name = false ∧ ownClass? name = some name := by decide
      obtain ⟨hcolumn, hown⟩ := hown name hname
      simp [hcolumn, hown]
    | row =>
      have hown : ownClass? rowName = some "row" := by decide
      simp [isColumn_rowName, hown]
    | other hname =>
      obtain ⟨-, hcolumn, hown, -⟩ := not_isGrid hname
      simp [hcolumn, hown]
  · rintro rfl
    split
    · next hcolumn => exact .column ((widthList_iff h).2 ⟨hcolumn, rfl⟩)
    · next hcolumn =>
      unfold ownClass?
      split
      · next hname =>
        have hlist : ClassList (classes.map ClassName.text) own name
            (own ++ [name] ++ classes.map ClassName.text) := .named (by simpa using hname)
        simpa using hlist
      · next hname =>
        split
        · next hrow =>
          have hlist : ClassList (classes.map ClassName.text) own rowName
              (own ++ ["row"] ++ classes.map ClassName.text) := .row
          rw [hrow]
          simpa using hlist
        · next hrow =>
          refine .other ?_
          rw [← isGrid_iff, isGrid_of_not_isColumn hcolumn, ownClass?, if_neg hname, if_neg hrow]
          decide

/-! ## Rewriting a start tag -/

theorem rulesFor_eq (name : String) :
    rulesFor name = if isColumn name = true then Rule.column else Rule.visibility := by
  simp only [rulesFor, isColumn_iff]

theorem convert_rulesFor (tag : StartTag) :
    ∃ classes : List ClassName, made tag = classes.map ClassName.text ∧
      (∀ c ∈ classes, ClassName.IsWord c.text) ∧
      convert (rulesFor tag.name) tag.attributes = (classes, kept tag) := by
  refine ⟨_, ?_, ?_, ClassName.convert_eq _ _⟩
  · rw [List.map_flatMap]
    rfl
  · intro c hc
    obtain ⟨a, -, ha⟩ := List.mem_flatMap.1 hc
    cases hclasses : classesOf? (rulesFor tag.name) a.name with
    | none => simp [hclasses] at ha
    | some classes =>
      rw [hclasses] at ha
      obtain ⟨rule, -, hrule⟩ := ClassName.classesOf?_eq_some_iff.1 hclasses
      exact (Rule.means_of_classes? hrule).isWord (List.mem_map_of_mem ha)

/-- A class attribute stands for no classes, so the words of the first one are kept. -/
theorem classWords_kept (tag : StartTag) (name : String) (selfClosing : Bool) :
    (StartTag.mk name (kept tag) selfClosing).classWords = tag.classWords := by
  obtain ⟨classes, -, -, hconvert⟩ := convert_rulesFor tag
  have hkept : kept tag = (convert (rulesFor tag.name) tag.attributes).2 := by rw [hconvert]
  rw [hkept, StartTag.classWords_convert]

/-- A column is never without a class. -/
theorem expandTag_of_isColumn {classes : List ClassName} (h : isColumn tag.name = true)
    (hconvert : convert (rulesFor tag.name) tag.attributes = (classes, kept tag)) :
    expandTag tag = StartTag.withClasses ⟨element, kept tag, false⟩
      ((columnSize tag.name classes ++ classes).map ClassName.text ++ tag.classWords) := by
  rw [rulesFor_eq, if_pos h] at hconvert
  have hne : ((columnSize tag.name classes ++ classes).map ClassName.text).isEmpty = false := by
    rw [List.isEmpty_eq_false_iff, Ne, List.map_eq_nil_iff]
    exact columnSize_append_ne_nil tag.name classes
  rw [expandTag, if_pos h, expandColumn, hconvert]
  simp only [StartTag.prependClasses, hne, classWords_kept]
  rfl

theorem expandVisibility_eq (tag : StartTag) :
    expandVisibility tag =
      ({ tag with attributes := (convert Rule.visibility tag.attributes).2 } : StartTag).appendClasses
        ((convert Rule.visibility tag.attributes).1.map ClassName.text) :=
  rfl

/-- A class that was added before the attributes are converted stands in front of theirs. -/
theorem expandVisibility_appendClasses (tag : StartTag) (h : ∀ w ∈ words, OneWord w) :
    expandVisibility (tag.appendClasses words) =
      ({ tag with attributes := (convert Rule.visibility tag.attributes).2 } : StartTag).appendClasses
        (words ++ (convert Rule.visibility tag.attributes).1.map ClassName.text) := by
  rw [← StartTag.appendClasses_append _ h, expandVisibility_eq]
  by_cases hwords : words = []
  · simp [hwords, StartTag.appendClasses]
  · have hwords : words.isEmpty = false := by simpa using hwords
    have hkept : ({ tag with attributes := (convert Rule.visibility tag.attributes).2 } :
        StartTag).classWords = tag.classWords := tag.classWords_convert _ _ _
    simp [StartTag.appendClasses, hwords, StartTag.withClasses, ClassName.convert_setClass, hkept]

theorem expandTag_of_not_isColumn {classes : List ClassName} (h : ¬ isColumn tag.name = true)
    (hconvert : convert (rulesFor tag.name) tag.attributes = (classes, kept tag)) :
    expandTag tag =
      (StartTag.mk (written tag.name) (kept tag) (tag.selfClosing && !isGrid tag.name)).appendClasses
        ((ownClass? tag.name).toList ++ classes.map ClassName.text) := by
  rw [rulesFor_eq, if_neg h] at hconvert
  rw [expandTag, if_neg h, written, isGrid_of_not_isColumn h]
  cases hown : ownClass? tag.name with
  | none => simp [expandVisibility_eq, hconvert]
  | some own =>
    have hword : ∀ w ∈ [own], OneWord w := List.forall_mem_singleton.2 (oneWord_ownClass hown)
    simp [expandVisibility_appendClasses _ hword, hconvert]

/-- The class list of an element that was rewritten, and what becomes of its attributes. -/
theorem rewritten (tag : StartTag) :
    ClassList (made tag) tag.classWords tag.name (expandTag tag).classWords ∧
      if tag.name ∉ gridNames ∧ made tag = [] then (expandTag tag).attributes = kept tag
      else (expandTag tag).attributes =
        StartTag.setClass (" ".intercalate (expandTag tag).classWords) (kept tag) := by
  obtain ⟨classes, hmade, hclasses, hconvert⟩ := convert_rulesFor tag
  rw [hmade, classList_iff hclasses]
  by_cases hcolumn : isColumn tag.name = true
  · have hall : ∀ w ∈ (columnSize tag.name classes ++ classes).map ClassName.text ++ tag.classWords,
        OneWord w :=
      List.forall_mem_append.2 ⟨ClassName.oneWord_texts _, tag.oneWord_classWords⟩
    have hgrid : tag.name ∈ gridNames := isGrid_iff.1 (isGrid_of_isColumn hcolumn)
    rw [expandTag_of_isColumn hcolumn hconvert, StartTag.classWords_withClasses _ hall, if_pos hcolumn,
      if_neg (fun h => h.1 hgrid), List.map_append]
    exact ⟨rfl, rfl⟩
  · have hgrid : tag.name ∈ gridNames ↔ (ownClass? tag.name).isSome = true := by
      rw [← isGrid_iff, isGrid_of_not_isColumn hcolumn]
    have hadded : ∀ w ∈ (ownClass? tag.name).toList ++ classes.map ClassName.text, OneWord w :=
      List.forall_mem_append.2
        ⟨fun w hw => oneWord_ownClass (Option.mem_toList.1 hw), ClassName.oneWord_texts classes⟩
    rw [expandTag_of_not_isColumn hcolumn hconvert, if_neg hcolumn,
      StartTag.classWords_appendClasses _ hadded, StartTag.attributes_appendClasses, classWords_kept]
    refine ⟨rfl, ?_⟩
    have hnone : tag.name ∉ gridNames ∧ classes.map ClassName.text = [] ↔
        (ownClass? tag.name).toList ++ classes.map ClassName.text = [] := by
      simp [hgrid]
    simp only [hnone]
    split <;> rfl

theorem rewrites_expandTag (tag : StartTag) : Rewrites tag (expandTag tag) := by
  obtain ⟨hwords, hattributes⟩ := rewritten tag
  refine ⟨?_, ?_, hwords, ?_⟩
  · simp only [expandTag_name, written, isGrid_iff, element]
  · simp [expandTag_selfClosing, ← isGrid_iff]
  · split
    · next h => rwa [if_pos h] at hattributes
    · next h =>
      rw [if_neg h] at hattributes
      rw [hattributes]
      exact StartTag.placed_setClass _ _

theorem Rewrites.unique {new other : StartTag} (h : Rewrites tag new) (h' : Rewrites tag other) :
    new = other := by
  obtain ⟨classes, hmade, hclasses, -⟩ := convert_rulesFor tag
  have hwords : new.classWords = other.classWords := by
    have hnew := h.classes
    have hother := h'.classes
    rw [hmade, classList_iff hclasses] at hnew hother
    rw [hnew, hother]
  have hattributes : new.attributes = other.attributes := by
    have hnew := h.attributes
    have hother := h'.attributes
    split at hnew
    · next hplain =>
      rw [if_pos hplain] at hother
      rw [hnew, hother]
    · next hplain =>
      rw [if_neg hplain] at hother
      rw [hnew.eq, hother.eq, hwords]
  have hname : new.name = other.name := h.name.trans h'.name.symm
  have hclosing : new.selfClosing = other.selfClosing := h.selfClosing.trans h'.selfClosing.symm
  cases new
  cases other
  rw [StartTag.mk.injEq]
  exact ⟨hname, hattributes, hclosing⟩

/-- A start tag is rewritten in exactly one way: its class list is that of its element, and nothing
else of it changes but the name and the ending of a grid element. What the grid sends in front of it
is an implied column and what was held. -/
theorem step_rewrites (g : Grid) (tag : StartTag) :
    ∃ (before : List Token) (new : StartTag),
      (g.step (.startTag tag)).2.tokens = before ++ .startTag new :: closing tag ∧
      (∀ t ∈ before, t = impliedColumn ∨ t ∈ g.held) ∧
      ∀ other, Rewrites tag other ↔ other = new := by
  have hexactly : ∀ other, Rewrites tag other ↔ other = expandTag tag := fun other =>
    ⟨fun h => h.unique (rewrites_expandTag tag), fun h => h ▸ rewrites_expandTag tag⟩
  rw [Grid.step]
  split
  · exact ⟨g.held, expandTag tag, rfl, fun t ht => .inr ht, hexactly⟩
  · exact ⟨g.settle.2.tokens, expandTag tag, rfl,
      (settle_forall (.inl rfl) fun t ht => .inr ht).2, hexactly⟩

-- The first class attribute takes the classes, a list without a class leaves none, and the second
-- class attribute stays.
example :
    expandTag ⟨"c", [⟨"md8", none⟩, ⟨"class", none⟩, ⟨"size:xs99", none⟩, ⟨"class", some "b"⟩], false⟩ =
      ⟨"div", [⟨"class", some "col-md-8"⟩, ⟨"class", some "b"⟩], false⟩ := by
  decide +kernel

end Grid

end GridMarkup
