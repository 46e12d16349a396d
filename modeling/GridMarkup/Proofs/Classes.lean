import GridMarkup.ClassName.Rule
import GridMarkup.Proofs.Search
import GridMarkup.Token.Classes

/-!
# Classes

A class list is written with a blank between two words, and its words are read back. Classes are
written into the first class attribute, and no attribute of that name stands for classes itself. So
it does not matter whether classes are added before or after the other attributes are converted.
-/

namespace GridMarkup

open ClassName (Rule classesOf? convert)
open Text

/-- The text is one word. -/
def Text.OneWord (w : String) : Prop := w ≠ "" ∧ ∀ c ∈ w.toList, isBlank c = false

instance (w : String) : Decidable (Text.OneWord w) :=
  decidable_of_iff (w ≠ "" ∧ w.toList.all fun c => !isBlank c) (by simp [Text.OneWord])

/-- The class attribute is set to the value: the first of that name, or a new one behind all others. -/
inductive StartTag.Placed (value : String) : List Attribute → List Attribute → Prop where
  | first {front back : List Attribute} {old : Option String}
      (hfront : ∀ a ∈ front, a.name ≠ "class") :
      Placed value (front ++ ⟨"class", old⟩ :: back) (front ++ ⟨"class", some value⟩ :: back)
  | last {attributes : List Attribute} (h : ∀ a ∈ attributes, a.name ≠ "class") :
      Placed value attributes (attributes ++ [⟨"class", some value⟩])

variable {tag : StartTag} {name : String} {words : List String} {rules : List Rule}
  {attributes : List Attribute} {a : Attribute} {s : List Char}

/-! ## Words -/

namespace Text

theorem words_append_blank {c : Char} (hc : isBlank c = true) (s t : List Char) :
    Text.words (s ++ c :: t) = Text.words s ++ Text.words t := by
  unfold Text.words
  rw [splitWhere_eq_splitOnP, List.splitOnP_append_cons s t hc, List.filter_append,
    splitWhere_eq_splitOnP, splitWhere_eq_splitOnP]

theorem words_of_word {w : String} (h : OneWord w) : Text.words w.toList = [w.toList] := by
  unfold Text.words
  rw [splitWhere_eq_splitOnP, List.splitOnP_eq_singleton h.2]
  simpa using h.1

/-- Words that single blanks part are read back. -/
theorem words_intercalate (h : ∀ w ∈ words, OneWord w) :
    (Text.words (" ".intercalate words).toList).map String.ofList = words := by
  induction words with
  | nil => rfl
  | cons w rest ih =>
    obtain ⟨hw, hrest⟩ := List.forall_mem_cons.1 h
    by_cases hne : rest = []
    · simp [hne, words_of_word hw]
    · rw [String.intercalate_cons_of_ne_nil hne]
      have hlist : (w ++ " " ++ " ".intercalate rest).toList =
          w.toList ++ ' ' :: (" ".intercalate rest).toList := by simp
      rw [hlist, words_append_blank (by decide), words_of_word hw, List.map_append, ih hrest]
      simp

theorem oneWord_of_mem_words {w : List Char} (h : w ∈ Text.words s) : OneWord (String.ofList w) := by
  obtain ⟨hw, hne⟩ := List.mem_filter.1 h
  refine ⟨by simpa using hne, ?_⟩
  rw [String.toList_ofList]
  exact not_of_mem_splitWhere hw

end Text

/-! ## The class attribute -/

namespace StartTag

@[simp]
theorem appendClasses_name (tag : StartTag) (classes : List String) :
    (tag.appendClasses classes).name = tag.name := by
  unfold appendClasses
  split <;> rfl

@[simp]
theorem appendClasses_selfClosing (tag : StartTag) (classes : List String) :
    (tag.appendClasses classes).selfClosing = tag.selfClosing := by
  unfold appendClasses
  split <;> rfl

@[simp]
theorem prependClasses_name (tag : StartTag) (classes : List String) :
    (tag.prependClasses classes).name = tag.name := by
  unfold prependClasses
  split <;> rfl

@[simp]
theorem prependClasses_selfClosing (tag : StartTag) (classes : List String) :
    (tag.prependClasses classes).selfClosing = tag.selfClosing := by
  unfold prependClasses
  split <;> rfl

theorem oneWord_classWords (tag : StartTag) : ∀ w ∈ tag.classWords, OneWord w := by
  unfold classWords
  split
  · exact List.forall_mem_nil _
  · intro w hw
    obtain ⟨word, hword, rfl⟩ := List.mem_map.1 hw
    exact oneWord_of_mem_words hword

theorem find?_setClass (value : String) (attributes : List Attribute) :
    (setClass value attributes).find? (·.name == "class") = some ⟨"class", some value⟩ := by
  induction attributes with
  | nil => rfl
  | cons a rest ih =>
    rw [setClass]
    split
    · rfl
    · next hname =>
      rw [List.find?_cons_of_neg (by simpa using hname), ih]

/-- The words of a class list are read back from the attribute. -/
theorem classWords_withClasses (tag : StartTag) (h : ∀ w ∈ words, OneWord w) :
    (tag.withClasses words).classWords = words := by
  have hfind : (tag.withClasses words).attribute? "class" =
      some ⟨"class", some (" ".intercalate words)⟩ := find?_setClass _ _
  rw [classWords, hfind]
  exact words_intercalate h

theorem setClass_setClass (value old : String) (attributes : List Attribute) :
    setClass value (setClass old attributes) = setClass value attributes := by
  induction attributes with
  | nil => rfl
  | cons a rest ih =>
    by_cases hname : a.name = "class"
    · simp [setClass, hname]
    · simp [setClass, hname, ih]

theorem placed_setClass (value : String) (attributes : List Attribute) :
    Placed value attributes (setClass value attributes) := by
  induction attributes with
  | nil => exact .last (List.forall_mem_nil _)
  | cons a rest ih =>
    rw [setClass]
    split
    · next hname =>
      obtain ⟨name, old⟩ := a
      subst hname
      exact .first (List.forall_mem_nil _)
    · next hname =>
      generalize setClass value rest = new at ih ⊢
      cases ih with
      | first hfront => exact .first (List.forall_mem_cons.2 ⟨hname, hfront⟩)
      | last hrest => exact .last (List.forall_mem_cons.2 ⟨hname, hrest⟩)

theorem Placed.eq {new : List Attribute} (h : Placed value attributes new) :
    new = setClass value attributes := by
  cases h with
  | @first front back old hfront =>
    induction front with
    | nil => rfl
    | cons a front ih =>
      obtain ⟨ha, hfront⟩ := List.forall_mem_cons.1 hfront
      rw [List.cons_append, List.cons_append, setClass, if_neg ha, ← ih hfront]
  | last hnone =>
    induction attributes with
    | nil => rfl
    | cons a rest ih =>
      obtain ⟨ha, hrest⟩ := List.forall_mem_cons.1 hnone
      rw [List.cons_append, setClass, if_neg ha, ← ih hrest]

theorem appendClasses_of_ne_nil (tag : StartTag) (h : words ≠ []) :
    tag.appendClasses words = tag.withClasses (tag.classWords ++ words) := by
  simp [appendClasses, h]

theorem classWords_appendClasses (tag : StartTag) (h : ∀ w ∈ words, OneWord w) :
    (tag.appendClasses words).classWords = tag.classWords ++ words := by
  by_cases hwords : words = []
  · simp [hwords, appendClasses]
  · rw [appendClasses_of_ne_nil tag hwords]
    exact classWords_withClasses tag (List.forall_mem_append.2 ⟨tag.oneWord_classWords, h⟩)

theorem attributes_appendClasses (tag : StartTag) (words : List String) :
    (tag.appendClasses words).attributes =
      if words = [] then tag.attributes
      else setClass (" ".intercalate (tag.classWords ++ words)) tag.attributes := by
  split
  · next hwords => simp [hwords, appendClasses]
  · next hwords => rw [appendClasses_of_ne_nil tag hwords, withClasses]

/-- Classes that are added in two steps are added in one. -/
theorem appendClasses_append (tag : StartTag) (h : ∀ w ∈ words, OneWord w) (more : List String) :
    (tag.appendClasses words).appendClasses more = tag.appendClasses (words ++ more) := by
  by_cases hwords : words = []
  · simp [hwords, appendClasses]
  · by_cases hmore : more = []
    · simp [hmore, appendClasses]
    · rw [appendClasses_of_ne_nil _ hmore, classWords_appendClasses tag h,
        appendClasses_of_ne_nil tag hwords, appendClasses_of_ne_nil tag (by simp [hwords]),
        List.append_assoc]
      simp [withClasses, setClass_setClass]

end StartTag

/-! ## Attributes that stand for classes -/

namespace ClassName

theorem classesOf?_eq_none {rules : List Rule} :
    classesOf? rules name = none ↔ ∀ rule ∈ rules, rule.classes? name.toList = none := by
  simp [classesOf?]

theorem convert_eq (rules : List Rule) (attributes : List Attribute) :
    convert rules attributes =
      (attributes.flatMap fun a => (classesOf? rules a.name).getD [],
        attributes.filter fun a => (classesOf? rules a.name).isNone) := by
  induction attributes with
  | nil => rfl
  | cons a rest ih =>
    rw [convert, ih]
    cases hclasses : classesOf? rules a.name <;> simp [hclasses]

theorem mem_convert {rules : List Rule} {attributes : List Attribute} {a : Attribute} :
    a ∈ (convert rules attributes).2 ↔ a ∈ attributes ∧ classesOf? rules a.name = none := by
  simp [convert_eq]

theorem convert_of_none (h : ∀ a ∈ attributes, classesOf? rules a.name = none) :
    convert rules attributes = ([], attributes) := by
  rw [convert_eq, List.filter_eq_self.2 fun a ha => by rw [h a ha]; rfl,
    List.flatMap_eq_nil_iff.2 fun a ha => by rw [h a ha]; rfl]

theorem classesOf?_class (rules : List Rule) : classesOf? rules "class" = none := by
  rw [classesOf?_eq_none]
  intro rule _
  cases rule <;> decide

theorem convert_setClass (rules : List Rule) (value : String)
    (attributes : List Attribute) :
    convert rules (StartTag.setClass value attributes) =
      ((convert rules attributes).1, StartTag.setClass value (convert rules attributes).2) := by
  induction attributes with
  | nil => simp [StartTag.setClass, convert, classesOf?_class]
  | cons a rest ih =>
    by_cases hname : a.name = "class"
    · simp [StartTag.setClass, convert, hname, classesOf?_class]
    · cases hclasses : classesOf? rules a.name with
      | none => simp [StartTag.setClass, convert, hname, hclasses, ih]
      | some found => simp [StartTag.setClass, convert, hname, hclasses, ih]

end ClassName

/-- No rule is about the class attribute, so its words stay. -/
theorem StartTag.classWords_convert (rules : List Rule) (tag : StartTag) (name : String)
    (selfClosing : Bool) :
    (StartTag.mk name (convert rules tag.attributes).2 selfClosing).classWords = tag.classWords := by
  have hfind : (convert rules tag.attributes).2.find? (·.name == "class") =
      tag.attributes.find? (·.name == "class") := by
    rw [ClassName.convert_eq, List.find?_filter]
    congr 1
    funext a
    by_cases hname : a.name = "class"
    · simp [hname, ClassName.classesOf?_class]
    · simp [hname]
  unfold classWords attribute?
  dsimp only
  rw [hfind]

end GridMarkup
