import GridMarkup.Proofs.LineEnds.Blocks

/-!
# Line endings in a run

The stages make the same tokens with the other line ending out of tokens with the other line ending.
A class attribute that the grid writes has no line ending at all.
-/

namespace GridMarkup

open Text
open ClassName (Rule convert classesOf?)

variable {tag : StartTag} {t : Token} {tokens : List Token} {value : String}
  {classes : List String}

/-! ## Classes -/

theorem Text.OneWord.onLine (h : OneWord value) : '\n' ∉ value.toList := by
  intro hmem
  exact absurd (h.2 _ hmem) (by decide)

theorem onLine_intercalate (h : ∀ c ∈ classes, OneWord c) :
    '\n' ∉ (" ".intercalate classes).toList := by
  induction classes with
  | nil => simp
  | cons first rest ih =>
    obtain ⟨hfirst, hrest⟩ := List.forall_mem_cons.1 h
    by_cases hne : rest = []
    · simpa [hne] using hfirst.onLine
    · rw [String.intercalate_cons_of_ne_nil hne, String.toList_append, String.toList_append]
      simp only [List.mem_append, not_or]
      exact ⟨⟨hfirst.onLine, by decide⟩, ih hrest⟩

theorem StartTag.classWords_crlf (tag : StartTag) : tag.crlf.classWords = tag.classWords := by
  have hfind : tag.crlf.attribute? "class" = (tag.attribute? "class").map Attribute.crlf :=
    List.find?_map
  rw [classWords, classWords, hfind]
  cases tag.attribute? "class" with
  | none => rfl
  | some a =>
    have htext : a.crlf.text.toList = Text.crlf a.text.toList := by
      cases hvalue : a.value <;> simp [Attribute.text, Attribute.crlf, hvalue]
    simp only [Option.map_some, htext, words_crlf]

theorem StartTag.setClass_crlf (hvalue : '\n' ∉ value.toList) (attributes : List Attribute) :
    setClass value (attributes.map Attribute.crlf) =
      (setClass value attributes).map Attribute.crlf := by
  have hsame : crlfString value = value := by
    rw [crlfString, crlf_of_not_mem hvalue, String.ofList_toList]
  induction attributes with
  | nil => simp [setClass, Attribute.crlf, hsame]
  | cons a rest ih =>
    have hname : a.crlf.name = a.name := rfl
    rw [List.map_cons, setClass, setClass, hname]
    split
    · simp [Attribute.crlf, hsame]
    · rw [ih, List.map_cons]

theorem StartTag.withClasses_crlf (tag : StartTag) (h : ∀ c ∈ classes, OneWord c) :
    tag.crlf.withClasses classes = (tag.withClasses classes).crlf := by
  change StartTag.mk _ (setClass _ (tag.attributes.map Attribute.crlf)) _ = _
  rw [setClass_crlf (onLine_intercalate h)]
  rfl

theorem StartTag.appendClasses_crlf (tag : StartTag) (h : ∀ c ∈ classes, OneWord c) :
    tag.crlf.appendClasses classes = (tag.appendClasses classes).crlf := by
  unfold appendClasses
  split
  · rfl
  · rw [classWords_crlf,
      withClasses_crlf tag (List.forall_mem_append.2 ⟨tag.oneWord_classWords, h⟩)]

theorem StartTag.prependClasses_crlf (tag : StartTag) (h : ∀ c ∈ classes, OneWord c) :
    tag.crlf.prependClasses classes = (tag.prependClasses classes).crlf := by
  unfold prependClasses
  split
  · rfl
  · rw [classWords_crlf,
      withClasses_crlf tag (List.forall_mem_append.2 ⟨h, tag.oneWord_classWords⟩)]

/-! ## Grid tags -/

theorem convert_crlf (rules : List Rule) (attributes : List Attribute) :
    convert rules (attributes.map Attribute.crlf) =
      ((convert rules attributes).1, (convert rules attributes).2.map Attribute.crlf) := by
  simp only [ClassName.convert_eq, List.flatMap_map, List.filter_map]
  rfl

namespace Grid

theorem expandVisibility_crlf (tag : StartTag) :
    expandVisibility tag.crlf = (expandVisibility tag).crlf := by
  have hconvert := convert_crlf Rule.visibility tag.attributes
  unfold expandVisibility
  rw [← StartTag.appendClasses_crlf _ (ClassName.oneWord_texts _)]
  simp only [StartTag.crlf, hconvert]

theorem expandColumn_crlf (tag : StartTag) : expandColumn tag.crlf = (expandColumn tag).crlf := by
  have hconvert := convert_crlf Rule.column tag.attributes
  unfold expandColumn
  rw [← StartTag.prependClasses_crlf _ (ClassName.oneWord_texts _)]
  simp only [StartTag.crlf, hconvert]

theorem expandTag_crlf (tag : StartTag) : expandTag tag.crlf = (expandTag tag).crlf := by
  have hname : tag.crlf.name = tag.name := rfl
  unfold expandTag
  rw [hname]
  split
  · exact expandColumn_crlf tag
  · cases hown : ownClass? tag.name with
    | none => exact expandVisibility_crlf tag
    | some own =>
      have hword : ∀ c ∈ [own], OneWord c := List.forall_mem_singleton.2 (oneWord_ownClass hown)
      simp only
      rw [← expandVisibility_crlf, ← StartTag.appendClasses_crlf _ hword]
      rfl

theorem closing_crlf (tag : StartTag) : closing tag.crlf = (closing tag).map Token.crlf := by
  have himplied : impliedColumn.crlf = impliedColumn := by decide
  change (if tag.selfClosing ∧ isGrid tag.name then
    if tag.name = rowName then _ else _ else _) = List.map Token.crlf (closing tag)
  unfold closing
  split
  · split
    · rw [List.map_cons, himplied]
      rfl
    · rfl
  · rfl

theorem expandStart_crlf (tag : StartTag) :
    expandStart tag.crlf = (expandStart tag).map Token.crlf := by
  rw [expandStart, expandTag_crlf, closing_crlf]
  rfl

/-! ## Steps of the grid -/

def crlf (g : Grid) : Grid := { g with held := g.held.map Token.crlf }

/-- The answer of the grid, with the other line ending. -/
def crlfAnswer (answer : Grid × Reply) : Grid × Reply := (answer.1.crlf, answer.2.crlf)

theorem settle_crlf (g : Grid) : g.crlf.settle = crlfAnswer g.settle := by
  have himplied : impliedColumn.crlf = impliedColumn := by decide
  have hrows : g.crlf.rows = g.rows := rfl
  unfold Grid.settle
  rw [hrows]
  split
  · simp [crlfAnswer, Reply.crlf, crlf, himplied]
  · rfl

theorem content_crlf (g : Grid) (t : Token) : g.crlf.content t.crlf = crlfAnswer (g.content t) := by
  have hsettle := settle_crlf g
  cases t with
  | startTag tag =>
    simp only [Token.crlf, Grid.content, hsettle, crlfAnswer, Reply.crlf, expandStart_crlf,
      List.map_append]
    rfl
  | endTag name =>
    have hclose : ∀ rows, (closeColumn name rows).map Token.crlf = closeColumn name rows := by
      intro rows
      unfold closeColumn
      split <;> rfl
    simp only [Token.crlf, Grid.content, hsettle, crlfAnswer, Reply.crlf, List.map_append, hclose]
    rfl
  | text s => simp [Token.crlf, Grid.content, hsettle, crlfAnswer, Reply.crlf]
  | comment s => simp [Token.crlf, Grid.content, hsettle, crlfAnswer, Reply.crlf]
  | declaration s => simp [Token.crlf, Grid.content, hsettle, crlfAnswer, Reply.crlf]

theorem step_crlf (g : Grid) (t : Token) : g.crlf.step t.crlf = crlfAnswer (g.step t) := by
  have hheld (t : Token) : g.crlf.hold t.crlf = crlfAnswer (g.hold t) := by
    simp [Grid.hold, crlfAnswer, crlf, Reply.crlf]
  have hwaiting : g.crlf.isWaiting = g.isWaiting := rfl
  cases t with
  | startTag tag =>
    change (if isColumn tag.name then g.crlf.column tag.crlf
      else g.crlf.content (.startTag tag.crlf)) = _
    rw [Grid.step]
    split
    · simp only [Grid.column, expandStart_crlf, crlfAnswer, Reply.crlf, List.map_append]
      rfl
    · exact content_crlf g (.startTag tag)
  | endTag name => exact content_crlf g (.endTag name)
  | text s =>
    have hblank : (crlfString s).toList.all isBlank = s.toList.all isBlank := by
      rw [toList_crlfString, all_crlf (by decide)]
    simp only [Token.crlf, Grid.step, hwaiting, hblank]
    split
    · exact hheld (.text s)
    · exact content_crlf g (.text s)
  | comment s =>
    simp only [Token.crlf, Grid.step, hwaiting]
    split
    · exact hheld (.comment s)
    · rfl
  | declaration s => exact content_crlf g (.declaration s)

theorem expandAll_crlf (g : Grid) (tokens : List Token) :
    g.crlf.expandAll (tokens.map Token.crlf) =
      ((g.expandAll tokens).1.crlf, (g.expandAll tokens).2.map Token.crlf) := by
  induction tokens generalizing g with
  | nil => rfl
  | cons t tokens ih =>
    rw [List.map_cons, expandAll, step_crlf]
    simp only [crlfAnswer, Reply.crlf, ih, expandAll, List.map_append]

end Grid

/-! ## Runs -/

theorem indentAfter_crlf (indent : String) (t : Token) :
    Expansion.indentAfter indent t.crlf = Expansion.indentAfter indent t := by
  cases t with
  | text s =>
    change String.ofList (indentation (crlfString s).toList) = _
    rw [toList_crlfString, indentation_crlf]
    rfl
  | _ => rfl

theorem onLine_indentAfter {indent : String} (h : '\n' ∉ indent.toList) (t : Token) :
    '\n' ∉ (Expansion.indentAfter indent t).toList := by
  cases t with
  | text s =>
    intro hmem
    rw [Expansion.indentAfter, String.toList_ofList, indentation, trailing,
      List.mem_reverse] at hmem
    exact absurd (List.mem_takeWhile_imp hmem) (by decide)
  | _ => exact h

theorem indented_crlf (indent : String) (tokens : List Token) :
    Expansion.indented indent (tokens.map Token.crlf) =
      (Expansion.indented indent tokens).map Resource.crlfIndented := by
  induction tokens generalizing indent with
  | nil => rfl
  | cons t tokens ih =>
    rw [List.map_cons, Expansion.indented, indentAfter_crlf, ih, Expansion.indented, List.map_cons,
      Resource.crlfIndented]

theorem noReturn_indented {indent : String} (hindent : '\n' ∉ indent.toList)
    (htokens : ∀ t ∈ tokens, t.NoReturn) :
    ∀ x ∈ Expansion.indented indent tokens, '\n' ∉ x.1.toList ∧ x.2.NoReturn := by
  induction tokens generalizing indent with
  | nil => exact List.forall_mem_nil _
  | cons t tokens ih =>
    obtain ⟨ht, hrest⟩ := List.forall_mem_cons.1 htokens
    have hafter := onLine_indentAfter hindent t
    exact List.forall_mem_cons.2 ⟨⟨hafter, ht⟩, ih hafter hrest⟩

/-- A run makes the same tokens, with the other line ending. -/
theorem Options.expand_crlf (o : Options) (htokens : ∀ t ∈ tokens, t.NoReturn) :
    o.expand (tokens.map Token.crlf) = (o.expand tokens).map Token.crlf := by
  have hincluded : o.included (tokens.map Token.crlf) = (o.included tokens).map Token.crlf := by
    have hempty : '\n' ∉ "".toList := by decide
    have hnone : Resource.NoReturn none := by rintro b ⟨⟩
    have hall := Resource.expandAll_crlf hnone (noReturn_indented hempty htokens)
    rw [← indented_crlf] at hall
    unfold included
    split
    · exact congrArg Prod.snd hall
    · rfl
  rw [Options.expand_eq, Options.expand_eq, hincluded]
  split
  · exact congrArg Prod.snd (Grid.expandAll_crlf {} _)
  · rfl

end GridMarkup
