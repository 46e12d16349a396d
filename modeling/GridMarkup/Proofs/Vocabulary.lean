import GridMarkup.Proofs.Sent
import GridMarkup.Proofs.Stages

/-!
# The vocabulary

A run leaves nothing of the vocabulary of its stages: no resource block starts in what it sends, no
grid tag stands there, and no attribute that shows or hides an element. A list without the
vocabulary goes through as it is, so a second run changes nothing.
-/

namespace GridMarkup

open ClassName (Rule convert classesOf?)

/-! ## Tokens without vocabulary -/

/-- No block of resources starts here. -/
def Resource.Free : Token → Prop
  | .startTag tag => tag.name ≠ "js" ∧ tag.name ≠ "css"
  | _ => True

/-- No rule about showing and hiding is about the attribute. -/
def Attribute.Free (a : Attribute) : Prop :=
  ∀ rule ∈ Rule.visibility, rule.classes? a.name.toList = none

/-- No grid tag, and no attribute that shows or hides an element. -/
def Grid.Free : Token → Prop
  | .startTag tag => tag.name ∉ gridNames ∧ ∀ a ∈ tag.attributes, a.Free
  | .endTag name => name ∉ gridNames
  | _ => True

/-- The tokens hold nothing of the vocabulary of the stages that are on. -/
def Options.Free (o : Options) (tokens : List Token) : Prop :=
  (o.resources = true → ∀ t ∈ tokens, Resource.Free t) ∧
    (o.grid = true → ∀ t ∈ tokens, Grid.Free t)

variable {t : Token} {tag : StartTag} {name : String} {tokens : List Token} {g : Grid}
  {P : Token → Prop}

/-! ## Attributes -/

theorem Attribute.free_of_convert {rules : List Rule} {attributes : List Attribute} {a : Attribute}
    (hrules : ∀ rule ∈ Rule.visibility, rule ∈ rules) (h : a ∈ (convert rules attributes).2) :
    a.Free :=
  fun rule hrule =>
    ClassName.classesOf?_eq_none.1 (ClassName.mem_convert.1 h).2 rule (hrules rule hrule)

theorem Attribute.free_class {a : Attribute} (h : a.name = "class") : a.Free := by
  unfold Attribute.Free
  rw [h]
  decide

namespace Grid

/-! ## What grid tags become -/

theorem free_expandVisibility (tag : StartTag) :
    ∀ a ∈ (expandVisibility tag).attributes, a.Free := by
  intro a ha
  rcases StartTag.adds_appendClasses _ _ a ha with hkept | hclass
  · exact Attribute.free_of_convert (fun _ hrule => hrule) hkept
  · exact Attribute.free_class hclass

theorem free_expandTag (tag : StartTag) : ∀ a ∈ (expandTag tag).attributes, a.Free := by
  unfold expandTag
  split
  · intro a ha
    rcases StartTag.adds_prependClasses _ _ a ha with hkept | hclass
    · exact Attribute.free_of_convert (fun _ hrule => List.mem_append_left _ hrule) hkept
    · exact Attribute.free_class hclass
  · split
    · exact free_expandVisibility tag
    · exact free_expandVisibility _

theorem written_not_mem (name : String) : written name ∉ gridNames := by
  unfold written
  split
  · decide
  · next h =>
    rw [← isGrid_iff]
    exact h

theorem free_impliedColumn : Grid.Free impliedColumn :=
  ⟨by decide, List.forall_mem_singleton.2 (Attribute.free_class rfl)⟩

theorem free_element : Grid.Free (.endTag element) := by
  change element ∉ gridNames
  decide

/-- What closes a grid tag consists of implied columns and their ends. -/
theorem forall_mem_closing (himplied : P impliedColumn) (helement : P (.endTag element))
    (tag : StartTag) : ∀ u ∈ closing tag, P u := by
  unfold closing
  split
  · split
    · simp [himplied, helement]
    · simp [helement]
  · simp

theorem free_expand (t : Token) : ∀ u ∈ expand t, Grid.Free u := by
  cases t with
  | startTag tag =>
    refine List.forall_mem_cons.2 ⟨⟨?_, free_expandTag tag⟩,
      forall_mem_closing free_impliedColumn free_element tag⟩
    rw [expandTag_name]
    exact written_not_mem tag.name
  | endTag name => exact List.forall_mem_singleton.2 (written_not_mem name)
  | _ => exact List.forall_mem_singleton.2 trivial

/-- The grid starts no resource block. -/
theorem resourceFree_expand (h : Resource.Free t) : ∀ u ∈ expand t, Resource.Free u := by
  cases t with
  | startTag tag =>
    refine List.forall_mem_cons.2 ⟨?_, forall_mem_closing ⟨by decide, by decide⟩ trivial tag⟩
    change (expandTag tag).name ≠ "js" ∧ (expandTag tag).name ≠ "css"
    rw [expandTag_name, written]
    split
    · decide
    · exact h
  | _ => exact List.forall_mem_singleton.2 trivial

/-! ## What the grid sends -/

theorem settle_forall (himplied : P impliedColumn) (hheld : ∀ u ∈ g.held, P u) :
    (∀ u ∈ g.settle.1.held, P u) ∧ ∀ u ∈ g.settle.2.tokens, P u := by
  unfold Grid.settle
  split
  · exact ⟨List.forall_mem_nil _, List.forall_mem_cons.2 ⟨himplied, hheld⟩⟩
  · exact ⟨hheld, List.forall_mem_nil _⟩

/-- The grid sends what it held, what the token becomes, and implied columns with their ends. -/
theorem step_forall (himplied : P impliedColumn) (helement : P (.endTag element))
    (hheld : ∀ u ∈ g.held, P u) (ht : ∀ u ∈ expand t, P u) :
    (∀ u ∈ (g.step t).1.held, P u) ∧ ∀ u ∈ (g.step t).2.tokens, P u := by
  obtain ⟨hsettled, hsettle⟩ := settle_forall himplied hheld
  cases t with
  | startTag tag =>
    rw [Grid.step]
    split
    · exact ⟨List.forall_mem_nil _, List.forall_mem_append.2 ⟨hheld, ht⟩⟩
    · exact ⟨hsettled, List.forall_mem_append.2 ⟨hsettle, ht⟩⟩
  | endTag name =>
    have hclose : ∀ u ∈ closeColumn name g.settle.1.rows, P u := by
      unfold closeColumn
      split
      · exact List.forall_mem_singleton.2 helement
      · exact List.forall_mem_nil _
    exact ⟨hsettled, List.forall_mem_append.2 ⟨List.forall_mem_append.2 ⟨hsettle, hclose⟩, ht⟩⟩
  | text s =>
    rw [Grid.step]
    split
    · exact ⟨List.forall_mem_append.2 ⟨hheld, ht⟩, List.forall_mem_nil _⟩
    · exact ⟨hsettled, List.forall_mem_append.2 ⟨hsettle, ht⟩⟩
  | comment s =>
    rw [Grid.step]
    split
    · exact ⟨List.forall_mem_append.2 ⟨hheld, ht⟩, List.forall_mem_nil _⟩
    · exact ⟨hheld, ht⟩
  | declaration s => exact ⟨hsettled, List.forall_mem_append.2 ⟨hsettle, ht⟩⟩

/-! ## Tokens that the grid lets through -/

theorem not_isGrid (h : name ∉ gridNames) :
    isGrid name = false ∧ isColumn name = false ∧ ownClass? name = none ∧ name ≠ rowName := by
  rw [← isGrid_iff, Bool.not_eq_true] at h
  have hparts := h
  rw [isGrid, Bool.or_eq_false_iff, Option.isSome_eq_false_iff, Option.isNone_iff_eq_none] at hparts
  refine ⟨h, hparts.1, hparts.2, ?_⟩
  rintro rfl
  exact absurd h (by decide)

theorem expandVisibility_of_free (h : ∀ a ∈ tag.attributes, a.Free) :
    expandVisibility tag = tag := by
  unfold expandVisibility
  rw [ClassName.convert_of_none fun a ha => ClassName.classesOf?_eq_none.2 (h a ha)]
  rfl

theorem step_free (h : Grid.Free t) : ({} : Grid).step t = ({}, { tokens := [t] }) := by
  cases t with
  | startTag tag =>
    obtain ⟨hname, hattributes⟩ := h
    obtain ⟨hgrid, hcolumn, hown, hrow⟩ := not_isGrid hname
    have hexpand : expandStart tag = [.startTag tag] := by
      simp [expandStart, closing, expandTag, hgrid, hcolumn, hown,
        expandVisibility_of_free hattributes]
    simp [Grid.step, Grid.content, Grid.settle, rowsAfter, hcolumn, hrow, hexpand]
  | endTag name =>
    obtain ⟨hgrid, -, -, hrow⟩ := not_isGrid h
    simp [Grid.step, Grid.content, Grid.settle, closeColumn, expandEnd, hgrid, hrow]
  | text s => rfl
  | comment s => rfl
  | declaration s => rfl

end Grid

/-! ## Resource blocks -/

namespace Resource

theorem free_include (kind : Kind) (url : String) : ∀ u ∈ kind.tokens url, Resource.Free u := by
  cases kind <;> simp [Kind.tokens, Resource.Free]

theorem free_block (b : Block) : ∀ u ∈ b.tokens, Resource.Free u := by
  unfold Block.tokens
  induction trimChildren b.children with
  | nil => exact List.forall_mem_nil _
  | cons child rest ih =>
    refine List.forall_mem_append.2 ⟨?_, ih⟩
    cases child with
    | text s =>
      refine List.forall_mem_flatMap.2 ?_
      intro piece _
      cases piece with
      | text s => exact List.forall_mem_singleton.2 trivial
      | resource url => exact free_include b.kind _
    | comment s => exact List.forall_mem_singleton.2 trivial

theorem ofTagName?_eq_none (name : String) :
    Kind.ofTagName? name = none ↔ name ≠ "js" ∧ name ≠ "css" := by
  unfold Kind.ofTagName?
  split
  · next h => simp [h]
  · split
    · next h => simp [h]
    · next hjs hcss => simp [hjs, hcss]

/-- Only an included tag or one that starts no block comes out. -/
theorem free_step (indent : String) (block : Option Block) (t : Token) :
    ∀ u ∈ (step indent block t).2.tokens, Resource.Free u := by
  cases block with
  | none =>
    change ∀ u ∈ (outside indent t).2.tokens, Resource.Free u
    unfold outside
    split
    · split
      · exact List.forall_mem_nil _
      · next hnone => exact List.forall_mem_singleton.2 ((ofTagName?_eq_none _).1 hnone)
    · next hother =>
      refine List.forall_mem_singleton.2 ?_
      cases t with
      | startTag tag => exact absurd rfl (hother tag)
      | _ => trivial
  | some b =>
    cases t with
    | endTag name =>
      change ∀ u ∈ (b.step (.endTag name)).2.tokens, Resource.Free u
      rw [Block.step]
      split
      · exact List.forall_mem_nil _
      · exact free_block b
    | _ => exact List.forall_mem_nil _

theorem step_of_free (indent : String) (h : Resource.Free t) :
    step indent none t = (none, { tokens := [t] }) := by
  cases t with
  | startTag tag =>
    change outside indent (.startTag tag) = _
    rw [outside, (ofTagName?_eq_none tag.name).2 h]
  | _ => rfl

end Resource

/-! ## Whole lists -/

theorem Resource.free_expandAll (block : Option Block) (xs : List (String × Token)) :
    ∀ u ∈ (expandAll block xs).2, Resource.Free u := by
  induction xs generalizing block with
  | nil => exact List.forall_mem_nil _
  | cons x xs ih => exact List.forall_mem_append.2 ⟨free_step x.1 block x.2, ih _⟩

theorem Resource.expandAll_of_free {xs : List (String × Token)}
    (h : ∀ t ∈ xs.map Prod.snd, Resource.Free t) :
    expandAll none xs = (none, xs.map Prod.snd) := by
  induction xs with
  | nil => rfl
  | cons x xs ih =>
    obtain ⟨hx, hxs⟩ := List.forall_mem_cons.1 h
    simp [expandAll, step_of_free x.1 hx, ih hxs]

/-- What is true of all that the grid makes of one token is true of all that it sends. -/
theorem Grid.expandAll_forall (himplied : P impliedColumn) (helement : P (.endTag element))
    (hheld : ∀ u ∈ g.held, P u) (h : ∀ t ∈ tokens, ∀ u ∈ expand t, P u) :
    ∀ u ∈ (g.expandAll tokens).2, P u := by
  induction tokens generalizing g with
  | nil => exact List.forall_mem_nil _
  | cons t tokens ih =>
    obtain ⟨ht, htokens⟩ := List.forall_mem_cons.1 h
    obtain ⟨hheld', hreply⟩ := step_forall himplied helement hheld ht
    exact List.forall_mem_append.2 ⟨hreply, ih hheld' htokens⟩

theorem Grid.expandAll_of_free (h : ∀ t ∈ tokens, Grid.Free t) :
    Grid.expandAll {} tokens = ({}, tokens) := by
  induction tokens with
  | nil => rfl
  | cons t tokens ih =>
    obtain ⟨ht, htokens⟩ := List.forall_mem_cons.1 h
    simp [expandAll, step_free ht, ih htokens]

namespace Options

variable {o : Options}

theorem free_included (h : o.resources = true) (tokens : List Token) :
    ∀ t ∈ o.included tokens, Resource.Free t := by
  rw [included, if_pos h]
  exact Resource.free_expandAll none _

theorem free_expand (o : Options) (tokens : List Token) : o.Free (o.expand tokens) := by
  rw [expand_eq]
  cases hgrid : o.grid with
  | false => exact ⟨fun h => free_included h tokens, fun h => by simp [hgrid] at h⟩
  | true =>
    rw [if_pos rfl]
    refine ⟨fun h => ?_, fun _ => ?_⟩
    · exact Grid.expandAll_forall
        (by simp [Grid.impliedColumn, Resource.Free, Grid.element]) trivial
        (List.forall_mem_nil _) fun t ht => Grid.resourceFree_expand (free_included h tokens t ht)
    · exact Grid.expandAll_forall Grid.free_impliedColumn Grid.free_element (List.forall_mem_nil _)
        fun t _ => Grid.free_expand t

theorem expand_of_free (h : o.Free tokens) : o.expand tokens = tokens := by
  have hincluded : o.included tokens = tokens := by
    have htokens := Expansion.indented_tokens "" tokens
    unfold included
    split
    · next hresources =>
      rw [Resource.expandAll_of_free (by rw [htokens]; exact h.1 hresources), htokens]
    · rfl
  rw [expand_eq, hincluded]
  split
  · next hgrid => rw [Grid.expandAll_of_free (h.2 hgrid)]
  · rfl

/-- A run leaves no vocabulary, changes exactly the lists that have some, and a second run changes
nothing. -/
theorem expand_settled (o : Options) (tokens : List Token) :
    o.Free (o.expand tokens) ∧ (o.expand tokens = tokens ↔ o.Free tokens) ∧
      o.expand (o.expand tokens) = o.expand tokens := by
  have hfree := free_expand o tokens
  refine ⟨hfree, ⟨fun h => ?_, expand_of_free⟩, expand_of_free hfree⟩
  rw [← h]
  exact hfree

end Options

end GridMarkup
