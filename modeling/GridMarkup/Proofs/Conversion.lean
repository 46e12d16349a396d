import GridMarkup.Proofs.Classes

/-!
# Converting in place

Attributes can be converted in one list, from the last position to the first: what stands for
classes is taken out, and its classes go in front of those found behind it. No position is missed or
looked at twice, so this is one pass forward, which collects the classes and keeps what stands for
none.
-/

namespace GridMarkup.ClassName

/-- Converts what stands at the first `n` positions, the last of them first. There is no result if a
position is missing. -/
def convertBack (rules : List Rule) :
    Nat → List ClassName × List Attribute → Option (List ClassName × List Attribute)
  | 0, state => some state
  | i + 1, (classes, attributes) =>
    attributes[i]?.bind fun a =>
      match classesOf? rules a.name with
      | some found => convertBack rules i (found ++ classes, attributes.eraseIdx i)
      | none => convertBack rules i (classes, attributes)

/-- The lists of classes that attributes stand for, one for each attribute that stands for classes. -/
def found (rules : List Rule) (attributes : List Attribute) : List (List ClassName) :=
  attributes.filterMap fun a => classesOf? rules a.name

/-- The attributes that stand for no classes. -/
def others (rules : List Rule) (attributes : List Attribute) : List Attribute :=
  attributes.filter fun a => (classesOf? rules a.name).isNone

/-! ## One pass -/

theorem convert_eq_found (rules : List Rule) (attributes : List Attribute) :
    convert rules attributes = ((found rules attributes).flatten, others rules attributes) := by
  rw [convert_eq, found, others]
  congr 1
  induction attributes with
  | nil => rfl
  | cons a rest ih =>
    rw [List.flatMap_cons, ih, List.filterMap_cons]
    cases classesOf? rules a.name <;> rfl

/-- What is kept has nothing to convert. -/
theorem convert_others (rules : List Rule) (attributes : List Attribute) :
    convert rules (others rules attributes) = ([], others rules attributes) := by
  apply convert_of_none
  intro a ha
  exact Option.isNone_iff_eq_none.1 (List.mem_filter.1 ha).2

/-! ## From the last position to the first -/

/-- Behind position `front.length` everything is done: the classes from there are collected, and
what is kept from there stands behind the positions that are left. -/
theorem convertBack_append (rules : List Rule) (classes : List ClassName)
    (front kept : List Attribute) :
    convertBack rules front.length (classes, front ++ kept) =
      some ((found rules front).flatten ++ classes, others rules front ++ kept) := by
  induction front using List.reverseRecOn generalizing classes kept with
  | nil => rfl
  | append_singleton front a ih =>
    have hlast : (front ++ [a] ++ kept)[front.length]? = some a := by simp
    rw [List.length_append, List.length_singleton, convertBack, hlast, Option.bind_some]
    cases hclasses : classesOf? rules a.name with
    | none =>
      -- The attribute joins what is kept behind the positions that are left.
      have hothers : others rules (front ++ [a]) = others rules front ++ [a] := by
        simp [others, hclasses]
      have hfound : found rules (front ++ [a]) = found rules front := by simp [found, hclasses]
      rw [List.append_assoc, hothers, hfound, List.append_assoc]
      exact ih classes ([a] ++ kept)
    | some new =>
      -- Taking the attribute out moves nothing in front of it.
      have herase : (front ++ [a] ++ kept).eraseIdx front.length = front ++ kept := by
        rw [List.append_assoc, List.eraseIdx_append_of_length_le le_rfl, Nat.sub_self]
        rfl
      have hothers : others rules (front ++ [a]) = others rules front := by simp [others, hclasses]
      have hfound : found rules (front ++ [a]) = found rules front ++ [new] := by
        simp [found, hclasses]
      dsimp only
      rw [herase, ih (new ++ classes) kept, hothers, hfound]
      simp

theorem convertBack_eq (rules : List Rule) (attributes : List Attribute) :
    convertBack rules attributes.length ([], attributes) = some (convert rules attributes) := by
  have hall := convertBack_append rules [] attributes []
  rw [List.append_nil, List.append_nil, List.append_nil] at hall
  rw [hall, convert_eq_found]

/-- Converting finds the classes of the attributes in their order, and it keeps the other attributes
as they are. An attribute that stands for classes is not kept, even if there are none. This is what
comes of it in place and from the last position to the first too. What is kept is not changed by
converting it again. -/
theorem convert_forward (rules : List Rule) (attributes : List Attribute) :
    let kept := others rules attributes
    convert rules attributes = ((found rules attributes).flatten, kept) ∧
      convertBack rules attributes.length ([], attributes) =
        some ((found rules attributes).flatten, kept) ∧
      (∀ a, classesOf? rules a.name = some [] → a ∉ kept) ∧
      convert rules kept = ([], kept) ∧
      convertBack rules kept.length ([], kept) = some ([], kept) := by
  intro kept
  have hall := convert_eq_found rules attributes
  have hagain : convert rules kept = ([], kept) := convert_others rules attributes
  refine ⟨hall, ?_, ?_, hagain, ?_⟩
  · rw [convertBack_eq, hall]
  · intro a hnone ha
    have hkept := (List.mem_filter.1 ha).2
    rw [hnone] at hkept
    cases hkept
  · rw [convertBack_eq, hagain]

/-- Attributes of a column, one with a part that no rule knows. -/
def columnAttributes : List Attribute :=
  [⟨"md4", none⟩, ⟨"id", some "main"⟩, ⟨"size:xx9", some "x"⟩, ⟨"size:xs12-sm6", none⟩,
    ⟨"hidden", none⟩]

theorem convert_forward_column :
    classesOf? Rule.column "size:xx9" = some [] ∧
      (⟨"size:xx9", some "x"⟩ : Attribute) ∉ others Rule.column columnAttributes ∧
      convertBack Rule.column 5 ([], columnAttributes) =
        some ([.column .md 4, .column .xs 12, .column .sm 6, .hidden .md],
          [⟨"id", some "main"⟩]) := by
  have hnone : classesOf? Rule.column "size:xx9" = some [] := by decide
  obtain ⟨-, hback, hdropped, -⟩ := convert_forward Rule.column columnAttributes
  exact ⟨hnone, hdropped ⟨"size:xx9", some "x"⟩ hnone, hback.trans (by decide)⟩

end GridMarkup.ClassName
