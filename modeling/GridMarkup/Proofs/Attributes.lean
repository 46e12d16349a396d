import GridMarkup.Proofs.Codec
import GridMarkup.Proofs.Reading
import GridMarkup.Token.Write
import Mathlib.Data.List.Chain

/-!
# Reading written attributes

The attributes of a start tag are read back as they were written, but for one case. A bare
attribute takes what follows for its value where the next name starts with `=`.
-/

namespace GridMarkup

open Text Scan Token

/-! ## Attributes that can be read -/

/-- A name as the reader takes it. Its first character may be one that other names end at. -/
def Attribute.NameReadable (a : Attribute) : Prop :=
  ∃ c s, a.name.toList = c :: s ∧ isTagNameChar c = true ∧ ∀ d ∈ s, isAttributeNameChar d = true

theorem Attribute.nameReadable_of_chars {a : Attribute} (hne : a.name ≠ "")
    (hchars : ∀ c ∈ a.name.toList, isAttributeNameChar c = true) : a.NameReadable := by
  obtain ⟨c, s, hcs⟩ := List.exists_cons_of_ne_nil (by simpa using hne : a.name.toList ≠ [])
  rw [hcs] at hchars
  have hc : isAttributeNameChar c = true := hchars c List.mem_cons_self
  simp only [isAttributeNameChar, Bool.and_eq_true] at hc
  exact ⟨c, s, hcs, hc.1.1.1, fun d hd => hchars d (List.mem_cons_of_mem _ hd)⟩

def Attribute.reread (decode : Bool) (a : Attribute) : Attribute :=
  { a with value := a.value.map fun v => spelled decode (escapedValue decode v.toList) }

/-- The second attribute does not look like the value of the first. -/
def Attribute.Apart (a b : Attribute) : Prop := a.value = none → b.name.toList.head? ≠ some '='

instance (a b : Attribute) : Decidable (a.Apart b) :=
  inferInstanceAs (Decidable (_ → _))

/-- No bare attribute stands before one whose name starts with `=`. -/
def Separable (attributes : List Attribute) : Prop := attributes.IsChain Attribute.Apart

instance (attributes : List Attribute) : Decidable (Separable attributes) :=
  inferInstanceAs (Decidable (List.IsChain _ _))

theorem separable_of_names {attributes : List Attribute}
    (h : ∀ a ∈ attributes, a.name.toList.head? ≠ some '=') : Separable attributes := by
  induction attributes with
  | nil => exact List.isChain_nil
  | cons a attributes ih =>
    refine List.isChain_cons.2 ⟨?_, ?_⟩
    · intro b hb _
      exact h b (List.mem_cons_of_mem _ (List.mem_of_mem_head? hb))
    · apply ih
      intro b hb
      exact h b (List.mem_cons_of_mem _ hb)

/-! ## Values -/

theorem spelled_escapedValue (v : String) :
    spelled true (escapedValue true v.toList) = v := by
  unfold spelled
  rw [if_pos rfl, decode_escapedValue, String.ofList_toList]

theorem escapedValue_spelled (decode : Bool) (v : String) :
    escapedValue decode (spelled decode (escapedValue decode v.toList)).toList =
      escapedValue decode v.toList := by
  cases decode with
  | true => rw [spelled_escapedValue]
  | false =>
    simp only [spelled, Bool.false_eq_true, if_false, String.toList_ofList]
    exact escapedValue_of_no_quote (quote_not_mem_escapedValue _ _)

theorem Attribute.reread_true (a : Attribute) : a.reread true = a := by
  unfold Attribute.reread
  simp only [spelled_escapedValue]
  cases a with
  | mk name value => cases value <;> rfl

theorem Attribute.reread_false {a : Attribute} (h : '"' ∉ a.text.toList) :
    a.reread false = a := by
  cases a with
  | mk name value =>
    cases value with
    | none => rfl
    | some v =>
      simp only [Attribute.reread, Option.map_some, spelled, Bool.false_eq_true, if_false]
      rw [escapedValue_of_no_quote (by simpa [Attribute.text] using h), String.ofList_toList]

theorem attributeChars_reread (decode : Bool) (a : Attribute) :
    attributeChars decode (a.reread decode) = attributeChars decode a := by
  cases a with
  | mk name value =>
    cases value with
    | none => rfl
    | some v =>
      simp only [attributeChars, Attribute.reread, Option.map_some, escapedValue_spelled]

/-! ## The rest of a written tag -/

/-- What is written behind the name of an attribute. -/
def valueChars (decode : Bool) (a : Attribute) : List Char :=
  match a.value with
  | none => []
  | some v => "=\"".toList ++ escapedValue decode v.toList ++ ['"']

theorem valueChars_bare (decode : Bool) {a : Attribute} (ha : a.value = none) :
    valueChars decode a = [] := by
  unfold valueChars
  rw [ha]

theorem valueChars_value (decode : Bool) {a : Attribute} {v : String} (ha : a.value = some v) :
    valueChars decode a = "=\"".toList ++ escapedValue decode v.toList ++ ['"'] := by
  unfold valueChars
  rw [ha]

theorem attributeChars_eq (decode : Bool) (a : Attribute) :
    attributeChars decode a = ' ' :: a.name.toList ++ valueChars decode a := rfl

/-- The rest of a start tag from some attribute on, with the source behind it. -/
def tagRest (decode : Bool) (attributes : List Attribute) (selfClosing : Bool) (rest : List Char) :
    List Char :=
  attributes.flatMap (attributeChars decode) ++ ((if selfClosing then " />" else ">").toList ++ rest)

variable {decode selfClosing : Bool} {name rest : List Char} {tag : Opening} {a b : Attribute}
  {attributes : List Attribute}

theorem tagRest_cons (decode selfClosing : Bool) (a : Attribute) (attributes : List Attribute)
    (rest : List Char) :
    tagRest decode (a :: attributes) selfClosing rest =
      attributeChars decode a ++ tagRest decode attributes selfClosing rest := by
  rw [tagRest, List.flatMap_cons, List.append_assoc, ← tagRest]

theorem tagRest_append (decode selfClosing : Bool) (first others : List Attribute)
    (rest : List Char) :
    tagRest decode (first ++ others) selfClosing rest =
      first.flatMap (attributeChars decode) ++ tagRest decode others selfClosing rest := by
  rw [tagRest, List.flatMap_append, List.append_assoc, ← tagRest]

theorem flatMap_reread (decode : Bool) (attributes : List Attribute) :
    (attributes.map (Attribute.reread decode)).flatMap (attributeChars decode) =
      attributes.flatMap (attributeChars decode) := by
  rw [List.flatMap_map]
  exact congrArg (List.flatMap · attributes) (funext (attributeChars_reread decode))

/-- Names end in front of the rest of a tag. -/
theorem tagRest_stops (decode selfClosing : Bool) (attributes : List Attribute)
    (rest : List Char) :
    ∃ c s, tagRest decode attributes selfClosing rest = c :: s ∧ isTagNameChar c = false := by
  cases attributes with
  | nil => cases selfClosing <;> exact ⟨_, _, rfl, by decide⟩
  | cons a attributes => rw [tagRest_cons]; exact ⟨' ', _, rfl, by decide⟩

theorem isAttributeNameChar_of_not_isTagNameChar {c : Char} (h : isTagNameChar c = false) :
    isAttributeNameChar c = false := by
  simp [isAttributeNameChar, h]

theorem isTagNameChar_iff {c : Char} :
    isTagNameChar c = true ↔ isBlank c = false ∧ c ≠ '/' ∧ c ≠ '>' := by
  simp [isTagNameChar, and_assoc]

theorem trimStart_tagRest_nil (selfClosing : Bool) (rest : List Char) :
    trimStart (tagRest decode [] selfClosing rest) =
      (if selfClosing then "/>" else ">").toList ++ rest := by
  cases selfClosing with
  | true => exact (trimStart_blank (by decide) _).trans (trimStart_not_blank (by decide) _)
  | false => exact trimStart_not_blank (by decide) _

/-- Where a written attribute is read, once the blank in front of it is gone. -/
theorem trimStart_tagRest_cons {c : Char} {s : List Char} (hname : b.name.toList = c :: s)
    (hc : isTagNameChar c = true) :
    trimStart (tagRest decode (b :: attributes) selfClosing rest) =
      c :: (s ++ (valueChars decode b ++ tagRest decode attributes selfClosing rest)) := by
  rw [tagRest_cons, attributeChars_eq, hname]
  simp only [List.cons_append, List.append_assoc]
  rw [trimStart_blank (by decide), trimStart_not_blank (isTagNameChar_iff.1 hc).1]

theorem strip?_equals (s : List Char) : strip? ['='] s = none ↔ s.head? ≠ some '=' := by
  cases s with
  | nil => simp [strip?]
  | cons c s => by_cases hc : c = '=' <;> simp [strip?, hc, eq_comm]

/-- Behind a bare attribute, a value is read just where the next attribute looks like one. -/
theorem strip?_tagRest (ha : a.value = none) (hnames : ∀ b ∈ attributes, b.NameReadable) :
    strip? ['='] (trimStart (tagRest decode attributes selfClosing rest)) = none ↔
      ∀ b ∈ attributes.head?, a.Apart b := by
  rw [strip?_equals]
  cases attributes with
  | nil => rw [trimStart_tagRest_nil]; cases selfClosing <;> simp
  | cons b attributes =>
    obtain ⟨c, s, hname, hc, -⟩ := hnames b List.mem_cons_self
    rw [trimStart_tagRest_cons hname hc]
    simp [Attribute.Apart, ha, hname]

/-! ## One attribute -/

theorem readAttribute_bare {c : Char} {s : List Char} (hname : a.name.toList = c :: s)
    (hs : ∀ d ∈ s, isAttributeNameChar d = true) (ha : a.value = none)
    (hrest : strip? ['='] (trimStart (tagRest decode attributes selfClosing rest)) = none) :
    readAttribute decode tag c (s ++ tagRest decode attributes selfClosing rest) =
      .ok (a, tagRest decode attributes selfClosing rest) := by
  obtain ⟨d, t, hdt, hd⟩ := tagRest_stops decode selfClosing attributes rest
  have hd := isAttributeNameChar_of_not_isTagNameChar hd
  rw [hdt] at hrest ⊢
  simp only [readAttribute, takeWhile_append_stop hs hd, dropWhile_append_stop hs hd, hrest]
  rw [← hname, String.ofList_toList, ← ha]

theorem readAttribute_value {c : Char} {s : List Char} {v : String}
    (hname : a.name.toList = c :: s) (hs : ∀ d ∈ s, isAttributeNameChar d = true)
    (ha : a.value = some v) :
    readAttribute decode tag c (s ++ (valueChars decode a ++ rest)) =
      .ok (a.reread decode, rest) := by
  have hquote : cut? ['"'] (escapedValue decode v.toList ++ '"' :: rest) =
      some (escapedValue decode v.toList, rest) :=
    cut?_singleton (quote_not_mem_escapedValue _ _)
  have hstop : isAttributeNameChar '=' = false := by decide
  have hequals (t : List Char) : trimStart ('=' :: t) = '=' :: t :=
    trimStart_not_blank (by decide) t
  have hopening (t : List Char) : trimStart ('"' :: t) = '"' :: t :=
    trimStart_not_blank (by decide) t
  have hshape : valueChars decode a ++ rest =
      '=' :: '"' :: (escapedValue decode v.toList ++ '"' :: rest) := by
    simp [valueChars_value decode ha]
  rw [hshape]
  simp only [readAttribute, takeWhile_append_stop hs hstop, dropWhile_append_stop hs hstop,
    hequals, strip?, if_pos, hopening, readValue, true_or, hquote]
  rw [← hname, String.ofList_toList]
  simp [Attribute.reread, ha]

/-- A bare attribute in front of an equals sign is read as one with a value. -/
theorem readAttribute_slip {c : Char} {s t after : List Char} (hname : a.name.toList = c :: s)
    (hs : ∀ d ∈ s, isAttributeNameChar d = true)
    (hrest : strip? ['='] (trimStart (tagRest decode attributes selfClosing rest)) = some t)
    (h : readAttribute decode tag c (s ++ tagRest decode attributes selfClosing rest) =
      .ok (b, after)) :
    ∃ v, b = ⟨a.name, some v⟩ := by
  obtain ⟨d, u, hdu, hd⟩ := tagRest_stops decode selfClosing attributes rest
  have hd := isAttributeNameChar_of_not_isTagNameChar hd
  rw [hdu] at hrest h
  simp only [readAttribute, takeWhile_append_stop hs hd, dropWhile_append_stop hs hd, hrest] at h
  split at h
  · cases h
  · cases h
    exact ⟨_, by rw [← hname, String.ofList_toList]⟩

/-! ## All attributes -/

theorem readAttributes_nil (decode selfClosing : Bool) (name rest : List Char) (tag : Opening) :
    readAttributes decode name tag (tagRest decode [] selfClosing rest) =
      .ok ([], selfClosing, rest) := by
  cases selfClosing with
  | true => exact readAttributes_selfClose (trimStart_tagRest_nil true rest)
  | false => exact readAttributes_close (trimStart_tagRest_nil false rest)

/-- An attribute apart from the next one is read by itself. -/
theorem readAttributes_cons (ha : a.NameReadable) (hnames : ∀ b ∈ attributes, b.NameReadable)
    (hapart : ∀ b ∈ attributes.head?, a.Apart b) :
    readAttributes decode name tag (tagRest decode (a :: attributes) selfClosing rest) =
      (readAttributes decode name tag (tagRest decode attributes selfClosing rest)).map
        fun (more, closes, after) => (a.reread decode :: more, closes, after) := by
  obtain ⟨c, s, hname, hc, hs⟩ := ha
  obtain ⟨-, hslash, hend⟩ := isTagNameChar_iff.1 hc
  rw [readAttributes_attribute (trimStart_tagRest_cons hname hc) hend hslash]
  cases ha : a.value with
  | none =>
    have hnone : strip? ['='] (trimStart (tagRest decode attributes selfClosing rest)) = none :=
      (strip?_tagRest ha hnames).2 hapart
    have hreread : a.reread decode = a := by rw [Attribute.reread, ha, Option.map_none, ← ha]
    rw [hreread, valueChars_bare decode ha, List.nil_append, readAttribute_bare hname hs ha hnone]
    rfl
  | some v =>
    rw [readAttribute_value hname hs ha]
    rfl

/-- Separable attributes are read back one for one. -/
theorem readAttributes_tagRest (hnames : ∀ a ∈ attributes, a.NameReadable)
    (hsep : Separable attributes) :
    readAttributes decode name tag (tagRest decode attributes selfClosing rest) =
      .ok (attributes.map (Attribute.reread decode), selfClosing, rest) := by
  induction attributes with
  | nil => exact readAttributes_nil decode selfClosing name rest tag
  | cons a attributes ih =>
    obtain ⟨hapart, hsep⟩ := List.isChain_cons.1 hsep
    have hnames' : ∀ b ∈ attributes, b.NameReadable := fun b hb => hnames b (List.mem_cons_of_mem _ hb)
    rw [readAttributes_cons (hnames a List.mem_cons_self) hnames' hapart, ih hnames' hsep]
    rfl

/-- Otherwise the first bare attribute that is not apart from the next gets a value. -/
theorem readAttributes_slip {found : List Attribute} {closes : Bool} {after : List Char}
    (hnames : ∀ a ∈ attributes, a.NameReadable) (hsep : ¬ Separable attributes)
    (h : readAttributes decode name tag (tagRest decode attributes selfClosing rest) =
      .ok (found, closes, after)) :
    ∃ first bare others v more, attributes = first ++ ⟨bare, none⟩ :: others ∧
      found = first.map (Attribute.reread decode) ++ ⟨bare, some v⟩ :: more := by
  induction attributes generalizing found with
  | nil => exact absurd List.isChain_nil hsep
  | cons a attributes ih =>
    have ha := hnames a List.mem_cons_self
    have hnames' : ∀ b ∈ attributes, b.NameReadable := fun b hb => hnames b (List.mem_cons_of_mem _ hb)
    by_cases hapart : ∀ b ∈ attributes.head?, a.Apart b
    · -- The slip comes later.
      have hsep' : ¬ Separable attributes := fun hs => hsep (List.isChain_cons.2 ⟨hapart, hs⟩)
      rw [readAttributes_cons ha hnames' hapart] at h
      obtain ⟨⟨more, closes', after'⟩, hmore, heq⟩ := map_eq_ok_iff.1 h
      cases heq
      obtain ⟨first, bare, others, v, more', rfl, rfl⟩ := ih hnames' hsep' hmore
      exact ⟨a :: first, bare, others, v, more', rfl, rfl⟩
    · -- This one takes the next for its value.
      obtain ⟨c, s, hname, hc, hs⟩ := ha
      have hvalue : a.value = none := by
        by_contra hne
        exact hapart fun b _ hb => absurd hb hne
      have hsome : strip? ['='] (trimStart (tagRest decode attributes selfClosing rest)) ≠ none :=
        fun hnone => hapart ((strip?_tagRest hvalue hnames').1 hnone)
      obtain ⟨t, ht⟩ := Option.ne_none_iff_exists'.1 hsome
      obtain ⟨-, hslash, hend⟩ := isTagNameChar_iff.1 hc
      rw [readAttributes_attribute (trimStart_tagRest_cons hname hc) hend hslash,
        valueChars_bare decode hvalue, List.nil_append] at h
      obtain ⟨⟨b, after'⟩, hb, h⟩ := bind_eq_ok_iff.1 h
      obtain ⟨v, rfl⟩ := readAttribute_slip hname hs ht hb
      obtain ⟨_, -, heq⟩ := map_eq_ok_iff.1 h
      cases heq
      refine ⟨[], a.name, attributes, v, _, ?_, rfl⟩
      rw [List.nil_append, ← hvalue]

end GridMarkup
