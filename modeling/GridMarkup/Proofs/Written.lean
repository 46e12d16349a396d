import GridMarkup.Proofs.Attributes
import GridMarkup.Proofs.Extending

/-!
# Reading one written token

Each token is read back from where it was written, whatever follows. Only a start tag may come back
with other attributes.
-/

namespace GridMarkup

open Text Scan Token Element

/-! ## Tokens that can be written -/

/-- A letter, then no blank, no `/` and no `>`. -/
def IsTagName (name : String) : Prop :=
  (∃ c s, name.toList = c :: s ∧ c.isAlpha = true) ∧ ∀ c ∈ name.toList, isTagNameChar c = true

/-- Names that can be read, and contents that do not hold their own end. -/
def Token.Writable : Token → Prop
  | .startTag tag => IsTagName tag.name ∧ ∀ a ∈ tag.attributes, a.NameReadable
  | .endTag name => IsTagName name
  | .text _ => True
  | .comment s => ¬ "-->".toList <:+: s.toList
  | .declaration s => '>' ∉ s.toList ∧ ¬ "--".toList <+: s.toList

theorem isTagName_of_cons {name : String} {c : Char} {s : List Char} (hname : name.toList = c :: s)
    (hc : c.isAlpha = true) (hs : (c :: s).all isTagNameChar = true) : IsTagName name := by
  refine ⟨⟨c, s, hname, hc⟩, ?_⟩
  rw [hname]
  exact List.all_eq_true.1 hs

theorem isBlank_of_isAlpha {c : Char} (hc : c.isAlpha = true) : isBlank c = false :=
  isBlank_of_isAlphanum (by rw [Char.isAlphanum, hc, Bool.true_or])

theorem isTagNameChar_of_isAlpha {c : Char} (hc : c.isAlpha = true) : isTagNameChar c = true := by
  have hne := ne_of_isAlpha hc
  have hend : c ≠ '>' := by rintro rfl; exact absurd hc (by decide)
  simp [isTagNameChar, isBlank_of_isAlpha hc, hne.2, hend]

variable {decode raw : Bool} {name rest : List Char} {tag read : StartTag} {t : Token}

/-! ## Every token but a start tag -/

theorem readComment_written {s : List Char} (h : ¬ "-->".toList <:+: s) (rest : List Char) :
    readComment ("<!--".toList ++ s ++ "-->".toList ++ rest) =
      .ok ([.comment (String.ofList s)], rest) := by
  have hdrop : ("<!--".toList ++ s ++ "-->".toList ++ rest).drop 4 =
      s ++ ("-->".toList ++ rest) := by simp
  rw [readComment, hdrop, cut?_of_avoids (avoids_commentEnd h)]

theorem readDeclaration_written {s : List Char} (h : '>' ∉ s) (rest : List Char) :
    readDeclaration ("<!".toList ++ s ++ ['>'] ++ rest) =
      .ok ([.declaration (String.ofList s)], rest) := by
  have hdrop : ("<!".toList ++ s ++ ['>'] ++ rest).drop 2 = s ++ '>' :: rest := by simp
  rw [readDeclaration, hdrop, cut?_singleton h]

theorem readEndTag_written (hname : ∀ c ∈ name, isTagNameChar c = true) (rest : List Char) :
    readEndTag ("</".toList ++ name ++ ['>'] ++ rest) =
      .ok ([.endTag (String.ofList name)], rest) := by
  have hdrop : ("</".toList ++ name ++ ['>'] ++ rest).drop 2 = name ++ '>' :: rest := by simp
  have hstop : isTagNameChar '>' = false := by decide
  have hcut : cut? ['>'] ('>' :: rest) = some ([], rest) := cut?_singleton (s := []) (by simp)
  rw [readEndTag, hdrop]
  simp only [takeWhile_append_stop hname hstop, dropWhile_append_stop hname hstop, hcut]

/-- A written construct begins where it is written. -/
theorem construct?_chars (ht : t.Writable) (htext : ∀ s, t ≠ .text s) (rest : List Char) :
    (construct? (t.chars decode raw ++ rest)).isSome = true := by
  cases t with
  | text s => exact absurd rfl (htext s)
  | comment s =>
    exact isSome_construct?_iff.2 (.inl (by simp [Token.chars]))
  | declaration s =>
    exact isSome_construct?_iff.2 (.inl (by simp [Token.chars]))
  | endTag name =>
    obtain ⟨⟨c, s, hcs, hc⟩, -⟩ := ht
    exact isSome_construct?_iff.2 (.inr ⟨c, hc, .inr (by simp [Token.chars, hcs])⟩)
  | startTag tag =>
    obtain ⟨⟨⟨c, s, hcs, hc⟩, -⟩, -⟩ := ht
    exact isSome_construct?_iff.2 (.inr ⟨c, hc, .inl (by simp [Token.chars, startTagChars, hcs])⟩)

theorem scan_comment {s : String} (h : ¬ "-->".toList <:+: s.toList) (rest : List Char) :
    scan decode ((Token.comment s).chars decode raw ++ rest) =
      (scan decode rest).map ([.comment s] ++ ·) := by
  have hread := readComment_written h rest
  rw [String.ofList_toList] at hread
  have hconstruct : construct? ("<!--".toList ++ s.toList ++ "-->".toList ++ rest) =
      some .comment := rfl
  rw [Token.chars, scan_construct hconstruct, readConstruct, hread]
  rfl

theorem scan_declaration {s : String} (h : '>' ∉ s.toList) (hs : ¬ "--".toList <+: s.toList)
    (rest : List Char) :
    scan decode ((Token.declaration s).chars decode raw ++ rest) =
      (scan decode rest).map ([.declaration s] ++ ·) := by
  have hread := readDeclaration_written h rest
  rw [String.ofList_toList] at hread
  have hdashes : ¬ "--".toList <+: s.toList ++ '>' :: rest := by
    rw [prefix_append_cons_iff (by decide)]
    exact hs
  have hconstruct : construct? ("<!".toList ++ s.toList ++ ['>'] ++ rest) = some .declaration := by
    simpa using construct?_declaration hdashes
  rw [Token.chars, scan_construct hconstruct, readConstruct, hread]
  rfl

theorem scan_endTag {name : String} (h : IsTagName name) (rest : List Char) :
    scan decode ((Token.endTag name).chars decode raw ++ rest) =
      (scan decode rest).map ([.endTag name] ++ ·) := by
  obtain ⟨⟨c, s, hcs, hc⟩, hname⟩ := h
  have hread := readEndTag_written hname rest
  rw [String.ofList_toList] at hread
  have hconstruct : construct? ("</".toList ++ name.toList ++ ['>'] ++ rest) = some .endTag := by
    rw [hcs]
    exact construct?_endTag hc _
  rw [Token.chars, scan_construct hconstruct, readConstruct, hread]
  rfl

theorem textTokens_escapedText {s : String} (hs : s ≠ "") :
    textTokens true (escapedText s.toList) = [.text s] := by
  have hne : escapedText s.toList ≠ [] := fun h => hs (String.toList_eq_nil_iff.1 (escapedText_eq_nil h))
  unfold textTokens spelled
  rw [if_neg (by simpa using hne), if_pos rfl, decode_escapedText, String.ofList_toList]

theorem textTokens_false {s : String} (hs : s ≠ "") : textTokens false s.toList = [.text s] := by
  unfold textTokens spelled
  rw [if_neg (by simpa using hs), if_neg (by simp), String.ofList_toList]

/-- Text is read back where it is escaped, or begins no construct. -/
theorem scan_text_written {s : String} (hs : s ≠ "") (hplain : decode = false → Plain s.toList)
    (hrest : AtConstruct rest) :
    scan decode ((Token.text s).chars decode false ++ rest) =
      (scan decode rest).map ([.text s] ++ ·) := by
  cases decode with
  | true =>
    have hescaped : Plain (escapedText s.toList) := plain_of_lt_not_mem (lt_not_mem_escapedText _)
    rw [← textTokens_escapedText hs]
    exact scan_text hescaped hrest
  | false =>
    rw [← textTokens_false hs]
    exact scan_text (hplain rfl) hrest

/-! ## Start tags -/

theorem startTagChars_eq (decode : Bool) (tag : StartTag) :
    startTagChars decode tag ++ rest =
      '<' :: (tag.name.toList ++ tagRest decode tag.attributes tag.selfClosing rest) := by
  simp [startTagChars, tagRest]

theorem readStartTag_written (hname : IsTagName tag.name) (rest : List Char) :
    ∃ opening, readStartTag decode (startTagChars decode tag ++ rest) =
      (readAttributes decode tag.name.toList opening
        (tagRest decode tag.attributes tag.selfClosing rest)).map
          fun (found, closes, after) => (⟨tag.name, found, closes⟩, after) := by
  obtain ⟨c, s, hcs, hc⟩ := tagRest_stops decode tag.selfClosing tag.attributes rest
  refine ⟨⟨'<' :: tag.name.toList, startTagChars decode tag ++ rest⟩, ?_⟩
  rw [startTagChars_eq, readStartTag]
  simp only [List.drop_succ_cons, List.drop_zero]
  rw [hcs, takeWhile_append_stop hname.2 hc, dropWhile_append_stop hname.2 hc]
  generalize readAttributes decode tag.name.toList _ _ = result
  cases result with
  | error fault => rfl
  | ok result => simp [Except.map, String.ofList_toList]

def StartTag.reread (decode : Bool) (tag : StartTag) : StartTag :=
  { tag with attributes := tag.attributes.map (Attribute.reread decode) }

theorem startTagChars_reread (decode : Bool) (tag : StartTag) :
    startTagChars decode (tag.reread decode) = startTagChars decode tag := by
  simp only [startTagChars, StartTag.reread, flatMap_reread]
  rfl

theorem readStartTag_separable (ht : (Token.startTag tag).Writable)
    (hsep : Separable tag.attributes) (rest : List Char) :
    readStartTag decode (startTagChars decode tag ++ rest) = .ok (tag.reread decode, rest) := by
  obtain ⟨opening, hread⟩ := readStartTag_written ht.1 rest
  rw [hread, readAttributes_tagRest ht.2 hsep]
  rfl

/-- A tag that is not separable comes back with a value that it did not have. -/
theorem readStartTag_slip (ht : (Token.startTag tag).Writable)
    (hsep : ¬ Separable tag.attributes) {after : List Char}
    (h : readStartTag decode (startTagChars decode tag ++ rest) = .ok (read, after))
    (x y : List Char) :
    startTagChars decode read ++ x ≠ startTagChars decode tag ++ y := by
  obtain ⟨opening, hread⟩ := readStartTag_written ht.1 rest
  rw [hread] at h
  obtain ⟨⟨attributes, closes, after'⟩, hfound, heq⟩ := map_eq_ok_iff.1 h
  cases heq
  obtain ⟨first, bare, others, v, more, hbare, hvalue⟩ := readAttributes_slip ht.2 hsep hfound
  obtain ⟨c, s, hcs, hc⟩ := tagRest_stops decode tag.selfClosing others y
  rw [startTagChars_eq, startTagChars_eq, hbare]
  simp only [hvalue, tagRest_append, tagRest_cons, flatMap_reread, attributeChars_eq]
  rw [@valueChars_bare decode ⟨bare, none⟩ rfl, @valueChars_value decode ⟨bare, some v⟩ v rfl, hcs]
  intro heq
  -- On one side stands an equals sign, on the other what ends a name.
  simp only [List.cons.injEq, List.append_cancel_left_eq, List.append_assoc, List.cons_append,
    List.append_nil, true_and] at heq
  cases heq
  exact absurd hc (by decide)

/-- The tag by itself is read as one whole tag, which opens raw text if and only if it does. -/
def StartTag.Whole (decode : Bool) (tag : StartTag) : Prop :=
  ∃ read, readStartTag decode (startTagChars decode tag) = .ok (read, []) ∧
    opensRawText read = opensRawText tag

theorem StartTag.whole_iff :
    tag.Whole decode ↔ (readStartTag decode (startTagChars decode tag)).map
      (fun (read, rest) => (opensRawText read, rest)) = .ok (opensRawText tag, []) := by
  unfold StartTag.Whole
  generalize readStartTag decode (startTagChars decode tag) = result
  constructor
  · rintro ⟨read, rfl, hopens⟩
    exact congrArg (fun opens => Except.ok (opens, [])) hopens
  · intro h
    cases result with
    | error fault => cases h
    | ok result =>
      have hok : (opensRawText result.1, result.2) = (opensRawText tag, []) := Except.ok.inj h
      have hrest : result.2 = [] := congrArg Prod.snd hok
      exact ⟨result.1, by rw [← hrest], congrArg Prod.fst hok⟩

instance (decode : Bool) (tag : StartTag) : Decidable (tag.Whole decode) :=
  decidable_of_iff _ StartTag.whole_iff.symm

theorem readStartTag_whole (h : readStartTag decode (startTagChars decode tag) = .ok (read, []))
    (rest : List Char) :
    readStartTag decode (startTagChars decode tag ++ rest) = .ok (read, rest) :=
  readStartTag_append h (by simp [startTagChars]) rest

theorem StartTag.name_of_read (ht : (Token.startTag tag).Writable) {after : List Char}
    (h : readStartTag decode (startTagChars decode tag ++ rest) = .ok (read, after)) :
    read.name = tag.name := by
  obtain ⟨opening, hread⟩ := readStartTag_written ht.1 rest
  rw [hread] at h
  cases hfound : readAttributes decode tag.name.toList opening
    (tagRest decode tag.attributes tag.selfClosing rest) with
  | error fault => rw [hfound] at h; cases h
  | ok result => rw [hfound] at h; cases h; rfl

theorem StartTag.whole_of_separable (ht : (Token.startTag tag).Writable)
    (hsep : Separable tag.attributes) : tag.Whole decode := by
  refine ⟨tag.reread decode, ?_, rfl⟩
  rw [← List.append_nil (startTagChars decode tag)]
  exact readStartTag_separable ht hsep []

end GridMarkup
