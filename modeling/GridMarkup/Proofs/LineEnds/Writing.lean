import GridMarkup.Proofs.LineEnds.Reading

/-!
# Line endings in what is written

Tokens with the other line ending are written as the same markup with the other line ending.
-/

namespace GridMarkup

open Text
open Token (attributeChars startTagChars writeFrom)

variable {s : List Char} {t : Token} {tag : StartTag} {tokens : List Token}

theorem IsTagName.onLine {name : String} (h : IsTagName name) : '\n' ∉ name.toList := by
  intro hmem
  exact absurd (h.2 _ hmem) (by decide)

theorem Attribute.NameReadable.onLine {a : Attribute} (h : a.NameReadable) :
    '\n' ∉ a.name.toList := by
  obtain ⟨c, s, hname, hc, hs⟩ := h
  intro hmem
  rw [hname] at hmem
  rcases List.mem_cons.1 hmem with rfl | hmem
  · exact absurd hc (by decide)
  · exact absurd (hs _ hmem) (by decide)

theorem escapedValue_crlf (ampersand : Bool) (s : List Char) :
    escapedValue ampersand (crlf s) = crlf (escapedValue ampersand s) := by
  induction s with
  | nil => rfl
  | cons c s ih =>
    have hcons (c : Char) (s : List Char) :
        escapedValue ampersand (c :: s) =
          escapedValue ampersand [c] ++ escapedValue ampersand s := by
      rw [← List.singleton_append]
      exact List.flatMap_append
    by_cases hc : c = '\n'
    · subst hc
      have hend : escapedValue ampersand ['\r'] = ['\r'] ∧
          escapedValue ampersand ['\n'] = ['\n'] := by
        cases ampersand <;> decide
      rw [crlf_feed, hcons '\r', hcons '\n', hcons '\n', ih, hend.1, hend.2]
      rfl
    · have hline : '\n' ∉ escapedValue ampersand [c] := by
        simp only [escapedValue, List.flatMap_cons, List.flatMap_nil, List.append_nil]
        split
        · decide
        · split
          · decide
          · simpa using Ne.symm hc
      rw [crlf_cons hc, hcons, hcons c s, ih, crlf_line_append hline]

theorem attributeChars_crlf {a : Attribute} (ha : a.NameReadable) (escape : Bool) :
    attributeChars escape a.crlf = crlf (attributeChars escape a) := by
  have hname : '\n' ∉ ' ' :: a.name.toList := by
    simpa using ha.onLine
  unfold attributeChars
  rw [crlf_line_append hname]
  cases hvalue : a.value with
  | none => simp [Attribute.crlf, hvalue]
  | some value =>
    have hequals : crlf "=\"".toList = "=\"".toList := rfl
    have hquote : crlf ['"'] = ['"'] := rfl
    simp only [Attribute.crlf, hvalue, Option.map_some, toList_crlfString, escapedValue_crlf,
      crlf_append, hequals, hquote]

theorem flatMap_attributeChars_crlf {attributes : List Attribute}
    (hnames : ∀ a ∈ attributes, a.NameReadable) (escape : Bool) :
    (attributes.map Attribute.crlf).flatMap (attributeChars escape) =
      crlf (attributes.flatMap (attributeChars escape)) := by
  induction attributes with
  | nil => rfl
  | cons a attributes ih =>
    obtain ⟨ha, hrest⟩ := List.forall_mem_cons.1 hnames
    rw [List.map_cons, List.flatMap_cons, List.flatMap_cons, attributeChars_crlf ha, ih hrest,
      crlf_append]

theorem startTagChars_crlf (ht : (Token.startTag tag).Writable) (escape : Bool) :
    startTagChars escape tag.crlf = crlf (startTagChars escape tag) := by
  have hname : '\n' ∉ '<' :: tag.name.toList := by
    simpa using ht.1.onLine
  have hclose : '\n' ∉ (if tag.selfClosing then " />" else ">").toList := by
    split <;> decide
  unfold startTagChars
  rw [List.append_assoc, List.append_assoc, crlf_line_append hname, crlf_append,
    crlf_of_not_mem hclose, ← flatMap_attributeChars_crlf ht.2]
  rfl

theorem chars_crlf (ht : t.Writable) (raw : Bool) :
    t.crlf.chars false raw = crlf (t.chars false raw) := by
  cases t with
  | startTag tag => exact startTagChars_crlf ht false
  | endTag name =>
    change "</".toList ++ name.toList ++ ['>'] = crlf ("</".toList ++ name.toList ++ ['>'])
    rw [List.append_assoc, crlf_line_append (by decide), crlf_line_append ht.onLine]
    rfl
  | text s => exact toList_crlfString s
  | comment s =>
    change "<!--".toList ++ (crlfString s).toList ++ "-->".toList =
      crlf ("<!--".toList ++ s.toList ++ "-->".toList)
    rw [toList_crlfString, crlf_append, crlf_line_append (by decide)]
    rfl
  | declaration s =>
    change "<!".toList ++ (crlfString s).toList ++ ['>'] = crlf ("<!".toList ++ s.toList ++ ['>'])
    rw [toList_crlfString, crlf_append, crlf_line_append (by decide)]
    rfl

theorem rawAfter_crlf (t : Token) (raw : Bool) : t.crlf.rawAfter raw = t.rawAfter raw := by
  cases t <;> rfl

theorem writeFrom_crlf (hw : ∀ t ∈ tokens, t.Writable) (raw : Bool) :
    writeFrom false raw (tokens.map Token.crlf) = crlf (writeFrom false raw tokens) := by
  induction tokens generalizing raw with
  | nil => rfl
  | cons t tokens ih =>
    obtain ⟨ht, hrest⟩ := List.forall_mem_cons.1 hw
    rw [List.map_cons, writeFrom, chars_crlf ht, rawAfter_crlf, ih hrest, ← crlf_append, writeFrom]

end GridMarkup
