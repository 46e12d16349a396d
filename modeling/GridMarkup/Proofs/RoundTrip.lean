import GridMarkup.Compile
import GridMarkup.Proofs.Document

/-!
# Reading undoes writing

Well-formed tokens come back one for one: with references decoded on the way in and escaped on the
way out, whatever their texts and values are, and else where these need no escaping.
-/

namespace GridMarkup

open Text Scan Token Element

/-! ## Well-formed tokens -/

/-- Names are spelled as such, and comments and declarations do not hold their own end. -/
def Token.WellFormed : Token → Prop
  | .startTag tag =>
    IsTagName tag.name ∧
      ∀ a ∈ tag.attributes, a.name ≠ "" ∧ ∀ c ∈ a.name.toList, isAttributeNameChar c = true
  | .endTag name => IsTagName name
  | .text _ => True
  | .comment s => ¬ "-->".toList <:+: s.toList
  | .declaration s => '>' ∉ s.toList ∧ ¬ "--".toList <+: s.toList

structure WellFormed (tokens : List Token) : Prop where
  spaced : Spaced tokens
  token : ∀ t ∈ tokens, t.WellFormed
  rawFramed : RawFramed false tokens

variable {tokens : List Token}

theorem Token.WellFormed.writable {t : Token} (h : t.WellFormed) : t.Writable := by
  cases t with
  | startTag tag =>
    refine ⟨h.1, ?_⟩
    intro a ha
    obtain ⟨hne, hchars⟩ := h.2 a ha
    exact Attribute.nameReadable_of_chars hne hchars
  | _ => exact h

theorem Token.WellFormed.separable {tag : StartTag} (h : (Token.startTag tag).WellFormed) :
    Separable tag.attributes := by
  apply separable_of_names
  intro a ha heq
  have hequals : isAttributeNameChar '=' = true := (h.2 a ha).2 _ (List.mem_of_mem_head? heq)
  exact absurd hequals (by decide)

theorem WellFormed.scan_writeFrom {decode : Bool} (h : WellFormed tokens)
    (hplain : decode = false → PlainTexts false tokens) :
    scan decode (writeFrom decode false tokens) = .ok (tokens.map (Token.reread decode)) :=
  scan_writeFrom_separable ⟨fun t ht => (h.token t ht).writable, h.spaced, h.rawFramed⟩ hplain
    fun _ htag => (h.token _ htag).separable

theorem map_reread_true (tokens : List Token) : tokens.map (Token.reread true) = tokens := by
  have hid (t : Token) : t.reread true = t := by
    cases t with
    | startTag tag =>
      have hmap : tag.attributes.map (Attribute.reread true) = tag.attributes :=
        List.map_id'' Attribute.reread_true _
      rw [Token.reread, StartTag.reread, hmap]
    | _ => rfl
  exact List.map_id'' hid tokens

theorem map_reread_false
    (h : ∀ tag, Token.startTag tag ∈ tokens → ∀ a ∈ tag.attributes, '"' ∉ a.text.toList) :
    tokens.map (Token.reread false) = tokens := by
  refine (List.map_congr_left ?_).trans (List.map_id tokens)
  intro t ht
  cases t with
  | startTag tag =>
    have hmap : tag.attributes.map (Attribute.reread false) = tag.attributes := by
      refine (List.map_congr_left ?_).trans (List.map_id _)
      intro a ha
      exact Attribute.reread_false (h tag ht a ha)
    rw [Token.reread, StartTag.reread, hmap]
    rfl
  | _ => rfl

/-! ## The round trip -/

theorem readTokens_write (h : WellFormed tokens) :
    readTokens true (write true tokens) = .ok tokens ∧
      ((∀ tag, Token.startTag tag ∈ tokens → ∀ a ∈ tag.attributes, '"' ∉ a.text.toList) →
        PlainTexts false tokens → readTokens false (write false tokens) = .ok tokens) := by
  constructor
  · have hscan : scan true (writeFrom true false tokens) = _ := h.scan_writeFrom (by simp)
    rw [map_reread_true] at hscan
    rw [readTokens, write, String.toList_ofList, hscan]
  · intro hquotes hplain
    have hscan : scan false (writeFrom false false tokens) = _ :=
      h.scan_writeFrom fun _ => hplain
    rw [map_reread_false hquotes] at hscan
    rw [readTokens, write, String.toList_ofList, hscan]

/-- A script between markup of every other kind. Its text only looks like its end. -/
def scriptPage : List Token :=
  [.declaration "DOCTYPE html", .comment " -- >",
    .startTag ⟨"Script", [⟨"defer", none⟩, ⟨"src", some "a b/c.js"⟩], false⟩,
    .text "if (a<b) </scripted>", .endTag "SCRIPT", .text "a < b &amp; c",
    .startTag ⟨"br", [⟨"class", some ""⟩], true⟩]

theorem wellFormed_scriptPage : WellFormed scriptPage where
  spaced := by simp [scriptPage, Spaced]
  token := by
    have hscript : IsTagName "Script" := isTagName_of_cons rfl (by decide) (by decide)
    have hend : IsTagName "SCRIPT" := isTagName_of_cons rfl (by decide) (by decide)
    have hbreak : IsTagName "br" := isTagName_of_cons rfl (by decide) (by decide)
    have hnames : ∀ name ∈ ["defer", "src", "class"],
        name ≠ "" ∧ name.toList.all isAttributeNameChar = true := by decide
    have hattribute {a : Attribute} (ha : a.name ∈ ["defer", "src", "class"]) :
        a.name ≠ "" ∧ ∀ c ∈ a.name.toList, isAttributeNameChar c = true := by
      obtain ⟨hne, hchars⟩ := hnames _ ha
      exact ⟨hne, List.all_eq_true.1 hchars⟩
    intro t ht
    simp only [scriptPage, List.mem_cons, List.not_mem_nil, or_false] at ht
    rcases ht with rfl | rfl | rfl | rfl | rfl | rfl | rfl
    · exact ⟨by decide, by decide⟩
    · change ¬ "-->".toList <:+: " -- >".toList
      decide
    · refine ⟨hscript, List.forall_mem_cons.2 ⟨hattribute (by simp), ?_⟩⟩
      exact List.forall_mem_singleton.2 (hattribute (by simp))
    · trivial
    · exact hend
    · trivial
    · exact ⟨hbreak, List.forall_mem_singleton.2 (hattribute (by simp))⟩
  rawFramed := by
    have htext : ¬ HoldsEndTag "Script".toList "if (a<b) </scripted>".toList :=
      (avoids_endsRawText_iff (by decide) : Avoids _ _ ['<'] ↔ _).1 (by decide)
    have hframed : RawFramed false
        (.startTag ⟨"Script", [⟨"defer", none⟩, ⟨"src", some "a b/c.js"⟩], false⟩ ::
          (textTokens false "if (a<b) </scripted>".toList ++ [.endTag "SCRIPT",
            .text "a < b &amp; c", .startTag ⟨"br", [⟨"class", some ""⟩], true⟩])) :=
      .element (by decide) (by decide) htext (.cons rfl (.cons rfl (.cons rfl .nil)))
    rw [textTokens_false (by decide)] at hframed
    exact .cons rfl (.cons rfl hframed)

theorem readTokens_write_scriptPage :
    readTokens true (write true scriptPage) = .ok scriptPage ∧
      readTokens false (write false scriptPage) = .ok scriptPage := by
  obtain ⟨hdecoded, hverbatim⟩ := readTokens_write wellFormed_scriptPage
  refine ⟨hdecoded, hverbatim ?_ (by decide)⟩
  intro tag htag
  simp only [scriptPage, List.mem_cons, List.not_mem_nil, or_false, reduceCtorEq, false_or] at htag
  rcases htag with htag | htag <;> (cases htag; decide)

end GridMarkup
