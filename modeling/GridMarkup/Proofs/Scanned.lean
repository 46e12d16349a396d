import GridMarkup.Compile
import GridMarkup.Proofs.Document
import Mathlib.Data.List.TakeWhile

/-!
# What the reader finds

The tokens of any source can be written: their names can be read, raw text is framed, and texts
stand apart.
-/

namespace GridMarkup

open Text Scan Token Element

variable {decode : Bool} {s rest after name : List Char} {tag : StartTag} {t : Token}
  {tokens found more : List Token}

/-! ## Names -/

theorem readAttribute_name {opening : Opening} {c : Char} {a : Attribute}
    (hc : isTagNameChar c = true) (h : readAttribute decode opening c s = .ok (a, after)) :
    a.NameReadable := by
  have hname : a.name = String.ofList (c :: s.takeWhile isAttributeNameChar) := by
    simp only [readAttribute] at h
    split at h
    · cases h; rfl
    · split at h
      · cases h
      · cases h; rfl
  exact ⟨c, _, by rw [hname, String.toList_ofList], hc, fun d hd => List.mem_takeWhile_imp hd⟩

theorem trimStart_head {c : Char} (h : trimStart s = c :: after) : isBlank c = false := by
  have hne : s.dropWhile isBlank ≠ [] := by
    intro hnil
    rw [trimStart, hnil] at h
    cases h
  have hhead := List.head_dropWhile_not isBlank hne
  simp only [trimStart] at h
  simpa [h] using hhead

theorem readAttributes_names {opening : Opening} {attributes : List Attribute} {closes : Bool}
    (h : readAttributes decode name opening s = .ok (attributes, closes, after)) :
    ∀ a ∈ attributes, a.NameReadable := by
  fun_induction readAttributes decode name opening s generalizing attributes closes after with
  | case1 => cases h
  | case2 => cases h; simp
  | case3 => cases h; simp
  | case4 s t _ _ _ ih => exact ih h
  | case5 => cases h
  | case6 => cases h
  | case7 s c t heq hend hslash a rest ha more closes' rest' hmore ih =>
    cases h
    have hc : isTagNameChar c = true := isTagNameChar_iff.2 ⟨trimStart_head heq, hslash, hend⟩
    intro b hb
    rcases List.mem_cons.1 hb with rfl | hb
    · exact readAttribute_name hc ha
    · exact ih hmore b hb

theorem isTagName_takeWhile {c : Char} (hc : c.isAlpha = true) (s : List Char) :
    IsTagName (String.ofList ((c :: s).takeWhile isTagNameChar)) := by
  rw [List.takeWhile_cons_of_pos (isTagNameChar_of_isAlpha hc)]
  refine ⟨⟨c, _, String.toList_ofList, hc⟩, ?_⟩
  rw [String.toList_ofList, ← List.takeWhile_cons_of_pos (isTagNameChar_of_isAlpha hc)]
  exact fun d hd => List.mem_takeWhile_imp hd

/-! ## Constructs -/

theorem construct?_startTag_inv (h : construct? s = some .startTag) :
    ∃ c t, s = '<' :: c :: t ∧ c.isAlpha = true := by
  unfold construct? at h
  split at h
  · cases h
  · cases h
  · split at h <;> cases h
  · next c t _ _ _ =>
    split at h
    · next hc => exact ⟨c, t, rfl, hc⟩
    · cases h
  · cases h

theorem construct?_endTag_inv (h : construct? s = some .endTag) :
    ∃ c t, s = '<' :: '/' :: c :: t ∧ c.isAlpha = true := by
  unfold construct? at h
  split at h
  · cases h
  · cases h
  · next c t =>
    split at h
    · next hc => exact ⟨c, t, rfl, hc⟩
    · cases h
  · split at h <;> cases h
  · cases h

theorem construct?_comment_inv (h : construct? s = some .comment) :
    ∃ t, s = '<' :: '!' :: '-' :: '-' :: t := by
  unfold construct? at h
  split at h
  · exact ⟨_, rfl⟩
  · cases h
  · split at h <;> cases h
  · split at h <;> cases h
  · cases h

theorem construct?_declaration_inv (h : construct? s = some .declaration) :
    ∃ t, s = '<' :: '!' :: t ∧ ¬ "--".toList <+: t := by
  unfold construct? at h
  split at h
  · cases h
  · next t hcomment =>
    refine ⟨t, rfl, ?_⟩
    rintro ⟨u, rfl⟩
    exact hcomment u rfl
  · split at h <;> cases h
  · split at h <;> cases h
  · cases h

theorem readStartTag_writable (hs : construct? s = some .startTag)
    (h : readStartTag decode s = .ok (tag, after)) : (Token.startTag tag).Writable := by
  obtain ⟨c, t, rfl, hc⟩ := construct?_startTag_inv hs
  simp only [readStartTag] at h
  split at h
  · cases h
  · next hattributes =>
    cases h
    exact ⟨isTagName_takeWhile hc t, readAttributes_names hattributes⟩

/-- A construct is one token, or a start tag with the raw text behind it. -/
theorem readConstruct_tokens {kind : Construct} (hs : construct? s = some kind)
    (h : readConstruct decode kind s = .ok (found, rest)) :
    (∃ t, found = [t] ∧ t.Writable ∧ t.rawAfter false = false ∧ ∀ s, t ≠ .text s) ∨
      ∃ tag after, readStartTag decode s = .ok (tag, after) ∧ (Token.startTag tag).Writable ∧
        opensRawText tag = true ∧ found = .startTag tag :: textTokens false (rawRun tag after).1 ∧
        rest = (rawRun tag after).2 := by
  cases kind with
  | comment =>
    simp only [readConstruct, readComment] at h
    split at h
    · next body _ hcut =>
      cases h
      refine .inl ⟨_, rfl, ?_, rfl, by rintro s ⟨⟩⟩
      change ¬ "-->".toList <:+: (String.ofList body).toList
      have hbody : (String.ofList body).toList = body := String.toList_ofList
      rw [hbody]
      exact not_infix_of_cut? (by decide) hcut
    · cases h
  | declaration =>
    obtain ⟨t, rfl, hdashes⟩ := construct?_declaration_inv hs
    simp only [readConstruct, readDeclaration, List.drop_succ_cons, List.drop_zero] at h
    split at h
    · next body _ hcut =>
      cases h
      refine .inl ⟨_, rfl, ?_, rfl, by rintro s ⟨⟩⟩
      change '>' ∉ (String.ofList body).toList ∧ ¬ "--".toList <+: (String.ofList body).toList
      have hbody : (String.ofList body).toList = body := String.toList_ofList
      rw [hbody]
      refine ⟨not_mem_of_cut? hcut, fun hpre => hdashes ?_⟩
      rw [eq_of_cut? hcut]
      exact hpre.trans (List.prefix_append _ _)
    · cases h
  | endTag =>
    obtain ⟨c, t, rfl, hc⟩ := construct?_endTag_inv hs
    simp only [readConstruct, readEndTag, List.drop_succ_cons, List.drop_zero] at h
    split at h
    · cases h
      exact .inl ⟨_, rfl, isTagName_takeWhile hc t, rfl, by rintro s ⟨⟩⟩
    · cases h
  | startTag =>
    simp only [readConstruct, readStart] at h
    split at h
    · cases h
    · next tag after hread =>
      have hw := readStartTag_writable hs hread
      split at h
      · next hopens =>
        cases h
        exact .inr ⟨tag, after, hread, hw, hopens, rfl, rfl⟩
      · next hopens =>
        cases h
        exact .inl ⟨_, rfl, hw, by simpa [rawAfter] using hopens, by rintro s ⟨⟩⟩

/-! ## Behind raw text -/

theorem isAlpha_of_toLower {c : Char} (h : c.toLower.isAlpha = true) : c.isAlpha = true := by
  by_cases hc : c.isUpper = true
  · change (c.isUpper || c.isLower) = true
    rw [hc, Bool.true_or]
  · have hrange : ¬ ('A'.val ≤ c.val ∧ c.val ≤ 'Z'.val) := by
      intro hrange
      exact hc (decide_eq_true hrange)
    have hlower : c.toLower = c := dif_neg hrange
    rwa [hlower] at h

/-- The name of a raw text element, in any ASCII case, consists of letters. -/
theorem isAlpha_of_lower {n : List Char} (hraw : isRawText (String.ofList name) = true)
    (hn : lower n = lower name) : n ≠ [] ∧ ∀ c ∈ n, c.isAlpha = true := by
  have hletters : lower n ≠ [] ∧ (lower n).all Char.isAlpha = true := by
    rw [hn]
    rcases lower_of_isRawText hraw with hlower | hlower
    · rw [hlower]
      decide
    · rw [hlower]
      decide
  constructor
  · rintro rfl
    exact hletters.1 rfl
  · intro c hc
    apply isAlpha_of_toLower
    exact List.all_eq_true.1 hletters.2 _ (List.mem_map.2 ⟨c, hc, rfl⟩)

theorem isTagNameChar_of_endsName {c : Char} (h : EndsName c) : isTagNameChar c = false := by
  rcases h with rfl | rfl | h
  · decide
  · decide
  · simp [isTagNameChar, isBlank_of_isAsciiSpace h]

theorem construct?_endsRawText (hraw : isRawText (String.ofList name) = true)
    (hs : endsRawText name s = true) : construct? s = some .endTag := by
  obtain ⟨n, hn, hcases⟩ := endsRawText_iff.1 hs
  obtain ⟨hne, halpha⟩ := isAlpha_of_lower hraw hn
  obtain ⟨c, m, rfl⟩ := List.exists_cons_of_ne_nil hne
  have hc : c.isAlpha = true := halpha c List.mem_cons_self
  rcases hcases with rfl | ⟨d, -, t, rfl⟩
  · exact construct?_endTag hc m
  · exact construct?_endTag hc _

/-- What ends raw text is read as the end tag of its element. -/
theorem scan_endsRawText (hraw : isRawText (String.ofList name) = true)
    (hs : endsRawText name s = true) (h : scan decode s = .ok tokens) :
    ∃ n more, tokens = .endTag n :: more ∧ lower n.toList = lower name := by
  obtain ⟨n, hn, hcases⟩ := endsRawText_iff.1 hs
  have hchars : ∀ c ∈ n, isTagNameChar c = true :=
    fun c hc => isTagNameChar_of_isAlpha ((isAlpha_of_lower hraw hn).2 c hc)
  have hname : (s.drop 2).takeWhile isTagNameChar = n := by
    rcases hcases with rfl | ⟨d, hd, t, rfl⟩
    · exact List.takeWhile_eq_self_iff.2 hchars
    · have hdrop : ("</".toList ++ n ++ [d] ++ t).drop 2 = n ++ d :: t := by simp
      rw [hdrop]
      exact takeWhile_append_stop hchars (isTagNameChar_of_endsName hd)
  rw [scan_construct (construct?_endsRawText hraw hs), readConstruct, readEndTag, hname] at h
  generalize cut? ['>'] ((s.drop 2).dropWhile isTagNameChar) = result at h
  cases result with
  | none => cases h
  | some result =>
    obtain ⟨more, -, rfl⟩ := map_eq_ok_iff.1 h
    exact ⟨_, more, rfl, by rw [String.toList_ofList]; exact hn⟩

/-! ## All tokens -/

theorem textTokens_eq (decode : Bool) (s : List Char) :
    textTokens decode s = [] ∨ ∃ t, textTokens decode s = [.text t] ∧ t ≠ "" ∧
      (decode = false → t.toList = s) := by
  unfold textTokens
  split
  · exact .inl rfl
  · next hs =>
    refine .inr ⟨_, rfl, ?_, ?_⟩
    · unfold spelled
      rw [ne_eq, String.ofList_eq_empty_iff]
      split
      · exact decode_ne_nil (by simpa using hs)
      · simpa using hs
    · rintro rfl
      simp [spelled]

theorem spaced_cons (hspaced : Spaced tokens) (ht : ∀ s, t ≠ .text s) : Spaced (t :: tokens) := by
  cases t with
  | text s => exact absurd rfl (ht s)
  | _ => exact hspaced

theorem spaced_rawText {text : List Char} (hspaced : Spaced tokens)
    (hhead : ∀ s, tokens.head? ≠ some (.text s)) :
    Spaced (.startTag tag :: (textTokens false text ++ tokens)) := by
  rcases textTokens_false_cases text with ⟨-, htokens⟩ | ⟨s, hs, -, htokens⟩
  · rw [htokens]
    exact hspaced
  · rw [htokens]
    exact ⟨hs, hhead, hspaced⟩

/-- Text goes in front of a construct. -/
theorem framed_textTokens {text : List Char} (h : Framed true tokens)
    (hplain : decode = false → PlainTexts false tokens) (htext : Plain text)
    (hhead : ∀ s, tokens.head? ≠ some (.text s)) :
    Framed true (textTokens decode text ++ tokens) ∧
      (decode = false → PlainTexts false (textTokens decode text ++ tokens)) := by
  rcases textTokens_eq decode text with htokens | ⟨t, htokens, ht, hverbatim⟩
  · rw [htokens]
    exact ⟨h, hplain⟩
  · rw [htokens]
    refine ⟨⟨?_, ⟨ht, hhead, h.spaced⟩, .cons rfl h.rawFramed⟩, ?_⟩
    · rintro u hu
      rcases List.mem_cons.1 hu with rfl | hu
      · trivial
      · exact h.writable u hu
    · intro hdecode
      exact ⟨fun _ => by rw [hverbatim hdecode]; exact htext, hplain hdecode⟩

theorem framed_rawText {text : List Char} (h : Framed true tokens)
    (hw : (Token.startTag tag).Writable) (hopens : opensRawText tag = true)
    (hrun : rawRun tag after = (text, rest)) (hmore : scan decode rest = .ok tokens) :
    Framed true (.startTag tag :: (textTokens false text ++ tokens)) ∧
      (PlainTexts false tokens →
        PlainTexts false (.startTag tag :: (textTokens false text ++ tokens))) := by
  have hraw := isRawText_of_opensRawText hopens
  have havoids : Avoids (endsRawText tag.name.toList) text rest := by
    have havoids := avoids_breakAt (endsRawText tag.name.toList) after
    rw [← rawRun, hrun] at havoids
    exact havoids
  have hrest : rest = [] ∨ endsRawText tag.name.toList rest = true := by
    have hrest := breakAt_rest (endsRawText tag.name.toList) after
    rw [← rawRun, hrun] at hrest
    exact hrest
  have hwritable : ∀ t ∈ Token.startTag tag :: (textTokens false text ++ tokens), t.Writable := by
    intro t ht
    rcases List.mem_cons.1 ht with rfl | ht
    · exact hw
    · rcases List.mem_append.1 ht with ht | ht
      · rcases textTokens_false_cases text with ⟨-, htokens⟩ | ⟨s, -, -, htokens⟩
        · simp [htokens] at ht
        · rw [htokens, List.mem_singleton] at ht
          subst ht
          trivial
      · exact h.writable t ht
  rcases hrest with rfl | hrest
  · -- The source ends in raw text.
    rw [scan_nil] at hmore
    cases hmore
    exact ⟨⟨hwritable, spaced_rawText h.spaced (by simp), .last rfl hopens havoids⟩,
      fun _ => (plainTexts_rawText hopens).2 trivial⟩
  · obtain ⟨n, more, rfl, hn⟩ := scan_endsRawText hraw hrest hmore
    obtain ⟨x, rfl⟩ : ∃ x, rest = '<' :: x := by
      obtain ⟨m, -, rfl | ⟨c, -, y, rfl⟩⟩ := endsRawText_iff.1 hrest
      · exact ⟨_, rfl⟩
      · exact ⟨_, rfl⟩
    refine ⟨⟨hwritable, spaced_rawText h.spaced (by simp), ?_⟩,
      fun hplain => (plainTexts_rawText hopens).2 hplain⟩
    exact .element hopens hn ((avoids_endsRawText_iff hraw).1 havoids) h.rawFramed

/-- Whatever the reader finds can be written. -/
theorem framed_scan (h : scan decode s = .ok tokens) :
    Framed true tokens ∧ (decode = false → PlainTexts false tokens) := by
  have hnil : Framed true [] := ⟨by simp, trivial, .nil⟩
  fun_induction scan decode s generalizing tokens with
  | case1 s hk =>
    cases h
    rw [← List.append_nil (textTokens _ _)]
    exact framed_textTokens hnil (fun _ => trivial) (plain_textRun s) (by simp)
  | case2 => cases h
  | case3 => cases h
  | case4 s kind hk found rest hr more hmore ih =>
    cases h
    obtain ⟨hframed, hplain⟩ := ih hmore
    rw [List.append_assoc]
    rcases readConstruct_tokens hk hr with
      ⟨t, rfl, ht, hraw, htext⟩ | ⟨tag, after, -, ht, hopens, rfl, hrest⟩
    · apply framed_textTokens _ _ (plain_textRun s)
      · intro u hu
        exact htext u (Option.some.inj hu)
      · refine ⟨?_, spaced_cons hframed.spaced htext, .cons hraw hframed.rawFramed⟩
        intro u hu
        rcases List.mem_cons.1 hu with rfl | hu
        · exact ht
        · exact hframed.writable u hu
      · intro hdecode
        cases t with
        | text s => exact absurd rfl (htext s)
        | _ =>
          rw [List.singleton_append, PlainTexts, hraw]
          · exact hplain hdecode
          · rintro s ⟨⟩
    · have hrun : rawRun tag after = ((rawRun tag after).1, rest) := by rw [hrest]
      obtain ⟨hframed', hplain'⟩ := framed_rawText hframed ht hopens hrun hmore
      exact framed_textTokens hframed' (fun hdecode => hplain' (hplain hdecode))
        (plain_textRun s) (by simp)

theorem readTokens_eq_ok_iff {source : String} :
    readTokens decode source = .ok tokens ↔ scan decode source.toList = .ok tokens := by
  rw [readTokens]
  cases scan decode source.toList with
  | ok found => exact ⟨fun h => congrArg _ (Except.ok.inj h), fun h => congrArg _ (Except.ok.inj h)⟩
  | error fault => exact ⟨nofun, nofun⟩

theorem readTokens_eq_error_iff {source : String} {d : Diagnostic} :
    readTokens decode source = .error d ↔
      ∃ fault, scan decode source.toList = .error fault ∧ d = fault.diagnostic source.toList := by
  rw [readTokens]
  cases scan decode source.toList with
  | ok tokens => exact ⟨nofun, nofun⟩
  | error fault =>
    constructor
    · rintro ⟨⟩
      exact ⟨fault, rfl, rfl⟩
    · rintro ⟨_, ⟨⟩, rfl⟩
      rfl

end GridMarkup
