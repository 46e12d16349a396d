import GridMarkup.Proofs.Scanned

/-!
# Tokens as pieces of the source

With references kept, the tokens of a source stand for its pieces in order. Every piece shows the
token that it is read as, and nothing of the source is left over.
-/

namespace GridMarkup

open Text Scan Token Element

/-- The piece of source that a token is read from. -/
def Token.Slice : Token → List Char → Prop
  | .text s, slice => slice = s.toList
  | .comment s, slice =>
    slice = "<!--".toList ++ s.toList ++ "-->".toList ∧ ¬ "-->".toList <:+: s.toList
  | .declaration s, slice => slice = "<!".toList ++ s.toList ++ ['>'] ∧ '>' ∉ s.toList
  | .endTag name, slice =>
    IsTagName name ∧ ∃ passed, slice = "</".toList ++ name.toList ++ passed ++ ['>'] ∧
      '>' ∉ name.toList ++ passed
  | .startTag tag, slice =>
    IsTagName tag.name ∧ '<' :: tag.name.toList <+: slice ∧ ['>'] <:+ slice ∧
      (tag.selfClosing = true → "/>".toList <:+ slice)

/-- The source is cut into pieces, one for each token, and none of them is empty. -/
structure Tiled (tokens : List Token) (source : List Char) (slices : List (List Char)) : Prop where
  whole : slices.flatten = source
  each : List.Forall₂ Token.Slice tokens slices
  nonempty : ∀ slice ∈ slices, slice ≠ []

variable {decode closes : Bool} {name s t rest after : List Char} {tag : StartTag}
  {opening : Opening} {attributes : List Attribute} {tokens more found : List Token}

theorem Tiled.nil : Tiled [] [] [] := ⟨rfl, .nil, List.forall_mem_nil _⟩

theorem Tiled.append {xs ys : List (List Char)} (h : Tiled tokens s xs) (h' : Tiled more t ys) :
    Tiled (tokens ++ more) (s ++ t) (xs ++ ys) := by
  refine ⟨?_, List.rel_append h.each h'.each, ?_⟩
  · rw [List.flatten_append, h.whole, h'.whole]
  · intro slice hslice
    rcases List.mem_append.1 hslice with hslice | hslice
    · exact h.nonempty slice hslice
    · exact h'.nonempty slice hslice

theorem Token.tiled {t : Token} (h : t.Slice s) (hs : s ≠ []) : Tiled [t] s [s] :=
  ⟨List.append_nil s, .cons h .nil, by simpa using hs⟩

/-! ## Pieces of tags -/

/-- The attributes end with the end of their tag. -/
theorem readAttributes_slice
    (h : readAttributes decode name opening s = .ok (attributes, closes, after)) :
    ∃ lead, s = lead ++ (if closes then "/>" else ">").toList ++ after := by
  have htrim {s t : List Char} {c : Char} (heq : trimStart s = c :: t) :
      s = leadingBlanks s ++ c :: t := by
    rw [← heq, leadingBlanks_append_trimStart]
  fun_induction readAttributes decode name opening s generalizing attributes closes after with
  | case1 => cases h
  | case2 s t heq =>
    cases h
    exact ⟨leadingBlanks s, by simpa using htrim heq⟩
  | case3 s t _ hstrip heq =>
    cases h
    rw [strip?_eq_some_iff.1 hstrip] at heq
    exact ⟨leadingBlanks s, by simpa using htrim heq⟩
  | case4 s t hstrip heq _ ih =>
    obtain ⟨lead, hlead⟩ := ih h
    refine ⟨leadingBlanks s ++ '/' :: lead, (htrim heq).trans ?_⟩
    simp [hlead]
  | case5 => cases h
  | case6 => cases h
  | case7 s c t heq hend hslash a rest ha more' closes' rest' hmore ih =>
    cases h
    obtain ⟨lead, hlead⟩ := ih hmore
    obtain ⟨written, hwritten⟩ := readAttribute_suffix ha
    refine ⟨leadingBlanks s ++ c :: (written ++ lead), (htrim heq).trans ?_⟩
    simp [← hwritten, hlead]

theorem readStartTag_slice (hs : construct? s = some .startTag)
    (h : readStartTag decode s = .ok (tag, after)) :
    ∃ slice, s = slice ++ after ∧ (Token.startTag tag).Slice slice := by
  obtain ⟨hname, -⟩ := readStartTag_writable hs h
  obtain ⟨c, t, rfl, -⟩ := construct?_startTag_inv hs
  simp only [readStartTag, List.drop_succ_cons, List.drop_zero] at h
  split at h
  · cases h
  · next attributes closes after hattributes =>
    cases h
    obtain ⟨lead, hlead⟩ := readAttributes_slice hattributes
    let n := (c :: t).takeWhile isTagNameChar
    have hn : (String.ofList n).toList = n := String.toList_ofList
    have hsource : c :: t = n ++ (lead ++ (if closes then "/>" else ">").toList ++ after) := by
      rw [← hlead, List.takeWhile_append_dropWhile]
    refine ⟨'<' :: (n ++ (lead ++ (if closes then "/>" else ">").toList)), ?_, hname, ?_, ?_, ?_⟩
    · rw [hsource]
      simp
    · change '<' :: (String.ofList n).toList <+: _
      rw [hn]
      exact List.cons_prefix_cons.2 ⟨rfl, List.prefix_append _ _⟩
    · refine List.IsSuffix.trans ?_ ⟨'<' :: (n ++ lead), by simp; rfl⟩
      cases closes <;> decide
    · intro hcloses
      have hcloses : closes = true := hcloses
      rw [hcloses]
      exact ⟨'<' :: (n ++ lead), by simp⟩

/-! ## Pieces of all tokens -/

theorem tiled_textTokens (s : List Char) : ∃ slices, Tiled (textTokens false s) s slices := by
  rcases textTokens_false_cases s with ⟨rfl, htokens⟩ | ⟨content, hcontent, rfl, htokens⟩
  · exact ⟨[], htokens ▸ Tiled.nil⟩
  · refine ⟨[content.toList], htokens ▸ Token.tiled rfl ?_⟩
    simpa using hcontent

theorem tiled_readComment (h : readComment ('<' :: '!' :: '-' :: '-' :: s) = .ok (found, rest)) :
    ∃ piece slices, '<' :: '!' :: '-' :: '-' :: s = piece ++ rest ∧ Tiled found piece slices := by
  simp only [readComment, List.drop_succ_cons, List.drop_zero] at h
  split at h
  · next body _ hcut =>
    cases h
    have hbody : (String.ofList body).toList = body := String.toList_ofList
    refine ⟨"<!--".toList ++ body ++ "-->".toList, _, ?_, Token.tiled ⟨?_, ?_⟩ (by simp)⟩
    · rw [eq_of_cut? hcut]
      simp
    · rw [hbody]
    · rw [hbody]
      exact not_infix_of_cut? (by decide) hcut
  · cases h

theorem tiled_readDeclaration (h : readDeclaration ('<' :: '!' :: s) = .ok (found, rest)) :
    ∃ piece slices, '<' :: '!' :: s = piece ++ rest ∧ Tiled found piece slices := by
  simp only [readDeclaration, List.drop_succ_cons, List.drop_zero] at h
  split at h
  · next body _ hcut =>
    cases h
    have hbody : (String.ofList body).toList = body := String.toList_ofList
    refine ⟨"<!".toList ++ body ++ ['>'], _, ?_, Token.tiled ⟨?_, ?_⟩ (by simp)⟩
    · rw [eq_of_cut? hcut]
      simp
    · rw [hbody]
    · rw [hbody]
      exact not_mem_of_cut? hcut
  · cases h

/-- A name holds no `>`, and neither does what is passed over behind it. -/
theorem tiled_readEndTag {c : Char} (hc : c.isAlpha = true)
    (h : readEndTag ('<' :: '/' :: c :: s) = .ok (found, rest)) :
    ∃ piece slices, '<' :: '/' :: c :: s = piece ++ rest ∧ Tiled found piece slices := by
  simp only [readEndTag, List.drop_succ_cons, List.drop_zero] at h
  split at h
  · next passed _ hcut =>
    cases h
    let n := (c :: s).takeWhile isTagNameChar
    have hn : (String.ofList n).toList = n := String.toList_ofList
    have hend : '>' ∉ n := fun hmem => absurd (List.mem_takeWhile_imp hmem) (by decide)
    have hsource : c :: s = n ++ (passed ++ (['>'] ++ rest)) := by
      rw [← eq_of_cut? hcut, List.takeWhile_append_dropWhile]
    refine ⟨"</".toList ++ n ++ passed ++ ['>'], _, ?_,
      Token.tiled ⟨isTagName_takeWhile hc s, passed, ?_, ?_⟩ (by simp)⟩
    · rw [hsource]
      simp
    · rw [hn]
    · rw [hn, List.mem_append, not_or]
      exact ⟨hend, not_mem_of_cut? hcut⟩
  · cases h

/-- A start tag is cut off from the source with the raw text that it opens. -/
theorem tiled_readStart (hs : construct? s = some .startTag)
    (h : readStart false s = .ok (found, rest)) :
    ∃ piece slices, s = piece ++ rest ∧ Tiled found piece slices := by
  unfold readStart at h
  split at h
  · cases h
  · next tag after hread =>
    obtain ⟨slice, hslice, hshown⟩ := readStartTag_slice hs hread
    have hne : slice ≠ [] := by
      rintro rfl
      simpa using hshown.2.1
    split at h
    · cases h
      obtain ⟨slices, htext⟩ := tiled_textTokens (rawRun tag after).1
      refine ⟨slice ++ (rawRun tag after).1, _, ?_, (Token.tiled hshown hne).append htext⟩
      rw [List.append_assoc, hslice]
      exact congrArg (slice ++ ·) (breakAt_append _ after).symm
    · cases h
      exact ⟨slice, _, hslice, Token.tiled hshown hne⟩

theorem tiled_readConstruct {kind : Construct} (hs : construct? s = some kind)
    (h : readConstruct false kind s = .ok (found, rest)) :
    ∃ piece slices, s = piece ++ rest ∧ Tiled found piece slices := by
  cases kind with
  | comment =>
    obtain ⟨t, rfl⟩ := construct?_comment_inv hs
    exact tiled_readComment h
  | declaration =>
    obtain ⟨t, rfl, -⟩ := construct?_declaration_inv hs
    exact tiled_readDeclaration h
  | endTag =>
    obtain ⟨c, t, rfl, hc⟩ := construct?_endTag_inv hs
    exact tiled_readEndTag hc h
  | startTag => exact tiled_readStart hs h

/-- A source is tiled by what stands before each construct, and by the constructs. -/
theorem tiled_scan (h : scan false s = .ok tokens) : ∃ slices, Tiled tokens s slices := by
  fun_induction scan false s generalizing tokens with
  | case1 s hk =>
    cases h
    rw [textRun_of_none hk]
    exact tiled_textTokens s
  | case2 => cases h
  | case3 => cases h
  | case4 s kind hk found rest hr more hmore ih =>
    cases h
    obtain ⟨texts, htexts⟩ := tiled_textTokens (textRun s).1
    obtain ⟨piece, slices, hpiece, hslices⟩ := tiled_readConstruct hk hr
    obtain ⟨later, hlater⟩ := ih hmore
    have hsource : (textRun s).1 ++ piece ++ rest = s := by
      rw [List.append_assoc, ← hpiece]
      exact breakAt_append _ s
    have htiled := (htexts.append hslices).append hlater
    rw [hsource] at htiled
    exact ⟨_, htiled⟩

/-! ## Texts -/

theorem Spaced.apart (h : Spaced tokens) (s t : String) : ¬ [.text s, .text t] <:+: tokens := by
  induction tokens with
  | nil => simp
  | cons u tokens ih =>
    rw [List.infix_cons_iff, not_or]
    refine ⟨?_, ih h.tail⟩
    intro hpre
    obtain ⟨rfl, later, rfl⟩ := List.cons_prefix_cons.1 hpre
    exact h.2.1 t rfl

/-- The tokens of a source that is read with its references kept are its pieces, each as its token
shows it. No text stands beside another. -/
theorem readTokens_tiled {source : String} (h : readTokens false source = .ok tokens) :
    (∃ slices, Tiled tokens source.toList slices) ∧
      ∀ s t, ¬ [.text s, .text t] <:+: tokens := by
  have hscan := readTokens_eq_ok_iff.1 h
  exact ⟨tiled_scan hscan, (framed_scan hscan).1.spaced.apart⟩

/-- A `<` that begins nothing, slashes inside a tag, and raw text with half an end tag in it. -/
theorem readTokens_tiled_page :
    (∃ slices, Tiled [.declaration "DOCTYPE x", .text "é &lt; < b",
        .startTag ⟨"c4", [⟨"a", none⟩, ⟨"=1", none⟩], true⟩, .startTag ⟨"script", [], false⟩,
        .text "a</b", .endTag "SCRIPT", .comment "->", .endTag "c4"]
      "<!DOCTYPE x>é &lt; < b<c4 a/=1/><script>a</b</SCRIPT ><!--->--></c4\n>".toList slices) ∧
      ∀ s t : String, ¬ [.text s, .text t] <:+:
        ([.declaration "DOCTYPE x", .text "é &lt; < b",
          .startTag ⟨"c4", [⟨"a", none⟩, ⟨"=1", none⟩], true⟩, .startTag ⟨"script", [], false⟩,
          .text "a</b", .endTag "SCRIPT", .comment "->", .endTag "c4"] : List Token) :=
  readTokens_tiled (by decide +kernel)

end GridMarkup
