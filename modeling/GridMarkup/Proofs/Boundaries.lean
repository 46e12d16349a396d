import GridMarkup.Proofs.Positions
import GridMarkup.Proofs.Scanned

/-!
# Sources one behind the other

Where markup begins outside of raw text, a source can be cut: what stands before is read the same
way with or without what follows, and what follows gives the same tokens or the same fault.
-/

namespace GridMarkup

open Text Scan Token Element

/-- The last tokens are the start tag of a raw text element, and its text if it has one. -/
def EndsInRawText (tokens : List Token) : Prop :=
  ∃ before tag, opensRawText tag = true ∧
    (tokens = before ++ [.startTag tag] ∨ ∃ s, tokens = before ++ [.startTag tag, .text s])

/-- A declaration, a comment or a tag begins here. -/
def BeginsMarkup (s : List Char) : Prop :=
  "<!".toList <+: s ∨ ∃ c, c.isAlpha = true ∧ (['<', c] <+: s ∨ ['<', '/', c] <+: s)

variable {decode : Bool} {s t rest after name : List Char} {tag : StartTag} {kind : Construct}
  {tokens found more : List Token}

theorem EndsInRawText.append (h : EndsInRawText more) (tokens : List Token) :
    EndsInRawText (tokens ++ more) := by
  obtain ⟨before, tag, hopens, rfl | ⟨s, rfl⟩⟩ := h
  · exact ⟨tokens ++ before, tag, hopens, .inl (by simp)⟩
  · exact ⟨tokens ++ before, tag, hopens, .inr ⟨s, by simp⟩⟩

theorem endsInRawText_rawText (hopens : opensRawText tag = true) (text : List Char) :
    EndsInRawText (.startTag tag :: textTokens false text) := by
  rcases textTokens_false_cases text with ⟨-, htext⟩ | ⟨s, -, -, htext⟩
  · exact ⟨[], tag, hopens, .inl (by rw [htext]; rfl)⟩
  · exact ⟨[], tag, hopens, .inr ⟨s, by rw [htext]; rfl⟩⟩

/-! ## Constructs with more source behind -/

theorem Text.cut?_append {mark before : List Char} (h : cut? mark s = some (before, after))
    (more : List Char) : cut? mark (s ++ more) = some (before, after ++ more) := by
  have havoids := avoids_of_cut? h
  rw [eq_of_cut? h, List.append_assoc, List.append_assoc]
  apply cut?_of_avoids
  intro v hv hne
  -- The mark is no longer than what stands there already.
  rw [Bool.eq_false_iff, ne_eq, startsWith_iff]
  intro hpre
  have hshort : mark <+: v ++ (mark ++ after) := by
    refine List.prefix_of_prefix_length_le hpre ⟨more, ?_⟩ (by simp; omega)
    simp
  have htrue : startsWith mark (v ++ (mark ++ after)) = true := startsWith_iff.2 hshort
  rw [havoids v hv hne] at htrue
  cases htrue

theorem Scan.construct?_append (hs : construct? s = some kind) (ht : AtMarkup t) :
    construct? (s ++ t) = some kind := by
  cases kind with
  | comment =>
    obtain ⟨u, rfl⟩ := construct?_comment_inv hs
    rfl
  | declaration =>
    obtain ⟨u, rfl, hdashes⟩ := construct?_declaration_inv hs
    have hdashes : ¬ "--".toList <+: u ++ t := by
      obtain rfl | ⟨v, rfl⟩ := ht
      · rwa [List.append_nil]
      · rwa [prefix_append_cons_iff (by decide)]
    exact construct?_declaration hdashes
  | endTag =>
    obtain ⟨c, u, rfl, hc⟩ := construct?_endTag_inv hs
    exact construct?_endTag hc _
  | startTag =>
    obtain ⟨c, u, rfl, hc⟩ := construct?_startTag_inv hs
    exact construct?_startTag hc _

theorem Scan.readComment_append
    (h : readComment ('<' :: '!' :: '-' :: '-' :: s) = .ok (found, rest)) (more : List Char) :
    readComment ('<' :: '!' :: '-' :: '-' :: s ++ more) = .ok (found, rest ++ more) := by
  simp only [readComment, List.cons_append, List.drop_succ_cons, List.drop_zero] at h ⊢
  split at h
  · next hcut =>
    cases h
    rw [cut?_append hcut]
  · cases h

theorem Scan.readDeclaration_append (h : readDeclaration ('<' :: '!' :: s) = .ok (found, rest))
    (more : List Char) :
    readDeclaration ('<' :: '!' :: s ++ more) = .ok (found, rest ++ more) := by
  simp only [readDeclaration, List.cons_append, List.drop_succ_cons, List.drop_zero] at h ⊢
  split at h
  · next hcut =>
    cases h
    rw [cut?_append hcut]
  · cases h

theorem Scan.readEndTag_append (h : readEndTag ('<' :: '/' :: s) = .ok (found, rest))
    (more : List Char) : readEndTag ('<' :: '/' :: s ++ more) = .ok (found, rest ++ more) := by
  simp only [readEndTag, List.cons_append, List.drop_succ_cons, List.drop_zero] at h ⊢
  split at h
  · next hcut =>
    cases h
    have hne : s.dropWhile isTagNameChar ≠ [] := by
      intro hnil
      rw [hnil] at hcut
      cases hcut
    obtain ⟨htake, hdrop⟩ := takeWhile_append_of_dropWhile hne more
    rw [htake, hdrop, cut?_append hcut]
  · cases h

/-- What ends raw text at the end of the source is an end tag that is never closed. -/
theorem scan_halfEndTag {n : List Char} (hraw : isRawText (String.ofList name) = true)
    (hn : lower n = lower name) : ∃ fault, scan decode ("</".toList ++ n) = .error fault := by
  have hall : n.dropWhile isTagNameChar = [] := by
    rw [List.dropWhile_eq_nil_iff]
    exact fun d hd => isTagNameChar_of_isAlpha ((isAlpha_of_lower hraw hn).2 d hd)
  have hends : endsRawText name ("</".toList ++ n) = true := endsRawText_iff.2 ⟨n, hn, .inl rfl⟩
  have hdrop : ("</".toList ++ n).drop 2 = n := rfl
  rw [scan_construct (construct?_endsRawText hraw hends)]
  simp only [readConstruct, readEndTag, hdrop, hall]
  exact ⟨_, rfl⟩

/-- An end tag that can be read has its `>`, so it ends raw text whatever follows. -/
theorem endsRawText_append (hraw : isRawText (String.ofList name) = true)
    (hs : endsRawText name s = true) (h : scan decode s = .ok tokens) (more : List Char) :
    endsRawText name (s ++ more) = true := by
  obtain ⟨n, hn, rfl | ⟨c, hc, hpre⟩⟩ := endsRawText_iff.1 hs
  · -- The source ends with the name of the tag.
    obtain ⟨fault, herror⟩ := scan_halfEndTag hraw hn
    rw [herror] at h
    cases h
  · exact endsRawText_iff.2 ⟨n, hn, .inr ⟨c, hc, hpre.trans (List.prefix_append _ _)⟩⟩

theorem rawRun_append (hopens : opensRawText tag = true) (hne : (rawRun tag s).2 ≠ [])
    (h : scan decode (rawRun tag s).2 = .ok tokens) (more : List Char) :
    rawRun tag (s ++ more) = ((rawRun tag s).1, (rawRun tag s).2 ++ more) := by
  have hraw := isRawText_of_opensRawText hopens
  have hends : endsRawText tag.name.toList (rawRun tag s).2 = true :=
    (breakAt_rest _ s).resolve_left hne
  have hends' := endsRawText_append hraw hends h more
  have havoids : Avoids (endsRawText tag.name.toList) (rawRun tag s).1 (rawRun tag s).2 :=
    avoids_breakAt _ s
  have hsource : (rawRun tag s).1 ++ (rawRun tag s).2 = s := breakAt_append _ s
  obtain ⟨x, hx⟩ : ∃ x, (rawRun tag s).2 = '<' :: x := by
    obtain ⟨n, -, heq | ⟨c, -, y, heq⟩⟩ := endsRawText_iff.1 hends
    · exact ⟨_, heq⟩
    · exact ⟨_, heq.symm⟩
  have havoids' : Avoids (endsRawText tag.name.toList) (rawRun tag s).1
      ((rawRun tag s).2 ++ more) := by
    rw [hx] at havoids ⊢
    exact (avoids_endsRawText_iff hraw).2 ((avoids_endsRawText_iff hraw).1 havoids)
  conv => lhs; rw [← hsource, List.append_assoc]
  exact breakAt_of_avoids havoids' (.inr hends')

/-- A start tag is read the same way with more source behind, where its raw text is closed. -/
theorem readStart_append (hs : construct? s = some .startTag)
    (h : readStart decode s = .ok (found, rest)) (hmore : scan decode rest = .ok more)
    (hclosed : ¬ EndsInRawText (found ++ more)) (t : List Char) :
    readStart decode (s ++ t) = .ok (found, rest ++ t) := by
  obtain ⟨c, u, rfl, -⟩ := construct?_startTag_inv hs
  simp only [readStart] at h ⊢
  split at h
  · cases h
  · next tag after hread =>
    rw [readStartTag_append hread (by simp) t]
    split at h
    · next hopens =>
      cases h
      -- Raw text that runs to the end of the source would be left open.
      have hne : (rawRun tag after).2 ≠ [] := by
        intro hnil
        rw [hnil, scan_nil] at hmore
        cases hmore
        rw [List.append_nil] at hclosed
        exact hclosed (endsInRawText_rawText hopens _)
      simp only [hopens, if_true, rawRun_append hopens hne hmore t]
    · next hopens =>
      cases h
      simp only [hopens]
      rfl

theorem readConstruct_append (hs : construct? s = some kind)
    (h : readConstruct decode kind s = .ok (found, rest)) (hmore : scan decode rest = .ok more)
    (hclosed : ¬ EndsInRawText (found ++ more)) (t : List Char) :
    readConstruct decode kind (s ++ t) = .ok (found, rest ++ t) := by
  cases kind with
  | comment =>
    obtain ⟨u, rfl⟩ := construct?_comment_inv hs
    exact readComment_append h t
  | declaration =>
    obtain ⟨u, rfl, -⟩ := construct?_declaration_inv hs
    exact readDeclaration_append h t
  | endTag =>
    obtain ⟨c, u, rfl, -⟩ := construct?_endTag_inv hs
    exact readEndTag_append h t
  | startTag => exact readStart_append hs h hmore hclosed t

/-! ## Sources -/

/-- Where markup begins outside of raw text, reading goes on as at the start of a source. -/
theorem scan_append (h : scan decode s = .ok tokens) (hclosed : ¬ EndsInRawText tokens)
    (ht : AtConstruct t) : scan decode (s ++ t) = (scan decode t).map (tokens ++ ·) := by
  fun_induction scan decode s generalizing tokens with
  | case1 s hk =>
    cases h
    have hs : Plain s := by
      have hplain := plain_textRun s
      rwa [textRun_of_none hk] at hplain
    rw [textRun_of_none hk]
    exact scan_text hs ht
  | case2 => cases h
  | case3 => cases h
  | case4 s kind hk found rest hr more hmore ih =>
    cases h
    rw [List.append_assoc] at hclosed
    have hfound : ¬ EndsInRawText (found ++ more) := fun hends => hclosed (hends.append _)
    have hlater : ¬ EndsInRawText more := fun hends => hfound (hends.append _)
    have hconstruct := construct?_append hk ht.atMarkup
    have hread := readConstruct_append hk hr hmore hfound t
    have hsource : s ++ t = (textRun s).1 ++ ((textRun s).2 ++ t) := by
      rw [← List.append_assoc]
      exact congrArg (· ++ t) (breakAt_append _ s).symm
    have hat : AtConstruct ((textRun s).2 ++ t) := .inr (Option.isSome_iff_exists.2 ⟨_, hconstruct⟩)
    rw [hsource, scan_text (plain_textRun s) hat, scan_construct hconstruct, hread]
    change ((scan decode (rest ++ t)).map _).map _ = _
    rw [ih hmore hlater]
    cases scan decode t with
    | error fault => rfl
    | ok tokens => exact congrArg Except.ok (by simp)

/-- A source outside of raw text with markup behind it is read piece by piece: the tokens of one
stand behind those of the other, or the fault of the second is reported with its positions moved. -/
theorem readTokens_append {source more : String} (hsource : readTokens decode source = .ok tokens)
    (hclosed : ¬ EndsInRawText tokens) (hmore : more = "" ∨ BeginsMarkup more.toList) :
    readTokens decode (source ++ more) =
      match readTokens decode more with
      | .ok found => .ok (tokens ++ found)
      | .error d => .error (d.behind source) := by
  have hat : AtConstruct more.toList := by
    rcases hmore with rfl | hmarkup
    · exact .inl rfl
    · exact .inr (isSome_construct?_iff.2 hmarkup)
  have hscan := scan_append (readTokens_eq_ok_iff.1 hsource) hclosed hat
  rw [readTokens, String.toList_append, hscan, readTokens]
  cases hfound : scan decode more.toList with
  | ok found => rfl
  | error fault => exact congrArg Except.error (Fault.diagnostic_front (within_scan hfound))

/-- A value that is never closed, on the second line behind three lines of source. -/
theorem readTokens_append_page :
    readTokens true ("é\n<style>&lt;</Style\n>b" ++ "<p>\n<q a='") =
      .error
        { kind := .attributeValue
          message := "value of attribute 'a' is never closed"
          span := ⟨⟨33, 3, 5⟩, ⟨34, 3, 6⟩⟩
          related := some ⟨⟨28, 3, 0⟩, ⟨30, 3, 2⟩⟩
          label := some "tag opened here"
          help := some "Add the closing '" } := by
  have hsource : readTokens true "é\n<style>&lt;</Style\n>b" =
      .ok [.text "é\n", .startTag ⟨"style", [], false⟩, .text "&lt;", .endTag "Style",
        .text "b"] := by decide +kernel
  have hclosed : ¬ EndsInRawText [.text "é\n", .startTag ⟨"style", [], false⟩, .text "&lt;",
      .endTag "Style", .text "b"] := by
    rintro ⟨before, tag, -, h | ⟨s, h⟩⟩
    · have hlast := congrArg List.reverse h
      simp at hlast
    · have hlast := congrArg List.reverse h
      simp at hlast
  have hmarkup : BeginsMarkup "<p>\n<q a='".toList := .inr ⟨'p', by decide, .inl (by decide)⟩
  have hmore : readTokens true "<p>\n<q a='" = .error
      { kind := .attributeValue
        message := "value of attribute 'a' is never closed"
        span := ⟨⟨9, 1, 5⟩, ⟨10, 1, 6⟩⟩
        related := some ⟨⟨4, 1, 0⟩, ⟨6, 1, 2⟩⟩
        label := some "tag opened here"
        help := some "Add the closing '" } := by decide +kernel
  rw [readTokens_append hsource hclosed (.inr hmarkup), hmore]
  rfl

end GridMarkup
