import GridMarkup.Proofs.Boundaries

/-!
# Closing a construct

A construct that is never closed is read as one token where the end is put behind the source that it
lacks.
-/

namespace GridMarkup

open Text Scan Token Element

/-- What has to be put behind the source to close what a fault says to be open. -/
def Fault.closing : Fault → List Char
  | .comment _ => "-->".toList
  | .attributeValue _ quote _ _ => [quote, '>']
  | _ => ['>']

/-- The construct that a token is read from. -/
def Token.readFrom? : Token → Option Construct
  | .startTag _ => some .startTag
  | .endTag _ => some .endTag
  | .comment _ => some .comment
  | .declaration _ => some .declaration
  | .text _ => none

variable {decode : Bool} {name s rest text after : List Char} {opening : Opening}
  {kind : Construct} {c : Char} {a : Attribute} {fault : Fault}

/-! ## Tags -/

theorem Text.span_append_stop {q : Char → Bool} (hc : q c = false) (s rest : List Char) :
    (s ++ c :: rest).takeWhile q = s.takeWhile q ∧
      (s ++ c :: rest).dropWhile q = s.dropWhile q ++ c :: rest := by
  induction s with
  | nil => simp [hc]
  | cons d s ih => by_cases hd : q d = true <;> simp [hd, ih]

theorem Text.trimStart_append_stop (hc : isBlank c = false) (s rest : List Char) :
    trimStart (s ++ c :: rest) = trimStart s ++ c :: rest := (span_append_stop hc s rest).2

/-- The end of a tag is not read as part of the value in front of it. -/
theorem Scan.readValue_close (h : readValue name opening s = .ok (text, after))
    (opening' : Opening) :
    readValue name opening' (s ++ ['>']) = .ok (text, after ++ ['>']) := by
  cases s with
  | nil =>
    cases h
    rfl
  | cons c s =>
    rw [readValue] at h
    rw [List.cons_append, readValue]
    split at h
    · next hc =>
      rw [if_pos hc]
      split at h
      · next hcut =>
        cases h
        rw [cut?_append hcut]
      · cases h
    · next hc =>
      cases h
      obtain ⟨htake, hdrop⟩ := span_append_stop (q := isUnquotedChar) (c := '>') (by decide) (c :: s) []
      rw [if_neg hc, ← List.cons_append, htake, hdrop]

theorem Scan.readAttribute_close (h : readAttribute decode opening c s = .ok (a, after))
    (opening' : Opening) :
    readAttribute decode opening' c (s ++ ['>']) = .ok (a, after ++ ['>']) := by
  obtain ⟨htake, hdrop⟩ :=
    span_append_stop (q := isAttributeNameChar) (c := '>') (by decide) s []
  have hstrip (t : List Char) : strip? ['='] (trimStart (t ++ ['>'])) =
      (strip? ['='] (trimStart t)).map (· ++ ['>']) := by
    rw [trimStart_append_stop (by decide)]
    by_cases ht : trimStart t = []
    · rw [ht]
      rfl
    · exact strip?_singleton_append ht _
  simp only [readAttribute, htake, hdrop, hstrip] at h ⊢
  split at h
  · next hnone =>
    cases h
    simp only [hnone, Option.map_none]
  · next rest hsome =>
    split at h
    · cases h
    · next hvalue =>
      cases h
      simp only [hsome, Option.map_some, trimStart_append_stop (show isBlank '>' = false by decide),
        readValue_close hvalue opening']

theorem Scan.readValue_closed (h : readValue name opening s = .error fault) (opening' : Opening) :
    ∃ text, readValue name opening' (s ++ fault.closing) = .ok (text, ['>']) := by
  unfold readValue at h
  split at h
  · cases h
  · next q t =>
    split at h
    · next hq =>
      split at h
      · cases h
      · next hcut =>
        cases h
        refine ⟨t, ?_⟩
        simp only [Fault.closing, List.cons_append, readValue, if_pos hq,
          cut?_singleton (not_mem_of_cut?_none hcut)]
    · cases h

theorem Scan.readAttribute_closed (h : readAttribute decode opening c s = .error fault)
    (opening' : Opening) :
    ∃ a, readAttribute decode opening' c (s ++ fault.closing) = .ok (a, ['>']) := by
  simp only [readAttribute] at h ⊢
  split at h
  · cases h
  · next rest hstrip =>
    have hne : trimStart (s.dropWhile isAttributeNameChar) ≠ [] := by
      rw [strip?_eq_some_iff.1 hstrip]
      simp
    obtain ⟨htake, hdrop⟩ :=
      takeWhile_append_of_dropWhile (ne_nil_of_trimStart hne) fault.closing
    split at h
    · next hvalue =>
      cases h
      have hrest : trimStart rest ≠ [] := by
        intro hnil
        rw [hnil] at hvalue
        cases hvalue
      obtain ⟨text, hread⟩ := readValue_closed hvalue opening'
      rw [htake, hdrop, trimStart_append hne, strip?_singleton_append hne, hstrip, Option.map_some]
      simp only [trimStart_append hrest, hread]
      exact ⟨_, rfl⟩
    · cases h

/-- Where only blanks are left, the tag itself is open. -/
theorem Scan.closing_of_blank (hs : trimStart s = [])
    (h : readAttributes decode name opening s = .error fault) : fault.closing = ['>'] := by
  rw [readAttributes] at h
  split at h
  · cases h
    rfl
  · next heq => rw [hs] at heq; cases heq

theorem Scan.readAttributes_closed (h : readAttributes decode name opening s = .error fault)
    (opening' : Opening) :
    ∃ attributes closes,
      readAttributes decode name opening' (s ++ fault.closing) = .ok (attributes, closes, []) := by
  fun_induction readAttributes decode name opening s with
  | case1 s heq =>
    cases h
    refine ⟨[], false, readAttributes_close ?_⟩
    change trimStart (s ++ ['>']) = _
    rw [trimStart_append_stop (by decide), heq]
    rfl
  | case2 => cases h
  | case3 => cases h
  | case4 s t hstrip heq _ ih =>
    have htrim : trimStart (s ++ fault.closing) = '/' :: (t ++ fault.closing) := by
      rw [trimStart_append (by simp [heq]), heq]
      rfl
    by_cases ht : t = []
    · -- The end of the tag comes right behind the slash.
      subst ht
      rw [closing_of_blank rfl h] at htrim ⊢
      exact ⟨[], true, readAttributes_selfClose htrim⟩
    · rw [readAttributes_slash htrim (by rw [strip?_singleton_append ht, hstrip]; rfl)]
      exact ih h
  | case5 s c t heq hend hslash fault ha =>
    cases h
    obtain ⟨a, hread⟩ := readAttribute_closed ha opening'
    have hclose : readAttributes decode name opening' ['>'] = .ok ([], false, []) :=
      readAttributes_close rfl
    refine ⟨[a], false, readAttributes_of_attribute ?_ hend hslash hread hclose⟩
    rw [trimStart_append (by simp [heq]), heq, List.cons_append]
  | case6 s c t heq hend hslash a rest ha fault hmore ih =>
    cases h
    obtain ⟨attributes, closes, hattributes⟩ := ih hmore
    have hread : readAttribute decode opening' c (t ++ fault.closing) =
        .ok (a, rest ++ fault.closing) := by
      by_cases hrest : trimStart rest = []
      · rw [closing_of_blank hrest hmore]
        exact readAttribute_close ha opening'
      · exact readAttribute_append ha hrest opening' _
    refine ⟨a :: attributes, closes, readAttributes_of_attribute ?_ hend hslash hread hattributes⟩
    rw [trimStart_append (by simp [heq]), heq, List.cons_append]
  | case7 => cases h

/-! ## Constructs -/

theorem Scan.readComment_closed (h : readComment ('<' :: '!' :: '-' :: '-' :: s) = .error fault) :
    readComment ('<' :: '!' :: '-' :: '-' :: s ++ fault.closing) =
      .ok ([.comment (String.ofList s)], []) := by
  simp only [readComment, List.drop_succ_cons, List.drop_zero] at h
  split at h
  · cases h
  · next hcut =>
    cases h
    have hmark : ¬ "-->".toList <:+: s := not_infix_of_cut?_none (by decide) hcut
    have hcut' : cut? "-->".toList (s ++ "-->".toList) = some (s, []) := by
      have hfound : cut? "-->".toList (s ++ ("-->".toList ++ [])) = some (s, []) :=
        cut?_of_avoids (avoids_commentEnd hmark)
      rwa [List.append_nil] at hfound
    simp only [readComment, Fault.closing, List.cons_append, List.drop_succ_cons, List.drop_zero,
      hcut']

theorem Scan.readDeclaration_closed (h : readDeclaration ('<' :: '!' :: s) = .error fault) :
    readDeclaration ('<' :: '!' :: s ++ fault.closing) =
      .ok ([.declaration (String.ofList s)], []) := by
  simp only [readDeclaration, List.drop_succ_cons, List.drop_zero] at h
  split at h
  · cases h
  · next hcut =>
    cases h
    simp only [readDeclaration, Fault.closing, List.cons_append, List.drop_succ_cons,
      List.drop_zero, cut?_singleton (not_mem_of_cut?_none hcut)]

theorem Scan.readEndTag_closed (h : readEndTag ('<' :: '/' :: s) = .error fault) :
    readEndTag ('<' :: '/' :: s ++ fault.closing) =
      .ok ([.endTag (String.ofList (s.takeWhile isTagNameChar))], []) := by
  simp only [readEndTag, List.drop_succ_cons, List.drop_zero] at h
  split at h
  · cases h
  · next hcut =>
    cases h
    obtain ⟨htake, hdrop⟩ := span_append_stop (q := isTagNameChar) (c := '>') (by decide) s []
    simp only [readEndTag, Fault.closing, List.cons_append, List.drop_succ_cons, List.drop_zero,
      htake, hdrop, cut?_singleton (not_mem_of_cut?_none hcut)]

theorem Scan.readStartTag_closed (h : readStartTag decode ('<' :: s) = .error fault) :
    ∃ tag, readStartTag decode ('<' :: s ++ fault.closing) = .ok (tag, []) := by
  simp only [readStartTag, List.cons_append, List.drop_succ_cons, List.drop_zero] at h ⊢
  split at h
  · next hattributes =>
    cases h
    have hname : (s ++ fault.closing).takeWhile isTagNameChar = s.takeWhile isTagNameChar ∧
        (s ++ fault.closing).dropWhile isTagNameChar =
          s.dropWhile isTagNameChar ++ fault.closing := by
      by_cases hs : s.dropWhile isTagNameChar = []
      · rw [closing_of_blank (by rw [hs]; rfl) hattributes]
        exact span_append_stop (by decide) s []
      · exact takeWhile_append_of_dropWhile hs _
    obtain ⟨attributes, closes, hread⟩ := readAttributes_closed hattributes
      ⟨'<' :: s.takeWhile isTagNameChar, '<' :: (s ++ fault.closing)⟩
    rw [hname.1, hname.2, hread]
    exact ⟨_, rfl⟩
  · cases h

/-- There is no raw text behind the end of the source. -/
theorem readStart_closed (h : readStart decode ('<' :: s) = .error fault) :
    ∃ tag, readStart decode ('<' :: s ++ fault.closing) = .ok ([.startTag tag], []) := by
  simp only [readStart] at h
  split at h
  · next hread =>
    cases h
    obtain ⟨tag, hclosed⟩ := readStartTag_closed hread
    refine ⟨tag, ?_⟩
    rw [readStart, hclosed]
    by_cases hopens : opensRawText tag = true
    · simp only [hopens, if_true]
      rfl
    · simp only [hopens]
      rfl
  · split at h <;> cases h

/-- A construct that is closed is read as one token of its kind, with nothing left. -/
theorem readConstruct_closed (hs : construct? s = some kind)
    (h : readConstruct decode kind s = .error fault) :
    construct? (s ++ fault.closing) = some kind ∧ ∃ token, token.readFrom? = some kind ∧
      readConstruct decode kind (s ++ fault.closing) = .ok ([token], []) := by
  cases kind with
  | comment =>
    obtain ⟨t, rfl⟩ := construct?_comment_inv hs
    exact ⟨rfl, _, rfl, readComment_closed h⟩
  | declaration =>
    obtain ⟨t, rfl, hdashes⟩ := construct?_declaration_inv hs
    have hclosing : fault.closing = ['>'] := by
      cases readConstruct_fault hs h
      rfl
    refine ⟨?_, _, rfl, readDeclaration_closed h⟩
    rw [hclosing]
    apply construct?_declaration
    change ¬ "--".toList <+: t ++ ['>']
    rwa [prefix_append_cons_iff (by decide)]
  | endTag =>
    obtain ⟨c, t, rfl, hc⟩ := construct?_endTag_inv hs
    exact ⟨construct?_endTag hc _, _, rfl, readEndTag_closed h⟩
  | startTag =>
    obtain ⟨c, t, rfl, hc⟩ := construct?_startTag_inv hs
    obtain ⟨tag, hread⟩ := readStart_closed h
    exact ⟨construct?_startTag hc _, _, rfl, hread⟩

end GridMarkup
