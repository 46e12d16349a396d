import GridMarkup.Proofs.Boundaries

/-!
# Reading with other source behind

A construct that is read to its end is read the same way where the source is cut behind it, and so
whatever stands there instead. Only raw text looks further, for the end tag that it stops at.
-/

namespace GridMarkup

open Text Scan Token Element

variable {decode closes : Bool} {name s rest text after more : List Char} {opening : Opening}
  {tag : StartTag} {kind : Construct} {c : Char} {a : Attribute} {attributes : List Attribute}
  {found : List Token}

/-! ## Attributes -/

theorem Text.dropWhile_cut {q : Char → Bool} (h : s.dropWhile q = after ++ more)
    (hafter : after ≠ []) :
    ∃ t, s = t ++ more ∧ s.takeWhile q = t.takeWhile q ∧ t.dropWhile q = after := by
  have hall : ∀ c ∈ s.takeWhile q, q c = true := fun c hc => List.mem_takeWhile_imp hc
  obtain ⟨c, t, rfl⟩ := List.exists_cons_of_ne_nil hafter
  have hc : q c = false := by
    have hhead := List.head_dropWhile_not q (l := s) (by simp [h])
    simpa [h] using hhead
  refine ⟨s.takeWhile q ++ c :: t, ?_, (takeWhile_append_stop hall hc).symm,
    dropWhile_append_stop hall hc⟩
  rw [List.append_assoc, ← h, List.takeWhile_append_dropWhile]

theorem Text.trimStart_cut (h : trimStart (s ++ more) = c :: (rest ++ more)) :
    trimStart s = c :: rest := by
  have hdrop : (s ++ more).dropWhile isBlank = (c :: rest) ++ more := h
  obtain ⟨_, hs, -, htrim⟩ := dropWhile_cut hdrop (by simp)
  obtain rfl := List.append_cancel_right hs
  exact htrim

theorem Text.cut?_cut {mark before : List Char}
    (h : cut? mark (s ++ more) = some (before, after ++ more)) :
    cut? mark s = some (before, after) := by
  have hs : s = before ++ (mark ++ after) := by
    apply (List.append_left_inj more).1
    rw [eq_of_cut? h]
    simp
  rw [hs]
  apply cut?_of_avoids
  intro v hv hne
  have havoids := avoids_of_cut? h v hv hne
  rw [Bool.eq_false_iff, ne_eq, startsWith_iff] at havoids ⊢
  intro hpre
  apply havoids
  simpa using hpre.trans (List.prefix_append _ more)

theorem Scan.readValue_cut (h : readValue name opening (s ++ more) = .ok (text, after ++ more))
    (hafter : after ≠ []) (opening' : Opening) :
    readValue name opening' s = .ok (text, after) := by
  obtain ⟨c, t, rfl⟩ : ∃ c t, s = c :: t := by
    cases s with
    | nil =>
      have hlength := readValue_length h
      rw [List.nil_append, List.length_append] at hlength
      exact absurd (List.length_eq_zero_iff.1 (by omega)) hafter
    | cons c t => exact ⟨c, t, rfl⟩
  rw [List.cons_append, readValue] at h
  rw [readValue]
  split at h
  · next hc =>
    rw [if_pos hc]
    split at h
    · next hcut =>
      cases h
      rw [cut?_cut hcut]
    · cases h
  · next hc =>
    obtain ⟨htext, hdrop⟩ := Prod.mk.inj (Except.ok.inj h)
    rw [← List.cons_append] at htext hdrop
    obtain ⟨t', ht, htake, hdrop⟩ := dropWhile_cut hdrop hafter
    obtain rfl := List.append_cancel_right ht
    rw [if_neg hc, hdrop, ← htake, htext]

theorem Scan.readAttribute_cut
    (h : readAttribute decode opening c (s ++ more) = .ok (a, after ++ more))
    (hafter : trimStart after ≠ []) (opening' : Opening) :
    readAttribute decode opening' c s = .ok (a, after) := by
  have hne := ne_nil_of_trimStart hafter
  simp only [readAttribute] at h ⊢
  split at h
  · next hstrip =>
    obtain ⟨rfl, hdrop⟩ := Prod.mk.inj (Except.ok.inj h)
    rw [hdrop, trimStart_append hafter, strip?_singleton_append hafter, Option.map_eq_none_iff]
      at hstrip
    obtain ⟨_, hs, htake, hdrop⟩ := dropWhile_cut hdrop hne
    obtain rfl := List.append_cancel_right hs
    rw [hdrop, hstrip, htake]
  · next rest hstrip =>
    split at h
    · cases h
    · next hvalue =>
      obtain ⟨rfl, rfl⟩ := Prod.mk.inj (Except.ok.inj h)
      -- The value ends inside of `s`, and so does all that stands before it.
      obtain ⟨lead, hlead⟩ := readValue_suffix hvalue
      rw [← List.append_assoc] at hlead
      obtain ⟨value, rfl, -, hblank⟩ := dropWhile_cut hlead.symm (by simp [hne])
      rw [← hlead] at hvalue
      have hequals : trimStart ((s ++ more).dropWhile isAttributeNameChar) =
          ('=' :: value) ++ more := by
        rw [strip?_eq_some_iff.1 hstrip]
        rfl
      obtain ⟨behind, hbehind, -, hvalue'⟩ := dropWhile_cut hequals (by simp)
      obtain ⟨_, hs, htake, hdrop⟩ := dropWhile_cut hbehind (by rintro rfl; cases hvalue')
      obtain rfl := List.append_cancel_right hs
      have hstrip' : strip? ['='] (trimStart behind) = some value := strip?_eq_some_iff.2 hvalue'
      have hblank' : trimStart value = lead ++ after := hblank
      have hread := readValue_cut hvalue hne opening'
      rw [htake] at hread ⊢
      simp only [hdrop, hstrip', hblank', hread]

theorem Scan.readAttributes_cut
    (h : readAttributes decode name opening (s ++ more) = .ok (attributes, closes, more))
    (opening' : Opening) :
    readAttributes decode name opening' s = .ok (attributes, closes, []) := by
  generalize hsource : s ++ more = source at h
  fun_induction readAttributes decode name opening source generalizing s attributes closes with
  | case1 => cases h
  | case2 source t heq =>
    cases h
    subst hsource
    exact readAttributes_close (trimStart_cut heq)
  | case3 source t after hstrip heq =>
    cases h
    subst hsource
    rw [strip?_eq_some_iff.1 hstrip] at heq
    exact readAttributes_selfClose (trimStart_cut heq)
  | case4 source t hstrip heq _ ih =>
    subst hsource
    obtain ⟨u, rfl⟩ := readAttributes_suffix h
    have hread := ih rfl h
    have hne := ne_nil_of_trimStart (trimStart_ne_nil hread)
    rw [strip?_singleton_append hne, Option.map_eq_none_iff] at hstrip
    rw [readAttributes_slash (trimStart_cut heq) hstrip, hread]
  | case5 => cases h
  | case6 => cases h
  | case7 source c t heq hend hslash a rest ha more' closes' rest' hmore ih =>
    cases h
    subst hsource
    obtain ⟨u, rfl⟩ := readAttributes_suffix hmore
    obtain ⟨w, rfl⟩ := readAttribute_suffix ha
    have hread := ih rfl hmore
    rw [← List.append_assoc] at ha heq
    exact readAttributes_of_attribute (trimStart_cut heq) hend hslash
      (readAttribute_cut ha (trimStart_ne_nil hread) opening') hread

/-! ## Constructs -/

theorem Text.cut?_instead {mark before : List Char}
    (h : cut? mark (s ++ rest) = some (before, rest)) (more : List Char) :
    cut? mark (s ++ more) = some (before, more) := by
  have hcut : cut? mark s = some (before, []) := cut?_cut (by rw [h, List.nil_append])
  exact cut?_append hcut more

theorem Scan.readComment_instead (hs : construct? (s ++ rest) = some .comment)
    (h : readComment (s ++ rest) = .ok (found, rest)) (more : List Char) :
    construct? (s ++ more) = some .comment ∧ readComment (s ++ more) = .ok (found, more) := by
  obtain ⟨t, ht⟩ := construct?_comment_inv hs
  simp only [readComment, ht, List.drop_succ_cons, List.drop_zero] at h
  split at h
  · next body _ hcut =>
    cases h
    obtain rfl : s = '<' :: '!' :: '-' :: '-' :: (body ++ "-->".toList) := by
      apply (List.append_left_inj rest).1
      rw [ht, eq_of_cut? hcut]
      simp
    refine ⟨rfl, ?_⟩
    obtain rfl : t = body ++ "-->".toList ++ rest := by simpa using ht.symm
    simp only [readComment, List.cons_append, List.drop_succ_cons, List.drop_zero,
      cut?_instead hcut]
  · cases h

theorem Scan.readDeclaration_instead (hs : construct? (s ++ rest) = some .declaration)
    (h : readDeclaration (s ++ rest) = .ok (found, rest)) (more : List Char) :
    construct? (s ++ more) = some .declaration ∧
      readDeclaration (s ++ more) = .ok (found, more) := by
  obtain ⟨t, ht, hdashes⟩ := construct?_declaration_inv hs
  simp only [readDeclaration, ht, List.drop_succ_cons, List.drop_zero] at h
  split at h
  · next body _ hcut =>
    cases h
    obtain rfl : s = '<' :: '!' :: (body ++ ['>']) := by
      apply (List.append_left_inj rest).1
      rw [ht, eq_of_cut? hcut]
      simp
    obtain rfl : t = body ++ ['>'] ++ rest := by simpa using ht.symm
    constructor
    · rw [List.append_assoc, List.singleton_append, prefix_append_cons_iff (by decide)] at hdashes
      apply construct?_declaration
      change ¬ "--".toList <+: body ++ ['>'] ++ more
      rwa [List.append_assoc, List.singleton_append, prefix_append_cons_iff (by decide)]
    · simp only [readDeclaration, List.cons_append, List.drop_succ_cons, List.drop_zero,
        cut?_instead hcut]
  · cases h

theorem Scan.readEndTag_instead (hs : construct? (s ++ rest) = some .endTag)
    (h : readEndTag (s ++ rest) = .ok (found, rest)) (more : List Char) :
    construct? (s ++ more) = some .endTag ∧ readEndTag (s ++ more) = .ok (found, more) := by
  obtain ⟨c, t, ht, hc⟩ := construct?_endTag_inv hs
  simp only [readEndTag, ht, List.drop_succ_cons, List.drop_zero] at h
  split at h
  · next passed _ hcut =>
    cases h
    have hdrop : (c :: t).dropWhile isTagNameChar = (passed ++ ['>']) ++ rest := by
      rw [eq_of_cut? hcut]
      simp
    obtain ⟨u, hu, htake, hdrop'⟩ := dropWhile_cut hdrop (by simp)
    obtain ⟨v, rfl⟩ : ∃ v, u = c :: v := by
      cases u with
      | nil => simp at hdrop'
      | cons d v => exact ⟨v, by rw [(List.cons.inj hu).1]⟩
    obtain rfl : s = '<' :: '/' :: c :: v := by
      apply (List.append_left_inj rest).1
      rw [ht, hu]
      rfl
    refine ⟨construct?_endTag hc _, ?_⟩
    have hread : readEndTag ('<' :: '/' :: c :: v) =
        .ok ([.endTag (String.ofList ((c :: t).takeWhile isTagNameChar))], []) := by
      rw [hdrop] at hcut
      have hcut' : cut? ['>'] (passed ++ ['>']) = some (passed, []) :=
        cut?_cut (by rw [hcut, List.nil_append])
      simp only [readEndTag, List.drop_succ_cons, List.drop_zero, hdrop', hcut', htake]
    exact readEndTag_append hread more
  · cases h

theorem Scan.readStartTag_instead (hs : construct? (s ++ rest) = some .startTag)
    (h : readStartTag decode (s ++ rest) = .ok (tag, rest)) (more : List Char) :
    construct? (s ++ more) = some .startTag ∧ readStartTag decode (s ++ more) = .ok (tag, more) := by
  obtain ⟨c, t, ht, hc⟩ := construct?_startTag_inv hs
  simp only [readStartTag, ht, List.drop_succ_cons, List.drop_zero] at h
  split at h
  · cases h
  · next attributes closes _ hattributes =>
    cases h
    obtain ⟨written, hwritten⟩ := readAttributes_suffix hattributes
    rw [← hwritten] at hattributes
    have hread := readAttributes_cut hattributes
    have hne := ne_nil_of_trimStart (trimStart_ne_nil (hread ⟨[], []⟩))
    obtain ⟨u, hu, htake, hdrop⟩ := dropWhile_cut hwritten.symm hne
    obtain ⟨v, rfl⟩ : ∃ v, u = c :: v := by
      cases u with
      | nil => exact absurd hdrop.symm hne
      | cons d v => exact ⟨v, by rw [(List.cons.inj hu).1]⟩
    obtain rfl : s = '<' :: c :: v := by
      apply (List.append_left_inj rest).1
      rw [ht, hu]
      rfl
    refine ⟨construct?_startTag hc _, ?_⟩
    have hread : readStartTag decode ('<' :: c :: v) =
        .ok (⟨String.ofList ((c :: t).takeWhile isTagNameChar), attributes, closes⟩, []) := by
      simp only [readStartTag, List.drop_succ_cons, List.drop_zero, hdrop, ← htake, hread]
    exact readStartTag_append hread (by simp) more

/-! ## Raw text -/

theorem rawRun_eq_iff : rawRun tag (text ++ rest) = (text, rest) ↔
    Avoids (endsRawText tag.name.toList) text rest ∧
      (rest = [] ∨ endsRawText tag.name.toList rest = true) := by
  constructor
  · intro h
    have havoids := avoids_breakAt (endsRawText tag.name.toList) (text ++ rest)
    have hrest := breakAt_rest (endsRawText tag.name.toList) (text ++ rest)
    rw [← rawRun, h] at havoids hrest
    exact ⟨havoids, hrest⟩
  · rintro ⟨havoids, hrest⟩
    exact breakAt_of_avoids havoids hrest

theorem rawRun_markup_iff (hopens : opensRawText tag = true) :
    rawRun tag (text ++ '<' :: rest) = (text, '<' :: rest) ↔
      ¬ HoldsEndTag tag.name.toList text ∧
        endsRawText tag.name.toList ('<' :: rest) = true := by
  rw [rawRun_eq_iff, avoids_endsRawText_iff (isRawText_of_opensRawText hopens)]
  simp

/-- Half an end tag ends raw text where nothing stands behind it. -/
theorem rawRun_half {n kept : List Char} (hopens : opensRawText tag = true)
    (hn : lower n = lower tag.name.toList)
    (hholds : ¬ HoldsEndTag tag.name.toList (kept ++ ("</".toList ++ n))) :
    rawRun tag (kept ++ ("</".toList ++ n)) = (kept, "</".toList ++ n) := by
  refine (rawRun_markup_iff hopens).2
    ⟨fun ⟨m, c, hm, hc, hinside⟩ => hholds ?_, endsRawText_iff.2 ⟨n, hn, .inl rfl⟩⟩
  exact ⟨m, c, hm, hc, hinside.trans (List.prefix_append _ _).isInfix⟩

theorem rawRun_whole (hholds : ¬ HoldsEndTag tag.name.toList text)
    (hhalf : ¬ ∃ n, lower n = lower tag.name.toList ∧ "</".toList ++ n <:+ text) :
    rawRun tag text = (text, []) := by
  have hrun : rawRun tag (text ++ []) = (text, []) := by
    refine rawRun_eq_iff.2 ⟨fun v hv hne => ?_, .inl rfl⟩
    rw [List.append_nil, Bool.eq_false_iff, ne_eq, endsRawText_iff]
    rintro ⟨n, hn, rfl | ⟨c, hc, hpre⟩⟩
    · exact hhalf ⟨n, hn, hv⟩
    · exact hholds ⟨n, c, hn, hc, hpre.isInfix.trans hv.isInfix⟩
  rwa [List.append_nil] at hrun

/-- What ends raw text in front of markup ends it in front of anything. -/
theorem endsRawText_instead (hraw : isRawText (String.ofList name) = true)
    (h : endsRawText name ('<' :: s ++ '<' :: rest) = true) (more : List Char) :
    endsRawText name ('<' :: s ++ more) = true := by
  obtain ⟨n, hn, heq | ⟨c, hc, hpre⟩⟩ := endsRawText_iff.1 h
  · have hlt : '<' ∈ '/' :: n := by
      have htail : s ++ '<' :: rest = '/' :: n := (List.cons.inj heq).2
      rw [← htail]
      simp
    simp [lt_not_mem_of_lower hraw hn] at hlt
  · have hpre' : '<' :: ('/' :: (n ++ [c])) <+: '<' :: (s ++ '<' :: rest) := hpre
    rw [List.cons_prefix_cons, prefix_append_cons_iff (lt_not_mem_endTag hraw hn hc)] at hpre'
    refine endsRawText_iff.2 ⟨n, hn, .inr ⟨c, hc, ?_⟩⟩
    exact (List.cons_prefix_cons.2 hpre').trans (List.prefix_append _ _)

/-- Where the end tag behind a raw text stands in front of markup, any source can follow it. -/
theorem rawRun_instead {front : List Char} (hopens : opensRawText tag = true) (hfront : front ≠ [])
    (h : rawRun tag (text ++ (front ++ '<' :: rest)) = (text, front ++ '<' :: rest))
    (more : List Char) : rawRun tag (text ++ (front ++ more)) = (text, front ++ more) := by
  have hraw := isRawText_of_opensRawText hopens
  obtain ⟨c, s, rfl⟩ := List.exists_cons_of_ne_nil hfront
  have hends := (rawRun_eq_iff.1 h).2.resolve_left (by simp)
  obtain rfl : c = '<' := by
    obtain ⟨_, heq⟩ := eq_cons_of_construct? (construct?_endsRawText hraw hends)
    exact (List.cons.inj heq).1
  exact (rawRun_markup_iff hopens).2
    ⟨((rawRun_markup_iff hopens).1 h).1, endsRawText_instead hraw hends more⟩

end GridMarkup
