import GridMarkup.Proofs.Reading

/-!
# Reading with more source behind

A start tag that was read to its end is read the same way with more source behind it. What reading
leaves is the end of the source.
-/

namespace GridMarkup.Scan

open Text

variable {decode closes : Bool} {name s text after : List Char} {tag : Opening} {c : Char}
  {a : Attribute} {found : List Attribute}

theorem takeWhile_append_of_dropWhile {q : Char → Bool} (h : s.dropWhile q ≠ []) (more : List Char) :
    (s ++ more).takeWhile q = s.takeWhile q ∧ (s ++ more).dropWhile q = s.dropWhile q ++ more := by
  induction s with
  | nil => exact absurd rfl h
  | cons c s ih =>
    by_cases hc : q c = true
    · rw [List.dropWhile_cons_of_pos hc] at h
      rw [List.cons_append, List.takeWhile_cons_of_pos hc, List.dropWhile_cons_of_pos hc,
        List.takeWhile_cons_of_pos hc, List.dropWhile_cons_of_pos hc, (ih h).1, (ih h).2]
      exact ⟨rfl, rfl⟩
    · rw [List.cons_append, List.takeWhile_cons_of_neg hc, List.dropWhile_cons_of_neg hc,
        List.takeWhile_cons_of_neg hc, List.dropWhile_cons_of_neg hc]
      exact ⟨rfl, rfl⟩

theorem trimStart_append (h : trimStart s ≠ []) (more : List Char) :
    trimStart (s ++ more) = trimStart s ++ more := (takeWhile_append_of_dropWhile h more).2

theorem ne_nil_of_trimStart (h : trimStart s ≠ []) : s ≠ [] := by
  rintro rfl
  exact h rfl

theorem strip?_singleton_append (h : s ≠ []) (more : List Char) :
    strip? [c] (s ++ more) = (strip? [c] s).map (· ++ more) := by
  obtain ⟨d, s, rfl⟩ := List.exists_cons_of_ne_nil h
  by_cases hd : c = d <;> simp [strip?, hd]

theorem readValue_append (h : readValue name tag s = .ok (text, after)) (hafter : after ≠ [])
    (tag' : Opening) (more : List Char) :
    readValue name tag' (s ++ more) = .ok (text, after ++ more) := by
  cases s with
  | nil => cases h; exact absurd rfl hafter
  | cons c s =>
    rw [readValue] at h
    rw [List.cons_append, readValue]
    split at h
    · next hc =>
      rw [if_pos hc]
      split at h
      · next hcut =>
        cases h
        have hs := eq_of_cut? hcut
        rw [hs, List.append_assoc, List.append_assoc, List.singleton_append]
        rw [cut?_singleton (not_mem_of_cut? hcut)]
      · cases h
    · next hc =>
      cases h
      obtain ⟨htake, hdrop⟩ := takeWhile_append_of_dropWhile hafter more
      rw [if_neg hc, ← List.cons_append, htake, hdrop]

theorem readAttribute_append (h : readAttribute decode tag c s = .ok (a, after))
    (hafter : trimStart after ≠ []) (tag' : Opening) (more : List Char) :
    readAttribute decode tag' c (s ++ more) = .ok (a, after ++ more) := by
  simp only [readAttribute] at h ⊢
  split at h
  · next hstrip =>
    cases h
    obtain ⟨htake, hdrop⟩ := takeWhile_append_of_dropWhile (ne_nil_of_trimStart hafter) more
    rw [htake, hdrop, trimStart_append hafter, strip?_singleton_append hafter, hstrip]
    rfl
  · next rest hstrip =>
    have hequals := strip?_eq_some_iff.1 hstrip
    have hne : trimStart (s.dropWhile isAttributeNameChar) ≠ [] := by simp [hequals]
    obtain ⟨htake, hdrop⟩ := takeWhile_append_of_dropWhile (ne_nil_of_trimStart hne) more
    split at h
    · cases h
    · next hvalue =>
      cases h
      have hafter' := ne_nil_of_trimStart hafter
      have hrest : trimStart rest ≠ [] := by
        intro hnil
        rw [hnil] at hvalue
        cases hvalue
        exact hafter' rfl
      rw [htake, hdrop, trimStart_append hne, strip?_singleton_append hne, hstrip, Option.map_some]
      simp only [trimStart_append hrest]
      rw [readValue_append hvalue hafter' tag']

/-- A tag does not end in blanks. -/
theorem trimStart_ne_nil (h : readAttributes decode name tag s = .ok (found, closes, after)) :
    trimStart s ≠ [] := by
  intro hnil
  rw [readAttributes] at h
  split at h
  · cases h
  · next heq => rw [hnil] at heq; cases heq

theorem readAttributes_append
    (h : readAttributes decode name tag s = .ok (found, closes, after)) (tag' : Opening)
    (more : List Char) :
    readAttributes decode name tag' (s ++ more) = .ok (found, closes, after ++ more) := by
  fun_induction readAttributes decode name tag s generalizing found closes after with
  | case1 => cases h
  | case2 s t heq =>
    cases h
    apply readAttributes_close
    rw [trimStart_append (by simp [heq]), heq, List.cons_append]
  | case3 s t _ hstrip heq =>
    cases h
    apply readAttributes_selfClose
    rw [trimStart_append (by simp [heq]), heq, strip?_eq_some_iff.1 hstrip]
    rfl
  | case4 s t hstrip heq _ ih =>
    have hne := ne_nil_of_trimStart (trimStart_ne_nil h)
    rw [readAttributes_slash (t := t ++ more), ih h]
    · rw [trimStart_append (by simp [heq]), heq, List.cons_append]
    · rw [strip?_singleton_append hne, hstrip, Option.map_none]
  | case5 => cases h
  | case6 => cases h
  | case7 s c t heq hend hslash a rest ha more' closes' rest' hmore ih =>
    cases h
    refine readAttributes_of_attribute (t := t ++ more) ?_ hend hslash
      (readAttribute_append ha (trimStart_ne_nil hmore) tag' more) (ih hmore)
    rw [trimStart_append (by simp [heq]), heq, List.cons_append]

theorem readStartTag_append {tag : StartTag} (h : readStartTag decode s = .ok (tag, after))
    (hs : s ≠ []) (more : List Char) :
    readStartTag decode (s ++ more) = .ok (tag, after ++ more) := by
  obtain ⟨c, s, rfl⟩ := List.exists_cons_of_ne_nil hs
  simp only [readStartTag, List.cons_append, List.drop_succ_cons, List.drop_zero] at h ⊢
  split at h
  · cases h
  · next hattributes =>
    cases h
    have hne := ne_nil_of_trimStart (trimStart_ne_nil hattributes)
    obtain ⟨htake, hdrop⟩ := takeWhile_append_of_dropWhile hne more
    rw [htake, hdrop, readAttributes_append hattributes]

/-! ## What reading leaves -/

theorem readValue_suffix (h : readValue name tag s = .ok (text, after)) : after <:+ s := by
  unfold readValue at h
  split at h
  · cases h
    exact List.suffix_rfl
  · split at h
    · split at h
      · next hcut =>
        cases h
        rw [eq_of_cut? hcut]
        exact ((List.suffix_append _ _).trans (List.suffix_append _ _)).trans (List.suffix_cons _ _)
      · cases h
    · cases h
      exact List.dropWhile_suffix _

theorem readAttribute_suffix (h : readAttribute decode tag c s = .ok (a, after)) : after <:+ s := by
  have hname : s.dropWhile isAttributeNameChar <:+ s := List.dropWhile_suffix _
  simp only [readAttribute] at h
  split at h
  · cases h
    exact hname
  · next rest hstrip =>
    have hrest : rest <:+ trimStart (s.dropWhile isAttributeNameChar) :=
      ⟨['='], (strip?_eq_some_iff.1 hstrip).symm⟩
    split at h
    · cases h
    · next hvalue =>
      cases h
      calc after <:+ trimStart rest := readValue_suffix hvalue
        _ <:+ rest := List.dropWhile_suffix _
        _ <:+ trimStart (s.dropWhile isAttributeNameChar) := hrest
        _ <:+ s.dropWhile isAttributeNameChar := List.dropWhile_suffix _
        _ <:+ s := hname

theorem readAttributes_suffix
    (h : readAttributes decode name tag s = .ok (found, closes, after)) : after <:+ s := by
  have hcons {s t : List Char} {c : Char} (heq : trimStart s = c :: t) : t <:+ s :=
    (List.suffix_cons c t).trans (heq ▸ List.dropWhile_suffix isBlank)
  fun_induction readAttributes decode name tag s generalizing found closes after with
  | case1 => cases h
  | case2 s t heq =>
    cases h
    exact hcons heq
  | case3 s t _ hstrip heq =>
    cases h
    rw [strip?_eq_some_iff.1 hstrip] at heq
    exact (List.suffix_append ['>'] _).trans (hcons heq)
  | case4 s t _ heq _ ih => exact (ih h).trans (hcons heq)
  | case5 => cases h
  | case6 => cases h
  | case7 s c t heq _ _ a rest ha _ _ _ hmore ih =>
    cases h
    exact ((ih hmore).trans (readAttribute_suffix ha)).trans (hcons heq)

theorem readStartTag_suffix {tag : StartTag} (h : readStartTag decode s = .ok (tag, after)) :
    after <:+ s := by
  simp only [readStartTag] at h
  split at h
  · cases h
  · next hattributes =>
    cases h
    exact ((readAttributes_suffix hattributes).trans (List.dropWhile_suffix _)).trans
      (List.drop_suffix 1 s)

theorem readConstruct_suffix {kind : Construct} {tokens : List Token} {rest : List Char}
    (h : readConstruct decode kind s = .ok (tokens, rest)) :
    rest <:+ s := by
  have hcut {mark t lead after : List Char} (h : cut? mark t = some (lead, after)) : after <:+ t := by
    rw [eq_of_cut? h]
    exact (List.suffix_append _ _).trans (List.suffix_append _ _)
  cases kind with
  | comment =>
    simp only [readConstruct, readComment] at h
    split at h
    · next hc =>
      cases h
      exact (hcut hc).trans (List.drop_suffix 4 s)
    · cases h
  | declaration =>
    simp only [readConstruct, readDeclaration] at h
    split at h
    · next hc =>
      cases h
      exact (hcut hc).trans (List.drop_suffix 2 s)
    · cases h
  | endTag =>
    simp only [readConstruct, readEndTag] at h
    split at h
    · next hc =>
      cases h
      exact ((hcut hc).trans (List.dropWhile_suffix _)).trans (List.drop_suffix 2 s)
    · cases h
  | startTag =>
    simp only [readConstruct, readStart] at h
    split at h
    · cases h
    · next tag after hread =>
      have hafter := readStartTag_suffix hread
      split at h
      · cases h
        exact List.IsSuffix.trans ⟨_, breakAt_append _ after⟩ hafter
      · cases h
        exact hafter

end GridMarkup.Scan
