import GridMarkup.Proofs.Extending
import GridMarkup.Proofs.Scanned

/-!
# Where faults are

A fault is about the last construct of the source that reading came to, or about a value in it.
-/

namespace GridMarkup

open Text Scan

variable {s rest name : List Char} {decode : Bool} {fault : Fault} {tag : Opening}
  {kind : Construct}

/-- A construct opens behind what stands before it in the source. -/
theorem Opening.span_append (o : Opening) (before : List Char) :
    o.span (before ++ o.source) =
      ⟨Position.after {} before, (Position.after {} before).after o.text⟩ := by
  have hbefore : (before ++ o.source).take ((before ++ o.source).length - o.source.length) =
      before := by simp
  simp only [span, hbefore]

namespace Fault

/-- What a fault says to be open stands in the source. -/
def Within (s : List Char) : Fault → Prop
  | .comment opening | .declaration opening | .endTag _ opening | .startTag _ opening =>
    opening.source <:+ s
  | .attributeValue _ _ opening tag => opening.source <:+ s ∧ tag.source <:+ s

/-- A quoted value in `s` is never closed. -/
def InValue (tag : Opening) (s : List Char) (fault : Fault) : Prop :=
  ∃ name q t, (q = '"' ∨ q = '\'') ∧ q :: t <:+ s ∧
    fault = .attributeValue name q ⟨[q], q :: t⟩ tag

/-- What a fault says of a construct, where `s` is the source from the construct on. -/
inductive About (s : List Char) : Construct → Fault → Prop where
  | comment : About s .comment (.comment ⟨"<!--".toList, s⟩)
  | declaration : About s .declaration (.declaration ⟨"<!".toList, s⟩)
  | endTag {name after : List Char} (hs : s = "</".toList ++ (name ++ after))
      (hname : ∀ c ∈ name, isTagNameChar c = true) :
      About s .endTag (.endTag name ⟨"</".toList ++ name, s⟩)
  | startTag {name after : List Char} (hs : s = '<' :: (name ++ after))
      (hname : ∀ c ∈ name, isTagNameChar c = true) :
      About s .startTag (.startTag name ⟨'<' :: name, s⟩)
  | attributeValue {name after : List Char} {fault : Fault} (hs : s = '<' :: (name ++ after))
      (hname : ∀ c ∈ name, isTagNameChar c = true) (hvalue : fault.InValue ⟨'<' :: name, s⟩ after) :
      About s .startTag fault

theorem Within.mono (h : fault.Within rest) (hrest : rest <:+ s) : fault.Within s := by
  cases fault with
  | attributeValue => exact ⟨h.1.trans hrest, h.2.trans hrest⟩
  | _ => exact List.IsSuffix.trans h hrest

theorem InValue.mono (h : fault.InValue tag rest) (hrest : rest <:+ s) : fault.InValue tag s := by
  obtain ⟨name, q, t, hq, ht, rfl⟩ := h
  exact ⟨name, q, t, hq, ht.trans hrest, rfl⟩

theorem About.within (h : fault.About s kind) : fault.Within s := by
  cases h with
  | attributeValue hs _ hvalue =>
    obtain ⟨_, q, t, -, ht, rfl⟩ := hvalue
    refine ⟨ht.trans ?_, List.suffix_rfl⟩
    rw [hs]
    exact (List.suffix_append _ _).trans (List.suffix_cons _ _)
  | _ => exact List.suffix_rfl

end Fault

namespace Scan

/-! ## Faults of one construct -/

theorem readValue_fault (h : readValue name tag s = .error fault) : fault.InValue tag s := by
  unfold readValue at h
  split at h
  · cases h
  · next q t =>
    split at h
    · next hq =>
      split at h
      · cases h
      · cases h
        exact ⟨name, q, t, hq, List.suffix_rfl, rfl⟩
    · cases h

theorem readAttribute_fault {c : Char} (h : readAttribute decode tag c s = .error fault) :
    fault.InValue tag s := by
  simp only [readAttribute] at h
  split at h
  · cases h
  · next after hafter =>
    have hequals : after <:+ trimStart (s.dropWhile isAttributeNameChar) :=
      ⟨['='], (strip?_eq_some_iff.1 hafter).symm⟩
    have hvalue : trimStart after <:+ s :=
      calc trimStart after <:+ after := List.dropWhile_suffix _
        _ <:+ trimStart (s.dropWhile isAttributeNameChar) := hequals
        _ <:+ s.dropWhile isAttributeNameChar := List.dropWhile_suffix _
        _ <:+ s := List.dropWhile_suffix _
    split at h
    · next hread =>
      cases h
      exact (readValue_fault hread).mono hvalue
    · cases h

/-- In a tag, the tag itself is never closed or a value in it. -/
theorem readAttributes_fault (h : readAttributes decode name tag s = .error fault) :
    fault = .startTag name tag ∨ fault.InValue tag s := by
  have hcons {s t : List Char} {c : Char} (heq : trimStart s = c :: t) : t <:+ s :=
    (List.suffix_cons c t).trans (heq ▸ List.dropWhile_suffix isBlank)
  fun_induction readAttributes decode name tag s with
  | case1 =>
    cases h
    exact .inl rfl
  | case2 => cases h
  | case3 => cases h
  | case4 _ _ _ heq _ ih => exact (ih h).imp_right (·.mono (hcons heq))
  | case5 _ _ _ heq _ _ _ ha =>
    cases h
    exact .inr ((readAttribute_fault ha).mono (hcons heq))
  | case6 _ _ _ heq _ _ _ _ ha _ hmore ih =>
    cases h
    exact (ih hmore).imp_right (·.mono ((readAttribute_suffix ha).trans (hcons heq)))
  | case7 => cases h

theorem readConstruct_fault (hs : construct? s = some kind)
    (h : readConstruct decode kind s = .error fault) : fault.About s kind := by
  have hname (t : List Char) : ∀ c ∈ t.takeWhile isTagNameChar, isTagNameChar c = true :=
    fun c hc => List.mem_takeWhile_imp hc
  cases kind with
  | comment =>
    simp only [readConstruct, readComment] at h
    split at h
    · cases h
    · cases h
      exact .comment
  | declaration =>
    simp only [readConstruct, readDeclaration] at h
    split at h
    · cases h
    · cases h
      exact .declaration
  | endTag =>
    obtain ⟨c, t, rfl, -⟩ := construct?_endTag_inv hs
    have hsource : '<' :: '/' :: c :: t = "</".toList ++
        ((c :: t).takeWhile isTagNameChar ++ (c :: t).dropWhile isTagNameChar) := by
      rw [List.takeWhile_append_dropWhile]
      rfl
    simp only [readConstruct, readEndTag, List.drop_succ_cons, List.drop_zero] at h
    split at h
    · cases h
    · cases h
      exact .endTag hsource (hname _)
  | startTag =>
    obtain ⟨c, t, rfl, -⟩ := construct?_startTag_inv hs
    have hsource : '<' :: c :: t =
        '<' :: ((c :: t).takeWhile isTagNameChar ++ (c :: t).dropWhile isTagNameChar) := by
      rw [List.takeWhile_append_dropWhile]
    simp only [readConstruct, readStart, readStartTag, List.drop_succ_cons, List.drop_zero] at h
    split at h
    · next hread =>
      cases h
      split at hread
      · next hattributes =>
        cases hread
        rcases readAttributes_fault hattributes with rfl | hvalue
        · exact .startTag hsource (hname _)
        · exact .attributeValue hsource (hname _) hvalue
      · cases hread
    · split at h <;> cases h

/-! ## Faults of a source -/

/-- Reading stops at a construct that cannot be read. -/
theorem scan_fault (h : scan decode s = .error fault) :
    ∃ front faulty kind, s = front ++ faulty ∧ construct? faulty = some kind ∧
      readConstruct decode kind faulty = .error fault := by
  have hrun (s : List Char) : (textRun s).1 ++ (textRun s).2 = s := breakAt_append _ s
  fun_induction scan decode s with
  | case1 => cases h
  | case2 s kind hk fault hr =>
    cases h
    exact ⟨_, _, kind, (hrun s).symm, hk, hr⟩
  | case3 s kind hk found rest hr fault hmore ih =>
    cases h
    obtain ⟨front, faulty, kind', rfl, hfaulty⟩ := ih hmore
    obtain ⟨piece, hpiece⟩ := readConstruct_suffix hr
    refine ⟨(textRun s).1 ++ (piece ++ front), faulty, kind', ?_, hfaulty⟩
    rw [List.append_assoc, List.append_assoc, hpiece, hrun]
  | case4 => cases h

theorem within_scan (h : scan decode s = .error fault) : fault.Within s := by
  obtain ⟨front, faulty, kind, rfl, hk, hread⟩ := scan_fault h
  exact (readConstruct_fault hk hread).within.mono (List.suffix_append _ _)

end Scan

end GridMarkup
