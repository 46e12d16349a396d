import GridMarkup.Proofs.Extending
import GridMarkup.Proofs.LineEnds.Text
import GridMarkup.Proofs.Scanned

/-!
# Line endings in a source

A source with the other line ending is read as the same tokens with the other line ending, or has
the same fault. Names hold no line ending.
-/

namespace GridMarkup

open Text

/-- A string with a carriage return in front of every line feed. -/
def Text.crlfString (s : String) : String := String.ofList (crlf s.toList)

def Attribute.crlf (a : Attribute) : Attribute := { a with value := a.value.map crlfString }

def StartTag.crlf (tag : StartTag) : StartTag :=
  { tag with attributes := tag.attributes.map Attribute.crlf }

/-- Gives a token the other line ending. -/
def Token.crlf : Token → Token
  | .startTag tag => .startTag tag.crlf
  | .endTag name => .endTag name
  | .text s => .text (crlfString s)
  | .comment s => .comment (crlfString s)
  | .declaration s => .declaration (crlfString s)

def Opening.crlf (o : Opening) : Opening := { o with source := Text.crlf o.source }

def Fault.crlf : Fault → Fault
  | .comment opening => .comment opening.crlf
  | .declaration opening => .declaration opening.crlf
  | .endTag name opening => .endTag name opening.crlf
  | .startTag name opening => .startTag name opening.crlf
  | .attributeValue name quote opening tag => .attributeValue name quote opening.crlf tag.crlf

@[simp] theorem Text.crlfString_ofList (s : List Char) :
    crlfString (String.ofList s) = String.ofList (crlf s) := by
  rw [crlfString, String.toList_ofList]

@[simp] theorem Text.toList_crlfString (s : String) : (crlfString s).toList = crlf s.toList :=
  String.toList_ofList

namespace Scan

variable {α β : Type} {s rest : List Char} {name : List Char} {tag : Opening}

/-- A result of reading with the other line ending. -/
def otherEnds (f : α → α) : Except Fault α → Except Fault α
  | .ok a => .ok (f a)
  | .error fault => .error fault.crlf

@[simp] theorem otherEnds_ok (f : α → α) (a : α) : otherEnds f (.ok a) = .ok (f a) := rfl

@[simp] theorem otherEnds_error (f : α → α) (fault : Fault) :
    otherEnds f (.error fault) = .error fault.crlf := rfl

/-- What is found, and what is left to read. -/
def bothEnds (f : α → α) (x : α × List Char) : α × List Char := (f x.1, crlf x.2)

/-! ## Attributes -/

theorem readValue_crlf (name : List Char) (tag : Opening) (s : List Char) :
    readValue name tag.crlf (crlf s) = otherEnds (bothEnds crlf) (readValue name tag s) := by
  have hunquoted : isUnquotedChar '\r' = isUnquotedChar '\n' := by decide
  cases s with
  | nil => rfl
  | cons c s =>
    by_cases hc : c = '\n'
    · subst hc
      have hfeed : isUnquotedChar '\n' = false := by decide
      simp [readValue, bothEnds, hunquoted, hfeed]
    · rw [crlf_cons hc, readValue, readValue]
      split
      · next hquote =>
        have hreturn : '\r' ≠ c := by rcases hquote with rfl | rfl <;> decide
        rw [cut?_crlf (by simpa using hreturn) (by simpa using Ne.symm hc) (by simp)]
        cases cut? [c] s with
        | none => simp [Fault.crlf, Opening.crlf, crlf_cons hc]
        | some result => rfl
      · rw [← crlf_cons hc, takeWhile_crlf hunquoted, dropWhile_crlf hunquoted]
        rfl

theorem readAttribute_crlf {c : Char} (tag : Opening) (s : List Char) :
    readAttribute false tag.crlf c (crlf s) =
      otherEnds (bothEnds Attribute.crlf) (readAttribute false tag c s) := by
  have hname : isAttributeNameChar '\r' = false ∧ isAttributeNameChar '\n' = false := by decide
  rw [readAttribute, readAttribute, takeWhile_crlf_same hname.1 hname.2,
    dropWhile_crlf (by rw [hname.1, hname.2]), trimStart_crlf,
    strip?_crlf (by decide) (by decide)]
  cases strip? ['='] (trimStart (s.dropWhile isAttributeNameChar)) with
  | none => rfl
  | some rest =>
    simp only [Option.map_some, trimStart_crlf, readValue_crlf]
    cases readValue (c :: s.takeWhile isAttributeNameChar) tag (trimStart rest) with
    | error fault => rfl
    | ok result => simp [bothEnds, Attribute.crlf, spelled]

/-- The attributes with the other line ending. -/
def crlfAttributes (x : List Attribute × Bool × List Char) : List Attribute × Bool × List Char :=
  (x.1.map Attribute.crlf, x.2.1, crlf x.2.2)

theorem readAttributes_crlf (name : List Char) (tag : Opening) (s : List Char) :
    readAttributes false name tag.crlf (crlf s) =
      otherEnds crlfAttributes (readAttributes false name tag s) := by
  have htrim {c : Char} {s t : List Char} (heq : trimStart s = c :: t) :
      trimStart (crlf s) = c :: crlf t := by
    rw [trimStart_crlf, heq, crlf_cons (ne_feed_of_not_blank (trimStart_head heq))]
  have hclose (s : List Char) : strip? ['>'] (crlf s) = (strip? ['>'] s).map crlf :=
    strip?_crlf (by decide) (by decide) s
  fun_induction readAttributes false name tag s with
  | case1 s heq =>
    have hnil : trimStart (crlf s) = [] := by rw [trimStart_crlf, heq, crlf_nil]
    rw [readAttributes]
    split
    · rfl
    · next heq' => rw [hnil] at heq'; cases heq'
  | case2 s t heq => exact readAttributes_close (htrim heq)
  | case3 s t _ hstrip heq =>
    have heq := htrim heq
    rw [strip?_eq_some_iff.1 hstrip] at heq
    exact readAttributes_selfClose heq
  | case4 s t hstrip heq _ ih =>
    rw [readAttributes_slash (htrim heq) (by rw [hclose, hstrip]; rfl), ih]
  | case5 s c t heq hend hslash fault ha =>
    rw [readAttributes_attribute (htrim heq) hend hslash, readAttribute_crlf, ha]
    rfl
  | case6 s c t heq hend hslash a rest ha fault hmore ih =>
    rw [readAttributes_attribute (htrim heq) hend hslash, readAttribute_crlf, ha]
    simp only [otherEnds_ok, bothEnds, Except.bind, ih, hmore]
    rfl
  | case7 s c t heq hend hslash a rest ha more closes rest' hmore ih =>
    rw [readAttributes_attribute (htrim heq) hend hslash, readAttribute_crlf, ha]
    simp only [otherEnds_ok, bothEnds, Except.bind, ih, hmore]
    rfl

/-! ## Constructs -/

theorem prefix_crlf_iff {mark : List Char} (hreturn : '\r' ∉ mark) (hfeed : '\n' ∉ mark) :
    mark <+: crlf s ↔ mark <+: s := by
  rw [← startsWith_iff, ← startsWith_iff, startsWith, strip?_crlf hreturn hfeed, Option.isSome_map,
    startsWith]

theorem not_lineEnd_of_isAlpha {c : Char} (hc : c.isAlpha = true) : c ≠ '\r' ∧ c ≠ '\n' := by
  constructor <;> rintro rfl <;> exact absurd hc (by decide)

theorem isSome_construct?_crlf (s : List Char) :
    (construct? (crlf s)).isSome = (construct? s).isSome := by
  rw [Bool.eq_iff_iff, isSome_construct?_iff, isSome_construct?_iff]
  refine or_congr (prefix_crlf_iff (by decide) (by decide)) (exists_congr fun c => ?_)
  refine and_congr_right fun hc => ?_
  obtain ⟨hreturn, hfeed⟩ := not_lineEnd_of_isAlpha hc
  exact or_congr (prefix_crlf_iff (by simp [hreturn.symm]) (by simp [hfeed.symm]))
    (prefix_crlf_iff (by simp [hreturn.symm]) (by simp [hfeed.symm]))

theorem construct?_crlf (s : List Char) : construct? (crlf s) = construct? s := by
  cases hs : construct? s with
  | none =>
    rw [← Option.not_isSome_iff_eq_none, isSome_construct?_crlf, hs]
    decide
  | some kind =>
    cases kind with
    | comment =>
      obtain ⟨t, rfl⟩ := construct?_comment_inv hs
      rfl
    | declaration =>
      obtain ⟨t, rfl, hdashes⟩ := construct?_declaration_inv hs
      rw [← prefix_crlf_iff (by decide) (by decide)] at hdashes
      exact construct?_declaration hdashes
    | endTag =>
      obtain ⟨c, t, rfl, hc⟩ := construct?_endTag_inv hs
      have hcrlf : crlf ('<' :: '/' :: c :: t) = '<' :: '/' :: c :: crlf t := by
        simp [crlf_cons, (not_lineEnd_of_isAlpha hc).2]
      rw [hcrlf, construct?_endTag hc]
    | startTag =>
      obtain ⟨c, t, rfl, hc⟩ := construct?_startTag_inv hs
      have hcrlf : crlf ('<' :: c :: t) = '<' :: c :: crlf t := by
        simp [crlf_cons, (not_lineEnd_of_isAlpha hc).2]
      rw [hcrlf, construct?_startTag hc]

theorem blind_construct : Blind fun rest => (construct? rest).isSome :=
  ⟨isSome_construct?_crlf, fun _ => rfl⟩

theorem textRun_crlf (s : List Char) :
    textRun (crlf s) = (crlf (textRun s).1, crlf (textRun s).2) :=
  blind_construct.breakAt s

/-- Tokens with the other line ending, and what is left to read. -/
def crlfTokens (x : List Token × List Char) : List Token × List Char :=
  (x.1.map Token.crlf, crlf x.2)

theorem textTokens_crlf (s : List Char) :
    textTokens false (crlf s) = (textTokens false s).map Token.crlf := by
  rcases textTokens_false_cases s with ⟨rfl, htokens⟩ | ⟨u, hu, rfl, htokens⟩
  · rfl
  · have hne : crlf u.toList ≠ [] := by simpa using hu
    rw [htokens]
    simp [textTokens, Token.crlf, spelled, hne, crlfString]

theorem readStartTag_crlf (hs : construct? s = some .startTag) :
    readStartTag false (crlf s) =
      otherEnds (fun x => (x.1.crlf, crlf x.2)) (readStartTag false s) := by
  obtain ⟨c, t, rfl, hc⟩ := construct?_startTag_inv hs
  have hname : isTagNameChar '\r' = false ∧ isTagNameChar '\n' = false := by decide
  have hcrlf : crlf ('<' :: c :: t) = '<' :: crlf (c :: t) := crlf_cons (by decide) _
  have hopening (name : List Char) : (⟨'<' :: name, '<' :: crlf (c :: t)⟩ : Opening) =
      Opening.crlf ⟨'<' :: name, '<' :: c :: t⟩ := by
    rw [Opening.crlf, hcrlf]
  rw [hcrlf, readStartTag, readStartTag]
  simp only [List.drop_succ_cons, List.drop_zero]
  rw [takeWhile_crlf_same hname.1 hname.2, dropWhile_crlf (by rw [hname.1, hname.2]), hopening,
    readAttributes_crlf]
  generalize readAttributes false _ _ _ = result
  rcases result with fault | ⟨attributes, closes, rest⟩ <;> rfl

theorem endsName_head_crlf (s : List Char) :
    (∀ c, (crlf s).head? = some c → EndsName c) ↔ ∀ c, s.head? = some c → EndsName c := by
  have hend : EndsName '\r' ∧ EndsName '\n' := by
    constructor <;> exact .inr (.inr (by decide))
  cases s with
  | nil => simp
  | cons c s =>
    by_cases hc : c = '\n'
    · subst hc
      simp [hend]
    · simp [crlf_cons hc]

/-- The end tag of a raw text element has no line ending in its name, and may have one behind. -/
theorem blind_endsRawText (hraw : Element.isRawText (String.ofList name) = true) :
    Blind (endsRawText name) := by
  have hmark {n : List Char} (hn : Element.lower n = Element.lower name) :
      '\r' ∉ "</".toList ++ n ∧ '\n' ∉ "</".toList ++ n := by
    have halpha := (isAlpha_of_lower hraw hn).2
    constructor <;> intro hmem <;> rcases List.mem_append.1 hmem with h | h
    · exact absurd h (by decide)
    · exact absurd rfl (not_lineEnd_of_isAlpha (halpha _ h)).1
    · exact absurd h (by decide)
    · exact absurd rfl (not_lineEnd_of_isAlpha (halpha _ h)).2
  constructor
  · intro s
    rw [Bool.eq_iff_iff, ← endTagAt_iff, ← endTagAt_iff]
    constructor
    · rintro ⟨n, rest, hs, hn, hrest⟩
      obtain ⟨hreturn, hfeed⟩ := hmark hn
      rw [← strip?_eq_some_iff, strip?_crlf hreturn hfeed, Option.map_eq_some_iff] at hs
      obtain ⟨t, ht, rfl⟩ := hs
      exact ⟨n, t, strip?_eq_some_iff.1 ht, hn, (endsName_head_crlf t).1 hrest⟩
    · rintro ⟨n, t, rfl, hn, hrest⟩
      refine ⟨n, crlf t, ?_, hn, (endsName_head_crlf t).2 hrest⟩
      rw [crlf_append, crlf_of_not_mem (hmark hn).2]
  · intro s
    simp [endsRawText, strip?]

theorem readConstruct_crlf {kind : Construct} (hs : construct? s = some kind) :
    readConstruct false kind (crlf s) = otherEnds crlfTokens (readConstruct false kind s) := by
  cases kind with
  | comment =>
    obtain ⟨t, rfl⟩ := construct?_comment_inv hs
    have hcrlf : crlf ('<' :: '!' :: '-' :: '-' :: t) = '<' :: '!' :: '-' :: '-' :: crlf t := rfl
    simp only [readConstruct, readComment, hcrlf, List.drop_succ_cons, List.drop_zero]
    rw [cut?_crlf (by decide) (by decide) (by decide)]
    cases cut? "-->".toList t with
    | none => rfl
    | some result => simp [crlfTokens, Token.crlf]
  | declaration =>
    obtain ⟨t, rfl, -⟩ := construct?_declaration_inv hs
    have hcrlf : crlf ('<' :: '!' :: t) = '<' :: '!' :: crlf t := rfl
    simp only [readConstruct, readDeclaration, hcrlf, List.drop_succ_cons, List.drop_zero]
    rw [cut?_crlf (by decide) (by decide) (by decide)]
    cases cut? ['>'] t with
    | none => rfl
    | some result => simp [crlfTokens, Token.crlf]
  | endTag =>
    obtain ⟨c, t, rfl, -⟩ := construct?_endTag_inv hs
    have hname : isTagNameChar '\r' = false ∧ isTagNameChar '\n' = false := by decide
    have hcrlf : crlf ('<' :: '/' :: c :: t) = '<' :: '/' :: crlf (c :: t) := rfl
    simp only [readConstruct, readEndTag, hcrlf, List.drop_succ_cons, List.drop_zero]
    rw [takeWhile_crlf_same hname.1 hname.2, dropWhile_crlf (by rw [hname.1, hname.2]),
      cut?_crlf (by decide) (by decide) (by decide)]
    cases cut? ['>'] ((c :: t).dropWhile isTagNameChar) with
    | none => rfl
    | some result => rfl
  | startTag =>
    change readStart false (crlf s) = otherEnds crlfTokens (readStart false s)
    rw [readStart, readStartTag_crlf hs, readStart]
    cases readStartTag false s with
    | error fault => rfl
    | ok result =>
      obtain ⟨tag, after⟩ := result
      simp only [otherEnds_ok]
      have hopens : Element.opensRawText tag.crlf = Element.opensRawText tag := rfl
      rw [hopens]
      split
      · next hraw =>
        have hrun : rawRun tag.crlf (crlf after) =
            (crlf (rawRun tag after).1, crlf (rawRun tag after).2) :=
          (blind_endsRawText (isRawText_of_opensRawText hraw)).breakAt after
        simp [hrun, textTokens_crlf, crlfTokens, Token.crlf]
      · rfl

/-! ## Whole sources -/

theorem scan_crlf (s : List Char) :
    scan false (crlf s) = otherEnds (List.map Token.crlf) (scan false s) := by
  fun_induction scan false s with
  | case1 s hk =>
    rw [scan_eq, textRun_crlf]
    simp only [construct?_crlf, hk, textTokens_crlf, otherEnds_ok]
  | case2 s kind hk fault hr =>
    rw [scan_eq, textRun_crlf]
    simp only [construct?_crlf, hk, readConstruct_crlf hk, hr]
    rfl
  | case3 s kind hk found rest hr fault hmore ih =>
    rw [scan_eq, textRun_crlf]
    simp only [construct?_crlf, hk, readConstruct_crlf hk, hr, otherEnds_ok, crlfTokens,
      Except.bind, ih, hmore]
    rfl
  | case4 s kind hk found rest hr more hmore ih =>
    rw [scan_eq, textRun_crlf]
    simp only [construct?_crlf, hk, readConstruct_crlf hk, hr, otherEnds_ok, crlfTokens,
      Except.bind, ih, hmore, textTokens_crlf, Except.map, List.map_append]

end Scan

/-! ## Sources without carriage returns -/

/-- The texts and comments hold no carriage return. -/
def Token.NoReturn : Token → Prop
  | .text s | .comment s => '\r' ∉ s.toList
  | _ => True

namespace Scan

theorem noReturn_textTokens {s : List Char} (h : '\r' ∉ s) :
    ∀ t ∈ textTokens false s, t.NoReturn := by
  rcases textTokens_false_cases s with ⟨-, htokens⟩ | ⟨u, -, rfl, htokens⟩
  · simp [htokens]
  · simpa [htokens, Token.NoReturn] using h

theorem noReturn_construct {kind : Construct} {s rest : List Char} {found : List Token}
    (hs : '\r' ∉ s) (h : readConstruct false kind s = .ok (found, rest)) :
    ∀ t ∈ found, t.NoReturn := by
  cases kind with
  | comment =>
    simp only [readConstruct, readComment] at h
    split at h
    · next body _ hcut =>
      cases h
      have hbody : body ⊆ s := by
        intro c hc
        apply List.mem_of_mem_drop (i := 4)
        rw [eq_of_cut? hcut]
        exact List.mem_append_left _ hc
      simpa [Token.NoReturn] using fun hmem => hs (hbody hmem)
    · cases h
  | declaration =>
    simp only [readConstruct, readDeclaration] at h
    split at h
    · cases h
      simp [Token.NoReturn]
    · cases h
  | endTag =>
    simp only [readConstruct, readEndTag] at h
    split at h
    · cases h
      simp [Token.NoReturn]
    · cases h
  | startTag =>
    simp only [readConstruct, readStart] at h
    split at h
    · cases h
    · next tag after hread =>
      split at h
      · cases h
        refine List.forall_mem_cons.2 ⟨trivial, noReturn_textTokens fun hmem => hs ?_⟩
        apply (readStartTag_suffix hread).subset
        rw [← breakAt_append _ after]
        exact List.mem_append_left _ hmem
      · cases h
        simp [Token.NoReturn]

theorem noReturn_scan {s : List Char} {tokens : List Token} (h : scan false s = .ok tokens)
    (hs : '\r' ∉ s) : ∀ t ∈ tokens, t.NoReturn := by
  have hrun (s : List Char) : (textRun s).1 ++ (textRun s).2 = s := breakAt_append _ s
  fun_induction scan false s generalizing tokens with
  | case1 s hk =>
    cases h
    rw [← hrun s, List.mem_append, not_or] at hs
    exact noReturn_textTokens hs.1
  | case2 => cases h
  | case3 => cases h
  | case4 s kind hk found rest hr more hmore ih =>
    cases h
    rw [← hrun s, List.mem_append, not_or] at hs
    have hrest : '\r' ∉ rest := fun hmem => hs.2 ((readConstruct_suffix hr).subset hmem)
    exact List.forall_mem_append.2 ⟨List.forall_mem_append.2
      ⟨noReturn_textTokens hs.1, noReturn_construct hs.2 hr⟩, ih hmore hrest⟩

end Scan

end GridMarkup
