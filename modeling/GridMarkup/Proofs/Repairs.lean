import GridMarkup.Proofs.Closing
import GridMarkup.Proofs.Cutting
import GridMarkup.Proofs.Verbatim

/-!
# Repairs

What a source leaves open is repaired by closing it. The construct is then read as one token, and
what stands before it as it was.
-/

namespace GridMarkup

open Text Scan Token Element

variable {decode : Bool} {s rest front faulty : List Char} {tag : StartTag} {kind : Construct}
  {tokens found last : List Token} {fault : Fault}

/-! ## What stands before a fault -/

/-- Reading goes over a source to these tokens, and on with the markup behind it. -/
def ReadsAs (decode : Bool) (front : List Char) (tokens : List Token) : Prop :=
  ∀ t, AtConstruct t → scan decode (front ++ t) = (scan decode t).map (tokens ++ ·)

/-- The start tag is read from this piece of source, whatever stands behind. -/
def ReadsStart (decode : Bool) (start : List Char) (tag : StartTag) : Prop :=
  ∀ t, construct? (start ++ t) = some .startTag ∧
    readStartTag decode (start ++ t) = .ok (tag, t)

/-- A start tag, and the raw text that it opens up to `rest`. -/
inductive OpenElement (decode : Bool) (rest : List Char) : List Char → List Token → Prop where
  | mk {start text : List Char} {tag : StartTag} (hstart : ReadsStart decode start tag)
      (hopens : opensRawText tag = true) (htext : rawRun tag (text ++ rest) = (text, rest)) :
      OpenElement decode rest (start ++ text) (.startTag tag :: textTokens false text)

theorem ReadsAs.of_plain (hs : Plain s) : ReadsAs decode s (textTokens decode s) :=
  fun _ ht => scan_text hs ht

theorem ReadsAs.eq_nil (h : ReadsAs decode [] tokens) : tokens = [] := by
  have hnil := h [] (.inl rfl)
  rw [List.append_nil, scan_nil] at hnil
  simpa using (Except.ok.inj hnil).symm

/-- A run of text and a construct stand before what is read on. -/
theorem ReadsAs.construct {run piece : List Char} (hrun : Plain run)
    (hpiece : ∀ t, construct? (piece ++ (front ++ t)) = some kind ∧
      readConstruct decode kind (piece ++ (front ++ t)) = .ok (found, front ++ t))
    (h : ReadsAs decode front tokens) :
    ReadsAs decode (run ++ (piece ++ front)) (textTokens decode run ++ (found ++ tokens)) := by
  intro t ht
  obtain ⟨hk, hread⟩ := hpiece t
  rw [List.append_assoc, List.append_assoc,
    scan_text hrun (.inr (Option.isSome_iff_exists.2 ⟨_, hk⟩)), scan_construct hk, hread]
  change ((scan decode (front ++ t)).map _).map _ = _
  rw [h t ht]
  cases scan decode t with
  | error fault => rfl
  | ok more => exact congrArg Except.ok (by simp)

theorem ReadsStart.readStart {start text t : List Char} (h : ReadsStart decode start tag)
    (hopens : opensRawText tag = true) (htext : rawRun tag t = (text, rest)) :
    readStart decode (start ++ t) = .ok (.startTag tag :: textTokens false text, rest) := by
  simp only [Scan.readStart, (h t).2, hopens, if_true, htext]

/-- A construct is read whatever stands behind it, but for raw text, which is read up to there. -/
theorem readConstruct_instead (hs : construct? (s ++ rest) = some kind)
    (h : readConstruct decode kind (s ++ rest) = .ok (found, rest)) :
    (∀ t, construct? (s ++ t) = some kind ∧ readConstruct decode kind (s ++ t) = .ok (found, t)) ∨
      OpenElement decode rest s found := by
  cases kind with
  | comment => exact .inl (readComment_instead hs h)
  | declaration => exact .inl (readDeclaration_instead hs h)
  | endTag => exact .inl (readEndTag_instead hs h)
  | startTag =>
    simp only [readConstruct, Scan.readStart] at h
    split at h
    · cases h
    · next tag after hread =>
      obtain ⟨start, hstart⟩ := readStartTag_suffix hread
      rw [← hstart] at hs hread
      have hinstead : ReadsStart decode start tag := readStartTag_instead hs hread
      split at h
      · next hopens =>
        cases h
        refine .inr ?_
        have hrun : (rawRun tag after).1 ++ (rawRun tag after).2 = after := breakAt_append _ after
        obtain rfl : s = start ++ (rawRun tag after).1 := by
          apply (List.append_left_inj (rawRun tag after).2).1
          rw [List.append_assoc, hrun, hstart]
        exact .mk hinstead hopens (by rw [hrun])
      · next hopens =>
        cases h
        obtain rfl := (List.append_left_inj rest).1 hstart
        refine .inl fun t => ⟨(hinstead t).1, ?_⟩
        simp only [readConstruct, Scan.readStart, (hinstead t).2, hopens]
        rfl

namespace OpenElement

theorem begins (h : OpenElement decode rest s found) (t : List Char) :
    construct? (s ++ t) = some .startTag := by
  obtain ⟨hstart, -, -⟩ := h
  rw [List.append_assoc]
  exact (hstart _).1

theorem ends (h : OpenElement decode rest s found) (hrest : rest ≠ []) :
    construct? rest = some .endTag := by
  obtain ⟨-, hopens, htext⟩ := h
  have hends := (rawRun_eq_iff.1 htext).2.resolve_left hrest
  exact construct?_endsRawText (isRawText_of_opensRawText hopens) hends

/-- With its end tag behind it, the element is read whatever stands behind that. -/
theorem instead (h : OpenElement decode (front ++ '<' :: rest) s found) (hfront : front ≠ [])
    (t : List Char) :
    construct? (s ++ (front ++ t)) = some .startTag ∧
      readConstruct decode .startTag (s ++ (front ++ t)) = .ok (found, front ++ t) := by
  refine ⟨h.begins _, ?_⟩
  obtain ⟨hstart, hopens, htext⟩ := h
  rw [List.append_assoc]
  exact hstart.readStart hopens (rawRun_instead hopens hfront htext t)

end OpenElement

/-- Before a fault stands what is read in any case, and the element whose raw text the faulty
construct ends, if it ends one. -/
theorem scan_until (h : scan decode s = .error fault) :
    ∃ front tail faulty kind tokens last, s = front ++ (tail ++ faulty) ∧
      construct? faulty = some kind ∧ readConstruct decode kind faulty = .error fault ∧
      ReadsAs decode front tokens ∧
      (tail = [] ∧ last = [] ∨ OpenElement decode faulty tail last) := by
  have hrun (s : List Char) : (textRun s).1 ++ (textRun s).2 = s := breakAt_append _ s
  fun_induction scan decode s with
  | case1 => cases h
  | case2 s kind hk fault hr =>
    cases h
    exact ⟨(textRun s).1, [], (textRun s).2, kind, textTokens decode (textRun s).1, [],
      (hrun s).symm, hk, hr, .of_plain (plain_textRun s), .inl ⟨rfl, rfl⟩⟩
  | case3 s kind hk found rest hr fault hmore ih =>
    cases h
    obtain ⟨front, tail, faulty, kind', tokens, last, rfl, hk', hr', hfront, htail⟩ := ih hmore
    obtain ⟨piece, hpiece⟩ := readConstruct_suffix hr
    rw [← hpiece] at hk hr
    have hsource : s = ((textRun s).1 ++ (piece ++ front)) ++ (tail ++ faulty) := by
      rw [List.append_assoc, List.append_assoc, hpiece, hrun]
    obtain ⟨t, ht⟩ : ∃ t, tail ++ faulty = '<' :: t := by
      rcases htail with ⟨rfl, -⟩ | hlast
      · exact eq_cons_of_construct? hk'
      · exact eq_cons_of_construct? (hlast.begins faulty)
    rcases readConstruct_instead hk hr with hany | hraw
    · exact ⟨_, tail, faulty, kind', _, last, hsource, hk', hr',
        hfront.construct (plain_textRun s) fun t => hany (front ++ t), htail⟩
    · by_cases hnil : front = []
      · -- The faulty construct ends this element, since no start tag can stand there.
        subst hnil
        obtain rfl := hfront.eq_nil
        rw [List.nil_append] at hraw
        rcases htail with ⟨rfl, rfl⟩ | hlast
        · rw [List.append_nil, List.append_assoc] at hsource
          exact ⟨_, piece, faulty, kind', _, found, hsource, hk', hr',
            .of_plain (plain_textRun s), .inr hraw⟩
        · have hend := hraw.ends (by simp [ht])
          rw [hlast.begins] at hend
          cases hend
      · rw [ht] at hraw
        exact ⟨_, tail, faulty, kind', _, last, hsource, hk', hr',
          hfront.construct (plain_textRun s) (hraw.instead hnil), htail⟩
  | case4 => cases h

/-! ## Raw text that ends with its end tag -/

/-- The last token is raw text, and that ends with the end tag of its element but for the `>`. -/
def HalfClosed (tokens : List Token) : Prop :=
  ∃ before tag text n, opensRawText tag = true ∧ lower n = lower tag.name.toList ∧
    "</".toList ++ n <:+ text.toList ∧ tokens = before ++ [.startTag tag, .text text]

theorem HalfClosed.of_suffix {n text : List Char} (hopens : opensRawText tag = true)
    (hn : lower n = lower tag.name.toList) (hsuf : "</".toList ++ n <:+ text) :
    HalfClosed (.startTag tag :: textTokens false text) := by
  rcases textTokens_false_cases text with ⟨rfl, -⟩ | ⟨content, -, rfl, htokens⟩
  · simp at hsuf
  · rw [htokens]
    exact ⟨[], tag, content, n, hopens, hn, hsuf, rfl⟩

theorem HalfClosed.append (h : HalfClosed found) (tokens : List Token) :
    HalfClosed (tokens ++ found) := by
  obtain ⟨before, tag, text, n, hopens, hn, hsuf, rfl⟩ := h
  exact ⟨tokens ++ before, tag, text, n, hopens, hn, hsuf, by simp⟩

/-- At the end of a source that is read, raw text does not end so. -/
theorem not_halfClosed_of_scan (h : scan decode s = .ok tokens) : ¬ HalfClosed tokens := by
  rintro ⟨before, tag, text, n, hopens, hn, hsuf, rfl⟩
  have hlast : .startTag tag :: [.text text] <:+ before ++ [.startTag tag, .text text] :=
    List.suffix_append _ _
  obtain ⟨kept, more, htokens, ⟨front, written, rest, -, -, ⟨hrest, hshortest⟩, hmore⟩, hclosed⟩ :=
    rawContent_of_scan h hopens hlast
  rcases textTokens_false_cases kept with ⟨-, hkept⟩ | ⟨t, -, rfl, hkept⟩
  · -- Only an end tag can be the next token.
    rw [hkept, List.nil_append] at htokens
    subst htokens
    rcases hclosed with hnil | ⟨_, _, heq, -⟩
    · cases hnil
    · cases heq
  · rw [hkept, List.singleton_append] at htokens
    cases htokens
    have hnil : rest = [] := by
      refine hrest.resolve_right fun hend => ?_
      obtain ⟨_, _, heq, -⟩ :=
        scan_endsRawText (isRawText_of_opensRawText hopens) (endTagAt_iff.1 hend) hmore
      cases heq
    refine hshortest _ hsuf (by simp) ?_
    rw [hnil, List.append_nil]
    exact ⟨n, [], (List.append_nil _).symm, hn, by simp⟩

namespace OpenElement

theorem scan_start {start : List Char} (hstart : ReadsStart decode start tag)
    (hopens : opensRawText tag = true) (t : List Char) :
    scan decode (start ++ t) =
      (scan decode (rawRun tag t).2).map (.startTag tag :: textTokens false (rawRun tag t).1 ++ ·) := by
  rw [scan_construct (hstart t).1, readConstruct, hstart.readStart hopens rfl]
  rfl

/-- Raw text in front of a fault is read as it is where the fault is repaired. -/
theorem scan_closed (h : OpenElement decode faulty s found) (hk : construct? faulty = some kind)
    (hread : readConstruct decode kind faulty = .error fault) :
    scan decode (s ++ (faulty ++ fault.closing)) =
      (scan decode (faulty ++ fault.closing)).map (found ++ ·) := by
  obtain ⟨t, rfl⟩ := eq_cons_of_construct? hk
  obtain rfl : kind = .endTag := Option.some.inj (hk.symm.trans (h.ends (by simp)))
  obtain ⟨hstart, hopens, htext⟩ := h
  next start text tag =>
  obtain ⟨hholds, hends⟩ := (rawRun_markup_iff hopens).1 htext
  have hclosing : fault.closing = ['>'] := by
    cases readConstruct_fault hk hread
    rfl
  have hends' : endsRawText tag.name.toList ('<' :: t ++ ['>']) = true := by
    obtain ⟨n, hn, heq | ⟨c, hc, hpre⟩⟩ := endsRawText_iff.1 hends
    · rw [heq]
      exact endsRawText_iff.2 ⟨n, hn, .inr ⟨'>', .inl rfl, List.prefix_rfl⟩⟩
    · exact endsRawText_iff.2 ⟨n, hn, .inr ⟨c, hc, hpre.trans (List.prefix_append _ _)⟩⟩
  have hrun : rawRun tag (text ++ ('<' :: t ++ ['>'])) = (text, '<' :: t ++ ['>']) :=
    (rawRun_markup_iff hopens).2 ⟨hholds, hends'⟩
  rw [hclosing, List.append_assoc, scan_start hstart hopens, hrun]

/-- Without the fault behind it, raw text runs to the end of the source, or it ends before half of
an end tag. -/
theorem scan_cut (h : OpenElement decode ('<' :: rest) s found) :
    scan decode s = .ok found ∨ HalfClosed found ∧ ∃ fault, scan decode s = .error fault := by
  obtain ⟨hstart, hopens, htext⟩ := h
  next start text tag =>
  have hholds := ((rawRun_markup_iff hopens).1 htext).1
  have hread := scan_start hstart hopens text
  by_cases hhalf : ∃ n, lower n = lower tag.name.toList ∧ "</".toList ++ n <:+ text
  · obtain ⟨n, hn, kept, rfl⟩ := hhalf
    obtain ⟨fault, herror⟩ : ∃ fault, scan decode ("</".toList ++ n) = .error fault :=
      scan_halfEndTag (isRawText_of_opensRawText hopens) hn
    rw [rawRun_half hopens hn hholds, herror] at hread
    exact .inr ⟨.of_suffix hopens hn (List.suffix_append _ _), fault, hread⟩
  · rw [rawRun_whole hholds hhalf, scan_nil] at hread
    exact .inl (hread.trans (congrArg Except.ok (List.append_nil _)))

end OpenElement

/-! ## Sources -/

/-- What the help of a diagnostic names: the end of the construct, or the quote that ends a value. -/
def Diagnostic.mark (d : Diagnostic) : List Char :=
  match d.kind with
  | .comment => "-->".toList
  | .tag => ['>']
  | .attributeValue => (d.help.getD "").toList.getLast?.toList

/-- What has to be put behind a source to repair it. Behind a value, its tag is closed as well. -/
def Diagnostic.terminator (d : Diagnostic) : String :=
  String.ofList (d.mark ++ if d.kind = .attributeValue then ['>'] else [])

/-- Where the construct begins that a diagnostic is about. -/
def Diagnostic.opens (d : Diagnostic) : Position := (d.related.getD d.span).start

/-- The constructs that a diagnostic can be about. -/
def Diagnostic.Kind.constructs : Diagnostic.Kind → List Construct
  | .comment => [.comment]
  | .tag => [.declaration, .endTag, .startTag]
  | .attributeValue => [.startTag]

theorem Fault.terminator_diagnostic (fault : Fault) (s : List Char) :
    (fault.diagnostic s).terminator = String.ofList fault.closing := by
  cases fault with
  | attributeValue name quote opening tag =>
    simp [diagnostic, Diagnostic.terminator, Diagnostic.mark, closing]
  | _ => rfl

/-- The help names what is missing. -/
theorem Fault.mark_infix_help (fault : Fault) (s : List Char) :
    ∃ help, (fault.diagnostic s).help = some help ∧ (fault.diagnostic s).mark ≠ [] ∧
      (fault.diagnostic s).mark <:+: help.toList := by
  have hne : (fault.diagnostic s).mark ≠ [] := by
    cases fault <;> simp [diagnostic, Diagnostic.mark]
  cases fault with
  | comment => exact ⟨_, rfl, hne, "Close the comment with ".toList, [], rfl⟩
  | declaration => exact ⟨_, rfl, hne, "Close the declaration with ".toList, [], rfl⟩
  | endTag => exact ⟨_, rfl, hne, "Add the closing ".toList, [], rfl⟩
  | startTag => exact ⟨_, rfl, hne, "Add the closing ".toList, " or />".toList, rfl⟩
  | attributeValue name quote opening tag =>
    refine ⟨_, rfl, hne, "Add the closing ".toList, [], ?_⟩
    simp [diagnostic, Diagnostic.mark]

/-- What the repair of a source shows. -/
structure Repaired (decode : Bool) (source : String) (d : Diagnostic) (front : String)
    (kind : Construct) (tokens : List Token) (token : Token) : Prop where
  faulty : ∃ faulty, source = front ++ faulty ∧ construct? faulty.toList = some kind
  opens : front.utf8ByteSize = d.opens.byte
  named : ∃ help, d.help = some help ∧ d.mark ≠ [] ∧ d.mark <:+: help.toList
  about : kind ∈ d.kind.constructs
  readFrom : token.readFrom? = some kind
  whole : readTokens decode (source ++ d.terminator) = .ok (tokens ++ [token])

theorem scan_repaired (h : scan decode s = .error fault) :
    ∃ front faulty kind tokens token, s = front ++ faulty ∧ construct? faulty = some kind ∧
      readConstruct decode kind faulty = .error fault ∧ token.readFrom? = some kind ∧
      scan decode (s ++ fault.closing) = .ok (tokens ++ [token]) ∧
      (scan decode front = .ok tokens ∨
        HalfClosed tokens ∧ ∃ fault, scan decode front = .error fault) := by
  obtain ⟨front, tail, faulty, kind, tokens, last, rfl, hk, hread, hfront, htail⟩ := scan_until h
  obtain ⟨hk', token, htoken, hclosed⟩ := readConstruct_closed hk hread
  have hfaulty : scan decode (faulty ++ fault.closing) = .ok [token] := by
    rw [scan_construct hk', hclosed]
    change (scan decode []).map _ = _
    rw [scan_nil]
    rfl
  have hat {t : List Char} {kind : Construct} (ht : construct? t = some kind) : AtConstruct t :=
    .inr (Option.isSome_iff_exists.2 ⟨_, ht⟩)
  rcases htail with ⟨rfl, rfl⟩ | hlast
  · refine ⟨front, faulty, kind, tokens, token, rfl, hk, hread, htoken, ?_, .inl ?_⟩
    · rw [List.nil_append, List.append_assoc, hfront _ (hat hk'), hfaulty]
      rfl
    · have hcut := hfront [] (.inl rfl)
      rw [List.append_nil, scan_nil] at hcut
      rw [hcut]
      exact congrArg Except.ok (List.append_nil _)
  · refine ⟨front ++ tail, faulty, kind, tokens ++ last, token, (List.append_assoc _ _ _).symm, hk,
      hread, htoken, ?_, ?_⟩
    · rw [List.append_assoc, List.append_assoc, hfront _ (hat (hlast.begins _)),
        hlast.scan_closed hk hread, hfaulty]
      exact congrArg Except.ok (List.append_assoc _ _ _).symm
    · have hbegins := hlast.begins []
      rw [List.append_nil] at hbegins
      rw [hfront _ (hat hbegins)]
      obtain ⟨t, rfl⟩ := eq_cons_of_construct? hk
      refine hlast.scan_cut.imp ?_ ?_
      · rintro hcut
        rw [hcut]
        rfl
      · rintro ⟨hhalf, fault, herror⟩
        exact ⟨hhalf.append tokens, fault, by rw [herror]; rfl⟩

/-- The construct begins where the source in front of it ends. -/
theorem Fault.About.opens (h : fault.About faulty kind) (front : List Char) :
    (fault.diagnostic (front ++ faulty)).opens.byte = (String.ofList front).utf8ByteSize := by
  have hspan (text : List Char) :
      ((Opening.mk text faulty).span (front ++ faulty)).start.byte =
        (String.ofList front).utf8ByteSize := by
    have hspan := Opening.span_append ⟨text, faulty⟩ front
    rw [hspan, Position.after_eq]
  cases h with
  | comment => exact hspan _
  | declaration => exact hspan _
  | endTag => exact hspan _
  | startTag => exact hspan _
  | attributeValue _ _ hvalue =>
    obtain ⟨_, _, _, -, -, rfl⟩ := hvalue
    exact hspan _

theorem Fault.About.mem_constructs (h : fault.About faulty kind) (s : List Char) :
    kind ∈ (fault.diagnostic s).kind.constructs := by
  cases h with
  | attributeValue _ _ hvalue =>
    obtain ⟨_, _, _, -, -, rfl⟩ := hvalue
    exact List.mem_singleton_self _
  | _ => simp [diagnostic, Diagnostic.Kind.constructs]

/-- Every source that cannot be read is repaired by the terminator that the help asks for. The
construct that is never closed becomes one token of its kind, behind the tokens of what stands in
front of it. Those are found there without it too, unless they end in raw text that half of its end
tag ends. -/
theorem readTokens_repaired {source : String} {d : Diagnostic}
    (h : readTokens decode source = .error d) :
    ∃ front kind tokens token, Repaired decode source d front kind tokens token ∧
      (¬ HalfClosed tokens → readTokens decode front = .ok tokens) ∧
      (HalfClosed tokens → ∃ d, readTokens decode front = .error d) := by
  obtain ⟨fault, herror, rfl⟩ := readTokens_eq_error_iff.1 h
  obtain ⟨front, faulty, kind, tokens, token, hs, hk, hread, htoken, hwhole, hfront⟩ :=
    scan_repaired herror
  have habout := readConstruct_fault hk hread
  have hsource : source = String.ofList front ++ String.ofList faulty := by
    rw [← String.ofList_append, ← hs, String.ofList_toList]
  refine ⟨String.ofList front, kind, tokens, token, ?_, ?_, ?_⟩
  · refine ⟨⟨_, hsource, ?_⟩, ?_, fault.mark_infix_help _, habout.mem_constructs _, htoken, ?_⟩
    · rwa [String.toList_ofList]
    · rw [hs]
      exact (habout.opens front).symm
    · rw [readTokens_eq_ok_iff, fault.terminator_diagnostic, String.toList_append,
        String.toList_ofList]
      exact hwhole
  · intro hhalf
    rw [readTokens_eq_ok_iff, String.toList_ofList]
    exact hfront.resolve_right fun h => hhalf h.1
  · intro hhalf
    rcases hfront with hok | ⟨-, fault, hfront⟩
    · exact absurd hhalf (not_halfClosed_of_scan hok)
    · exact ⟨_, readTokens_eq_error_iff.2 ⟨fault, by rwa [String.toList_ofList], rfl⟩⟩

/-- A value that is open behind raw text, and behind a character of two bytes. -/
theorem readTokens_repaired_value :
    ∃ front kind tokens token,
      Repaired true "é<style>&lt;</b</STYLE x><q b='c>"
          { kind := .attributeValue
            message := "value of attribute 'b' is never closed"
            span := ⟨⟨31, 0, 30⟩, ⟨32, 0, 31⟩⟩
            related := some ⟨⟨26, 0, 25⟩, ⟨28, 0, 27⟩⟩
            label := some "tag opened here"
            help := some "Add the closing '" } front kind tokens token ∧
        (¬ HalfClosed tokens → readTokens true front = .ok tokens) ∧
        (HalfClosed tokens → ∃ d, readTokens true front = .error d) :=
  readTokens_repaired (by decide +kernel)

/-- In front of an end tag, half an end tag of the same name is raw text. Where nothing follows it,
it is an end tag that is never closed. -/
theorem halfClosed_not_read :
    ∃ d, readTokens true "<script></script</script" = .error d ∧
      ∀ front kind tokens token, Repaired true "<script></script</script" d front kind tokens token →
        readTokens true front ≠ .ok tokens := by
  refine ⟨
    { kind := .tag
      message := "end tag </script> is never closed"
      span := ⟨⟨16, 0, 16⟩, ⟨24, 0, 24⟩⟩
      help := some "Add the closing >" }, by decide +kernel, ?_⟩
  intro front kind tokens token hrepaired hread
  have hwhole : readTokens true "<script></script</script>" =
      .ok ([.startTag ⟨"script", [], false⟩, .text "</script"] ++ [.endTag "script"]) := by
    decide +kernel
  have htokens := Except.ok.inj (hrepaired.whole.symm.trans hwhole)
  obtain ⟨rfl, -⟩ := List.append_inj' htokens rfl
  refine not_halfClosed_of_scan (readTokens_eq_ok_iff.1 hread) ?_
  exact ⟨[], _, _, "script".toList, by decide, rfl, ⟨[], rfl⟩, rfl⟩

end GridMarkup
