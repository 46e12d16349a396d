import GridMarkup.Proofs.Written

/-!
# Raw text

Raw text ends before an end tag of its element. What stands in front of such a tag decides alone
whether it holds one itself.
-/

namespace GridMarkup

open Text Scan Token Element

variable {decode raw : Bool} {name s n rest text : List Char} {tag read : StartTag}

/-! ## End tags in raw text -/

/-- What has to follow the name of an end tag in raw text. -/
def EndsName (c : Char) : Prop := c = '>' ∨ c = '/' ∨ isAsciiSpace c = true

/-- An end tag of that name begins here, in any ASCII case. -/
def EndTagAt (name s : List Char) : Prop :=
  ∃ n rest, s = "</".toList ++ n ++ rest ∧ lower n = lower name ∧ ∀ c, rest.head? = some c → EndsName c

/-- The text holds an end tag of that name, in any ASCII case. -/
def HoldsEndTag (name s : List Char) : Prop :=
  ∃ n c, lower n = lower name ∧ EndsName c ∧ "</".toList ++ n ++ [c] <:+: s

theorem lower_length (name : List Char) : (lower name).length = name.length := List.length_map _

theorem length_eq_of_lower (h : lower n = lower name) : n.length = name.length := by
  rw [← lower_length n, h, lower_length]

theorem endsRawText_iff : endsRawText name s = true ↔
    ∃ n, lower n = lower name ∧
      (s = "</".toList ++ n ∨ ∃ c, EndsName c ∧ "</".toList ++ n ++ [c] <+: s) := by
  unfold endsRawText
  constructor
  · intro h
    split at h
    · cases h
    · next rest hstrip =>
      rw [Bool.and_eq_true, beq_iff_eq] at h
      obtain ⟨hname, hend⟩ := h
      have hs : s = "</".toList ++ (rest.take name.length ++ rest.drop name.length) := by
        rw [List.take_append_drop]
        exact strip?_eq_some_iff.1 hstrip
      refine ⟨rest.take name.length, hname, ?_⟩
      split at hend
      · next hdrop => exact .inl (by rw [hs, hdrop, List.append_nil])
      · next c t hdrop =>
        refine .inr ⟨c, ?_, t, by rw [hs, hdrop]; simp⟩
        simpa [EndsName, or_assoc] using hend
  · rintro ⟨n, hname, rfl | ⟨c, hc, t, rfl⟩⟩
    · have hlength := length_eq_of_lower hname
      rw [strip?_append]
      simp [← hlength, hname]
    · have hlength := length_eq_of_lower hname
      have hend : (c == '>' || c == '/' || isAsciiSpace c) = true := by
        simpa [EndsName, or_assoc] using hc
      rw [List.append_assoc, List.append_assoc, strip?_append]
      simp [← hlength, hname, hend]

theorem endTagAt_iff : EndTagAt name s ↔ endsRawText name s = true := by
  rw [endsRawText_iff]
  constructor
  · rintro ⟨n, rest, rfl, hn, hrest⟩
    cases rest with
    | nil => exact ⟨n, hn, .inl (List.append_nil _)⟩
    | cons c t => exact ⟨n, hn, .inr ⟨c, hrest c rfl, t, by simp⟩⟩
  · rintro ⟨n, hn, rfl | ⟨c, hc, t, rfl⟩⟩
    · exact ⟨n, [], (List.append_nil _).symm, hn, by simp⟩
    · exact ⟨n, c :: t, by simp, hn, by simpa using hc⟩

theorem lower_of_isRawText (hraw : isRawText (String.ofList name) = true) :
    lower name = "script".toList ∨ lower name = "style".toList := by
  have hcases : String.ofList (lower name) = "script" ∨ String.ofList (lower name) = "style" := by
    simpa [isRawText, rawTextNames] using hraw
  rcases hcases with h | h
  · exact .inl (by rw [← h, String.toList_ofList])
  · exact .inr (by rw [← h, String.toList_ofList])

theorem lt_not_mem_of_lower (hraw : isRawText (String.ofList name) = true)
    (hn : lower n = lower name) : '<' ∉ n := by
  intro hmem
  have hlt : '<' ∈ lower name := by
    rw [← hn]
    exact List.mem_map.2 ⟨'<', hmem, rfl⟩
  rcases lower_of_isRawText hraw with hlower | hlower
  · rw [hlower] at hlt
    exact absurd hlt (by decide)
  · rw [hlower] at hlt
    exact absurd hlt (by decide)

theorem lt_not_mem_endTag {c : Char} (hraw : isRawText (String.ofList name) = true)
    (hn : lower n = lower name) (hc : EndsName c) : '<' ∉ '/' :: (n ++ [c]) := by
  have hne : '<' ≠ c := by
    rintro rfl
    rcases hc with h | h | h
    · cases h
    · cases h
    · exact absurd h (by decide)
  simp [lt_not_mem_of_lower hraw hn, hne]

/-- In front of markup, a text holds an end tag or it does not, whatever the markup is. -/
theorem avoids_endsRawText_iff (hraw : isRawText (String.ofList name) = true) :
    Avoids (endsRawText name) s ('<' :: rest) ↔ ¬ HoldsEndTag name s := by
  constructor
  · rintro havoids ⟨n, c, hn, hc, hinside⟩
    obtain ⟨v, hpre, hsuf⟩ := List.infix_iff_prefix_suffix.1 hinside
    have hne : v ≠ [] := by
      rintro rfl
      simp at hpre
    have htrue : endsRawText name (v ++ '<' :: rest) = true :=
      endsRawText_iff.2 ⟨n, hn, .inr ⟨c, hc, hpre.trans (List.prefix_append _ _)⟩⟩
    rw [havoids v hsuf hne] at htrue
    cases htrue
  · intro hholds v hv hne
    rw [Bool.eq_false_iff, ne_eq, endsRawText_iff]
    obtain ⟨a, w, rfl⟩ := List.exists_cons_of_ne_nil hne
    rintro ⟨n, hn, heq | ⟨c, hc, hpre⟩⟩
    · have hlt : '<' ∈ '/' :: n := by
        have htail : w ++ '<' :: rest = '/' :: n := (List.cons.inj heq).2
        rw [← htail]
        simp
      have hn := lt_not_mem_of_lower hraw hn
      simp [hn] at hlt
    · have hpre' : '<' :: ('/' :: (n ++ [c])) <+: a :: (w ++ '<' :: rest) := hpre
      rw [List.cons_prefix_cons, prefix_append_cons_iff (lt_not_mem_endTag hraw hn hc)] at hpre'
      refine hholds ⟨n, c, hn, hc, List.IsInfix.trans ?_ hv.isInfix⟩
      exact (List.cons_prefix_cons.2 hpre').isInfix

/-! ## Raw text elements -/

theorem isRawText_of_opensRawText (h : opensRawText tag = true) :
    isRawText (String.ofList tag.name.toList) = true := by
  rw [String.ofList_toList]
  simp only [opensRawText, Bool.and_eq_true] at h
  exact h.2

theorem endsRawText_endTag {name : String} (h : lower name.toList = lower tag.name.toList)
    (rest : List Char) :
    endsRawText tag.name.toList ((Token.endTag name).chars decode raw ++ rest) = true :=
  endsRawText_iff.2 ⟨name.toList, h, .inr ⟨'>', .inl rfl, rest, by simp [Token.chars]⟩⟩

/-- The start tag of a raw text element is read with the text up to its end. -/
theorem scan_rawText (ht : (Token.startTag tag).Writable)
    (hread : readStartTag decode (startTagChars decode tag ++ (text ++ rest)) =
      .ok (read, text ++ rest))
    (hopens : opensRawText read = true) (htext : Avoids (endsRawText tag.name.toList) text rest)
    (hrest : rest = [] ∨ endsRawText tag.name.toList rest = true) :
    scan decode (startTagChars decode tag ++ (text ++ rest)) =
      (scan decode rest).map (.startTag read :: textTokens false text ++ ·) := by
  obtain ⟨c, s, hcs, hc⟩ := ht.1.1
  have hconstruct : construct? (startTagChars decode tag ++ (text ++ rest)) = some .startTag := by
    rw [startTagChars_eq, hcs]
    exact construct?_startTag hc _
  have hrun : rawRun read (text ++ rest) = (text, rest) := by
    rw [rawRun, StartTag.name_of_read ht hread]
    exact breakAt_of_avoids htext hrest
  rw [scan_construct hconstruct, readConstruct, readStart, hread]
  simp only [hopens, if_true, hrun]
  rfl

theorem scan_startTag (ht : (Token.startTag tag).Writable)
    (hread : readStartTag decode (startTagChars decode tag ++ rest) = .ok (read, rest))
    (hopens : opensRawText read = false) :
    scan decode (startTagChars decode tag ++ rest) =
      (scan decode rest).map (.startTag read :: ·) := by
  obtain ⟨c, s, hcs, hc⟩ := ht.1.1
  have hconstruct : construct? (startTagChars decode tag ++ rest) = some .startTag := by
    rw [startTagChars_eq, hcs]
    exact construct?_startTag hc _
  rw [scan_construct hconstruct, readConstruct, readStart, hread]
  simp only [hopens, Bool.false_eq_true, if_false]
  rfl

/-- Whatever a start tag is read as, it is the first token of the result. -/
theorem scan_startTag_inv (ht : (Token.startTag tag).Writable) {tokens : List Token}
    (h : scan decode (startTagChars decode tag ++ rest) = .ok tokens) :
    ∃ read after more, readStartTag decode (startTagChars decode tag ++ rest) = .ok (read, after) ∧
      tokens = .startTag read :: more := by
  obtain ⟨c, s, hcs, hc⟩ := ht.1.1
  have hconstruct : construct? (startTagChars decode tag ++ rest) = some .startTag := by
    rw [startTagChars_eq, hcs]
    exact construct?_startTag hc _
  rw [scan_construct hconstruct, readConstruct, readStart] at h
  split at h
  · cases h
  · next read after hread =>
    split at h
    · obtain ⟨_, -, heq⟩ := map_eq_ok_iff.1 h
      exact ⟨read, after, _, hread, heq.symm⟩
    · obtain ⟨_, -, heq⟩ := map_eq_ok_iff.1 h
      exact ⟨read, after, _, hread, heq.symm⟩

end GridMarkup
