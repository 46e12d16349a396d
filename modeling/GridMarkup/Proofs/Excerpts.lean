import GridMarkup.Proofs.Cursors

/-!
# Excerpts of the source

A diagnostic points at pieces of the source that lie on one line each. Printed, it shows these lines
as they stand in the source, with the carets under the pieces.
-/

namespace GridMarkup

open Text Scan

/-- What a position counts in the text before it: bytes, line feeds, and the characters behind the
last line feed. -/
def Position.Counts (p : Position) (before : List Char) : Prop :=
  p.byte = (String.ofList before).utf8ByteSize ∧ p.line = before.count '\n' ∧
    p.column = (lastLine before).length

/-- A line ends in front of this text: at the end of the source, or at a line feed with or without a
carriage return. -/
def EndsLine (line below : List Char) : Prop :=
  '\n' ∉ line ∧
    (below = [] ∨ ['\n'] <+: below ∧ ¬ ['\r'] <:+ line ∨ ['\r', '\n'] <+: below)

/-- A span marks a piece of one line of a source. The line begins behind `above` and ends in front
of `below`. -/
structure Span.Marks (span : Span) (source above lead piece rest below : List Char) : Prop where
  whole : source = above ++ (lead ++ piece ++ rest ++ below)
  begins : above = [] ∨ ['\n'] <:+ above
  ends : EndsLine (lead ++ piece ++ rest) below
  filled : piece ≠ []
  start : span.start.Counts (above ++ lead)
  stop : span.stop.Counts (above ++ lead ++ piece)
  forward : span.start.byte < span.stop.byte
  line : span.start.line = above.count '\n' ∧ span.stop.line = above.count '\n'
  columns : span.start.column = lead.length ∧ span.stop.column = lead.length + piece.length

/-- What is printed for a span: its line under its number, and carets under the piece of the line that
the span marks. The rows begin with gutters of one width. -/
def Span.Shown (palette : Palette) (colour label : String) (source : List Char)
    (span : Span) (shown : String) : Prop :=
  ∃ above lead piece rest below, span.Marks source above lead piece rest below ∧
    ∃ (width padding : Nat) (number : String), number.length = width ∧
      number = String.ofList (List.replicate padding ' ') ++ toString (above.count '\n' + 1) ∧
      shown =
        palette.dim ++ String.ofList (List.replicate width ' ') ++ " |" ++ palette.reset ++ "\n" ++
        palette.dim ++ number ++ " |" ++ palette.reset ++ " " ++
          String.ofList (lead ++ piece ++ rest) ++ "\n" ++
        palette.dim ++ String.ofList (List.replicate width ' ') ++ " |" ++ palette.reset ++ " " ++
          String.ofList (List.replicate lead.length ' ') ++ colour ++
          String.ofList (List.replicate piece.length '^') ++ label ++ palette.reset ++ "\n"

variable {s t line above below before piece lead rest : List Char} {parts more : List (List Char)}

/-! ## Lines that are printed -/

namespace Text

theorem lines_append_feed (s t : List Char) : lines (s ++ '\n' :: t) = lines s ++ lines t := by
  simp only [lines, splitWhere_eq_splitOnP]
  exact List.splitOnP_append_cons s t rfl

theorem lines_of_not_mem (h : '\n' ∉ s) : lines s = [s] := by
  rw [lines, splitWhere_eq_splitOnP]
  exact List.splitOnP_eq_singleton (by simpa using fun c hc => by rintro rfl; exact h hc)

theorem length_lines (s : List Char) : (lines s).length = s.count '\n' + 1 := by
  induction s with
  | nil => rfl
  | cons c s ih =>
    by_cases hc : c = '\n'
    · subst hc
      rw [← List.nil_append ('\n' :: s), lines_append_feed, List.length_append, ih]
      simp [lines, splitWhere]
      omega
    · obtain ⟨first, later, hparts⟩ := List.exists_cons_of_ne_nil (splitWhere_ne_nil (· == '\n') s)
      rw [lines, hparts] at ih
      rw [lines, splitWhere, if_neg (by simpa using hc), hparts, List.count_cons_of_ne hc, ← ih]
      rfl

theorem closeLines_append (parts : List (List Char)) (h : more ≠ []) :
    closeLines (parts ++ more) = parts.map dropReturn ++ closeLines more := by
  induction parts with
  | nil => rfl
  | cons part parts ih =>
    obtain ⟨first, later, hlater⟩ := List.exists_cons_of_ne_nil (l := parts ++ more) (by simp [h])
    rw [List.cons_append, hlater, closeLines, ← hlater, ih]
    · rfl
    · simp

theorem printedLines_append_feed (s t : List Char) :
    printedLines (s ++ '\n' :: t) = (lines s).map dropReturn ++ printedLines t := by
  have hne : lines t ≠ [] := splitWhere_ne_nil _ t
  rw [printedLines, lines_append_feed, closeLines_append _ hne, printedLines]

theorem dropReturn_of_not_suffix (h : ¬ ['\r'] <:+ line) : dropReturn line = line := by
  have hkeep : endsWithReturn line = false := by
    rw [endsWithReturn, beq_eq_false_iff_ne, ne_eq, List.getLast?_eq_some_iff]
    rintro ⟨front, rfl⟩
    exact h (List.suffix_append _ _)
  rw [dropReturn, hkeep]
  rfl

theorem head?_printedLines (hends : EndsLine line below) (hline : line ≠ []) :
    (printedLines (line ++ below)).head? = some line := by
  have hfeed {line : List Char} (h : '\n' ∉ line) (t : List Char) :
      (printedLines (line ++ '\n' :: t)).head? = some (dropReturn line) := by
    rw [printedLines_append_feed, lines_of_not_mem h]
    rfl
  obtain ⟨hline', rfl | ⟨⟨t, rfl⟩, hreturn⟩ | ⟨t, rfl⟩⟩ := hends
  · rw [List.append_nil, printedLines, lines_of_not_mem hline', closeLines, if_neg (by simpa using hline)]
    rfl
  · rw [List.singleton_append, hfeed hline', dropReturn_of_not_suffix hreturn]
  · have hsplit : line ++ (['\r', '\n'] ++ t) = (line ++ ['\r']) ++ '\n' :: t := by simp
    rw [hsplit, hfeed (by simp [hline'])]
    simp [dropReturn, endsWithReturn]

/-- The line that begins behind some text is found by the line feeds in that. -/
theorem printedLines_getElem? (hbegins : above = [] ∨ ['\n'] <:+ above) (hends : EndsLine line below)
    (hline : line ≠ []) :
    (printedLines (above ++ (line ++ below)))[above.count '\n']? = some line := by
  rw [← head?_printedLines hends hline]
  rcases hbegins with rfl | ⟨front, rfl⟩
  · rw [List.nil_append, List.head?_eq_getElem?]
    rfl
  · rw [List.append_assoc, List.singleton_append, printedLines_append_feed,
      List.getElem?_append_right (by simp [length_lines])]
    simp [length_lines, List.head?_eq_getElem?]

end Text

/-! ## Pieces of a line -/

theorem Position.counts_after (before : List Char) :
    (Position.after {} before).Counts before := by
  rw [Position.after_eq]
  exact ⟨rfl, rfl, rfl⟩

theorem lastLine_append (before : List Char) :
    ∃ above, before = above ++ lastLine before ∧ (above = [] ∨ ['\n'] <:+ above) ∧
      '\n' ∉ lastLine before := by
  induction before using List.reverseRecOn with
  | nil => exact ⟨[], rfl, .inl rfl, by simp [lastLine, trailing]⟩
  | append_singleton s c ih =>
    obtain ⟨above, hs, hbegins, hfeed⟩ := ih
    rw [lastLine_append_singleton]
    by_cases hc : c = '\n'
    · subst hc
      exact ⟨s ++ ['\n'], by simp, .inr (List.suffix_append _ _), by simp⟩
    · refine ⟨above, ?_, hbegins, ?_⟩
      · rw [if_neg hc, ← List.append_assoc, ← hs]
      · simp [hc, hfeed, Ne.symm hc]

theorem lastLine_append_line (before : List Char) (h : '\n' ∉ line) :
    lastLine (before ++ line) = lastLine before ++ line := by
  induction line using List.reverseRecOn with
  | nil => simp
  | append_singleton line c ih =>
    rw [List.mem_append, List.mem_singleton, not_or] at h
    rw [← List.append_assoc, lastLine_append_singleton, if_neg (Ne.symm h.2), ih h.1,
      List.append_assoc]

theorem not_return_suffix (hs : ¬ ['\r'] <:+ s) (ht : ¬ ['\r'] <:+ t) : ¬ ['\r'] <:+ s ++ t := by
  rintro ⟨front, hfront⟩
  rcases List.eq_nil_or_concat t with rfl | ⟨line, c, rfl⟩
  · exact hs ⟨front, by rw [hfront, List.append_nil]⟩
  · rw [List.concat_eq_append, ← List.append_assoc] at hfront
    obtain ⟨-, hc⟩ := List.append_inj' hfront rfl
    exact ht ⟨line, by rw [hc, List.concat_eq_append]⟩

/-- A text that no line ends in goes on to the end of its line. -/
theorem exists_endsLine (hfeed : '\n' ∉ s) (hreturn : ¬ ['\r'] <:+ s) (t : List Char) :
    ∃ rest below, t = rest ++ below ∧ EndsLine (s ++ rest) below := by
  have hsource : t.takeWhile (· != '\n') ++ t.dropWhile (· != '\n') = t :=
    List.takeWhile_append_dropWhile
  have hline : '\n' ∉ s ++ t.takeWhile (· != '\n') := by
    rw [List.mem_append, not_or]
    exact ⟨hfeed, fun hmem => absurd (List.mem_takeWhile_imp hmem) (by decide)⟩
  cases hdrop : t.dropWhile (· != '\n') with
  | nil =>
    rw [hdrop, List.append_nil] at hsource
    rw [hsource] at hline
    exact ⟨t, [], (List.append_nil t).symm, hline, .inl rfl⟩
  | cons c below =>
    obtain rfl : c = '\n' := by
      have hhead := List.head_dropWhile_not (· != '\n') (l := t) (by simp [hdrop])
      simpa [hdrop] using hhead
    rw [hdrop] at hsource
    by_cases hend : ['\r'] <:+ t.takeWhile (· != '\n')
    · obtain ⟨rest, hrest⟩ := hend
      rw [← hrest] at hsource hline
      refine ⟨rest, '\r' :: '\n' :: below, by simpa using hsource.symm, ?_, .inr (.inr (by simp))⟩
      rw [← List.append_assoc, List.mem_append, not_or] at hline
      exact hline.1
    · exact ⟨_, '\n' :: below, hsource.symm, hline,
        .inr (.inl ⟨by simp, not_return_suffix hreturn hend⟩)⟩

namespace Opening

/-- The text that opens a construct begins it, and has no blank in it. -/
structure Marked (o : Opening) : Prop where
  starts : o.text <+: o.source
  filled : o.text ≠ []
  unbroken : ∀ c ∈ o.text, isBlank c = false

theorem Marked.marks {o : Opening} (h : o.Marked) (before : List Char) :
    ∃ above lead rest below,
      (o.span (before ++ o.source)).Marks (before ++ o.source) above lead o.text rest below := by
  have hblank {c : Char} (hc : isBlank c = true) : c ∉ o.text := fun hmem => by
    rw [h.unbroken c hmem] at hc
    cases hc
  obtain ⟨above, hbefore, hbegins, hlead⟩ := lastLine_append before
  generalize hlast : lastLine before = lead at hbefore hlead
  subst hbefore
  obtain ⟨after, hafter⟩ := h.starts
  have hfeed : '\n' ∉ o.text := hblank (by decide)
  have hreturn : ¬ ['\r'] <:+ lead ++ o.text := by
    rintro ⟨front, hfront⟩
    have hlast := congrArg List.getLast? hfront
    rw [List.getLast?_append_of_ne_nil _ (by simp), List.getLast?_append_of_ne_nil _ h.filled] at hlast
    exact hblank (by decide) (List.mem_of_getLast? hlast.symm)
  obtain ⟨rest, below, rfl, hends⟩ := exists_endsLine (by simp [hlead, hfeed]) hreturn after
  have hstart := Position.counts_after (above ++ lead)
  have hstop := Position.counts_after (above ++ lead ++ o.text)
  refine ⟨above, lead, rest, below, ?_⟩
  rw [o.span_append, ← Position.after_append]
  refine ⟨?_, hbegins, hends, h.filled, hstart, hstop, ?_, ⟨?_, ?_⟩, ?_, ?_⟩
  · rw [← hafter]
    simp
  · have hpos : 0 < (String.ofList o.text).utf8ByteSize := by
      rw [Nat.pos_iff_ne_zero, ne_eq, String.utf8ByteSize_eq_zero_iff, String.ofList_eq_empty_iff]
      exact h.filled
    rw [hstart.1, hstop.1, Text.utf8ByteSize_append _ o.text]
    omega
  · rw [hstart.2.1, List.count_append, List.count_eq_zero_of_not_mem hlead, Nat.add_zero]
  · have hline : '\n' ∉ lead ++ o.text := by simp [hlead, hfeed]
    rw [hstop.2.1, List.append_assoc, List.count_append, List.count_eq_zero_of_not_mem hline,
      Nat.add_zero]
  · rw [hstart.2.2, hlast]
  · rw [hstop.2.2, lastLine_append_line _ hfeed, hlast, List.length_append]

end Opening

/-- What opens behind a text in the same source begins behind it. -/
theorem Opening.stop_le_start {tag opening : Opening} {between : List Char}
    (h : tag.source = tag.text ++ (between ++ opening.source)) (front : List Char) :
    (tag.span (front ++ tag.source)).stop.byte ≤ (opening.span (front ++ tag.source)).start.byte := by
  have hsource : front ++ tag.source = (front ++ tag.text ++ between) ++ opening.source := by
    rw [h]
    simp
  rw [tag.span_append, hsource, opening.span_append, ← Position.after_append]
  change (Position.after {} (front ++ tag.text)).byte ≤
    (Position.after {} (front ++ tag.text ++ between)).byte
  rw [(Position.counts_after _).1, (Position.counts_after _).1, Text.utf8ByteSize_append _ between]
  omega

/-! ## What is printed -/

namespace Span

variable {span : Span} {source : List Char}

theorem Marks.printedLine (h : span.Marks source above lead piece rest below) :
    (printedLines source)[span.start.line]? = some (lead ++ piece ++ rest) := by
  rw [h.whole, h.line.1]
  exact printedLines_getElem? h.begins h.ends (by simp [h.filled])

theorem Marks.caretCount (h : span.Marks source above lead piece rest below) :
    Diagnostic.caretCount span (lead ++ piece ++ rest) = piece.length := by
  have hpos : 0 < piece.length := List.length_pos_iff.2 h.filled
  rw [Diagnostic.caretCount, if_pos (h.line.2.trans h.line.1.symm), h.columns.1, h.columns.2]
  omega

theorem Marks.shown (h : span.Marks source above lead piece rest below)
    (palette : Palette) (colour label : String) :
    span.Shown palette colour label source
      (Diagnostic.excerpt palette colour label source span) := by
  obtain ⟨number, hnumber⟩ : ∃ number, number = toString (above.count '\n' + 1) := ⟨_, rfl⟩
  have hgutter : Diagnostic.padLeft (max 2 number.length) "" =
      String.ofList (List.replicate (max 2 number.length) ' ') := by
    simp [Diagnostic.padLeft]
  have hstring (s : String) : toString s = s := rfl
  refine ⟨above, lead, piece, rest, below, h, max 2 number.length,
    max 2 number.length - number.length, Diagnostic.padLeft (max 2 number.length) number, ?_, ?_, ?_⟩
  · rw [Diagnostic.padLeft, String.length_append, String.length_ofList, List.length_replicate]
    omega
  · rw [← hnumber]
    rfl
  · rw [Diagnostic.excerpt, h.printedLine]
    simp only [h.caretCount, h.line.1, h.columns.1, ← hnumber, hgutter, hstring, String.append_assoc]

end Span

/-! ## What faults point at -/

namespace Fault

variable {fault : Fault} {kind : Construct} {source faulty front : List Char} {tag : Opening}

theorem marked_start {text : List Char} (hne : text ≠ []) (hblank : text.any isBlank = false)
    (hs : text <+: s) : Opening.Marked ⟨text, s⟩ where
  starts := hs
  filled := hne
  unbroken c hc := Bool.eq_false_iff.2 (List.any_eq_false.1 hblank c hc)

theorem marked_name {name after : List Char} (mark : List Char) (hmark : mark ≠ [])
    (hblank : mark.any isBlank = false) (hs : s = mark ++ (name ++ after))
    (hname : ∀ c ∈ name, isTagNameChar c = true) : Opening.Marked ⟨mark ++ name, s⟩ := by
  refine marked_start (by simp [hmark]) ?_ ⟨after, by rw [hs, List.append_assoc]⟩
  rw [List.any_append, hblank, Bool.false_or, List.any_eq_false]
  intro c hc
  rw [(isTagNameChar_iff.1 (hname c hc)).1]
  exact Bool.false_ne_true

/-- A fault points at the start of a construct or at the quote of a value. -/
theorem About.marked (h : fault.About s kind) (hk : construct? s = some kind) :
    fault.opening.Marked ∧ fault.opening.source <:+ s := by
  cases h with
  | comment =>
    obtain ⟨t, rfl⟩ := construct?_comment_inv hk
    exact ⟨marked_start (by decide) (by decide) ⟨t, rfl⟩, List.suffix_rfl⟩
  | declaration =>
    obtain ⟨t, rfl, -⟩ := construct?_declaration_inv hk
    exact ⟨marked_start (by decide) (by decide) ⟨t, rfl⟩, List.suffix_rfl⟩
  | endTag hs hname =>
    exact ⟨marked_name "</".toList (by decide) (by decide) hs hname, List.suffix_rfl⟩
  | startTag hs hname => exact ⟨marked_name ['<'] (by decide) (by decide) hs hname, List.suffix_rfl⟩
  | attributeValue hs _ hvalue =>
    obtain ⟨_, q, t, hq, ht, rfl⟩ := hvalue
    have hblank : isBlank q = false := by
      rcases hq with rfl | rfl <;> decide
    refine ⟨marked_start (by simp) (by simpa using hblank) ⟨t, rfl⟩, ?_⟩
    rw [hs]
    exact ht.trans ((List.suffix_append _ _).trans (List.suffix_cons _ _))

/-- The tag around a value opens in front of the value. -/
theorem About.around_marked (h : fault.About s kind) (htag : fault.around = some tag) :
    tag.Marked ∧ tag.source = s ∧ ∃ between, s = tag.text ++ (between ++ fault.opening.source) := by
  cases h with
  | attributeValue hs hname hvalue =>
    obtain ⟨_, q, t, -, ⟨between, hbetween⟩, rfl⟩ := hvalue
    obtain rfl := Option.some.inj htag
    refine ⟨marked_name ['<'] (by decide) (by decide) hs hname, rfl, between, ?_⟩
    change s = _ ++ (between ++ q :: t)
    rw [hbetween, hs]
    rfl
  | _ => cases htag

end Fault

theorem Diagnostic.render_excerpts (palette : Palette) (source filename : String)
    (d : Diagnostic) :
    ∃ head tail, d.render palette source filename =
      head ++ excerpt palette palette.red "" source.toList d.span ++
        (d.related.map (excerpt palette palette.dim (" " ++ d.label.getD "opened here")
          source.toList)).getD "" ++ tail := by
  unfold render
  cases d.related with
  | none => exact ⟨_, _, String.append_assoc⟩
  | some span => exact ⟨_, _, String.append_assoc⟩

/-- A diagnostic has the spans that a cursor counts on its way through the source. It counts its
positions exactly and points at pieces of single lines. Printed, it shows the line of each piece and
carets under the piece. A related piece ends before the other one. -/
theorem readTokens_excerpts {decode : Bool} {source : String} {d : Diagnostic}
    (h : readTokens decode source = .error d) (palette : Palette) (filename : String) :
    Cursor.read decode [] ⟨{}, source.toList⟩ = .error ⟨d.span, d.related⟩ ∧
    ∃ head shown related tail,
      d.render palette source filename = head ++ shown ++ related ++ tail ∧
      d.span.Shown palette palette.red "" source.toList shown ∧
      (d.related = none ∧ related = "" ∨
        ∃ span, d.related = some span ∧ span.stop.byte ≤ d.span.start.byte ∧
          span.Shown palette palette.dim (" " ++ d.label.getD "opened here") source.toList
            related) := by
  refine ⟨by rw [Cursor.read_source, h]; rfl, ?_⟩
  obtain ⟨fault, herror, rfl⟩ := readTokens_eq_error_iff.1 h
  obtain ⟨front, faulty, kind, hsource, hk, hread⟩ := scan_fault herror
  have habout := readConstruct_fault hk hread
  obtain ⟨hmarked, lead, hlead⟩ := habout.marked hk
  have hwhole : source.toList = (front ++ lead) ++ fault.opening.source := by
    rw [hsource, ← hlead, List.append_assoc]
  obtain ⟨above, before, rest, below, hmarks⟩ := hmarked.marks (front ++ lead)
  rw [← hwhole, ← fault.diagnostic_span] at hmarks
  obtain ⟨head, tail, hrender⟩ := Diagnostic.render_excerpts palette source filename
    (fault.diagnostic source.toList)
  refine ⟨head, _, _, tail, hrender, hmarks.shown _ _ _, ?_⟩
  rw [fault.diagnostic_related, fault.diagnostic_span]
  cases haround : fault.around with
  | none => exact .inl ⟨rfl, rfl⟩
  | some tag =>
    obtain ⟨htag, rfl, between, hbetween⟩ := habout.around_marked haround
    obtain ⟨above', before', rest', below', hmarks'⟩ := htag.marks front
    rw [← hsource] at hmarks'
    refine .inr ⟨_, rfl, ?_, hmarks'.shown _ _ _⟩
    change (tag.span source.toList).stop.byte ≤ _
    rw [hsource]
    exact Opening.stop_le_start hbetween front

/-- A value on the third line, behind a character of two bytes and lines that end with a carriage
return. -/
theorem readTokens_excerpts_value :
    ∃ head shown related tail,
      Diagnostic.render .plain "é\r\n<p\r\n ü=1 b='x\r\ny" "f.html"
          { kind := .attributeValue
            message := "value of attribute 'b' is never closed"
            span := ⟨⟨16, 2, 7⟩, ⟨17, 2, 8⟩⟩
            related := some ⟨⟨4, 1, 0⟩, ⟨6, 1, 2⟩⟩
            label := some "tag opened here"
            help := some "Add the closing '" } = head ++ shown ++ related ++ tail ∧
        Span.Shown .plain "" "" "é\r\n<p\r\n ü=1 b='x\r\ny".toList ⟨⟨16, 2, 7⟩, ⟨17, 2, 8⟩⟩ shown ∧
        Span.Shown .plain "" " tag opened here" "é\r\n<p\r\n ü=1 b='x\r\ny".toList
          ⟨⟨4, 1, 0⟩, ⟨6, 1, 2⟩⟩ related := by
  have hread : readTokens false "é\r\n<p\r\n ü=1 b='x\r\ny" = .error
      { kind := .attributeValue
        message := "value of attribute 'b' is never closed"
        span := ⟨⟨16, 2, 7⟩, ⟨17, 2, 8⟩⟩
        related := some ⟨⟨4, 1, 0⟩, ⟨6, 1, 2⟩⟩
        label := some "tag opened here"
        help := some "Add the closing '" } := by decide +kernel
  obtain ⟨-, head, shown, related, tail, hrender, hshown,
    ⟨hnone, -⟩ | ⟨span, hspan, -, hrelated⟩⟩ := readTokens_excerpts hread .plain "f.html"
  · cases hnone
  · cases hspan
    exact ⟨head, shown, related, tail, hrender, hshown, hrelated⟩

end GridMarkup
