import GridMarkup.Proofs.Extending
import GridMarkup.Proofs.Scanned
import GridMarkup.Proofs.Sent
import GridMarkup.Proofs.Stages

/-!
# Raw text is kept

The content of a raw text element is the shortest piece of the source in front of an end tag of that
name. Outside of resource blocks it is written as it stands in the source, right behind the start
tag, whatever the stages do around it.
-/

namespace GridMarkup

open Text Scan Token Element

/-! ## Raw text in the source -/

/-- The text is the shortest one in front of an end tag of that name, and without one all there
is. -/
def ShortestBefore (name text rest : List Char) : Prop :=
  (rest = [] ∨ EndTagAt name rest) ∧ ∀ v, v <:+ text → v ≠ [] → ¬ EndTagAt name (v ++ rest)

/-- An end tag of that name is the first token, if there is any. -/
def StartsWithEnd (name : String) (tokens : List Token) : Prop :=
  tokens = [] ∨ ∃ n later, tokens = .endTag n :: later ∧ lower n.toList = lower name.toList

/-- The raw text behind a start tag, in the source and among the tokens. It is at most one token,
and an end tag of the element follows it or nothing. -/
structure RawContent (decode : Bool) (source : List Char) (tag : StartTag) (after : List Token)
    (text : List Char) (more : List Token) : Prop where
  tokens : after = textTokens false text ++ more
  source : ∃ front written rest, source = front ++ (written ++ (text ++ rest)) ∧
    readStartTag decode (written ++ (text ++ rest)) = .ok (tag, text ++ rest) ∧
    ShortestBefore tag.name.toList text rest ∧ scan decode rest = .ok more
  closed : StartsWithEnd tag.name more

variable {decode : Bool} {name s rest text : List Char} {tag : StartTag} {o : Options}
  {tokens before after more later : List Token} {block : Option Resource.Block} {g : Grid}

theorem shortestBefore_rawRun (tag : StartTag) (s : List Char) :
    ShortestBefore tag.name.toList (rawRun tag s).1 (rawRun tag s).2 := by
  constructor
  · rw [endTagAt_iff]
    exact breakAt_rest _ s
  · intro v hv hne
    rw [endTagAt_iff, Bool.not_eq_true]
    exact avoids_breakAt _ s v hv hne

theorem startTag_suffix_textTokens :
    .startTag tag :: after <:+ textTokens decode text ++ tokens ↔
      .startTag tag :: after <:+ tokens := by
  rcases textTokens_eq decode text with htokens | ⟨t, htokens, -, -⟩
  · rw [htokens, List.nil_append]
  · rw [htokens, List.singleton_append, List.suffix_cons_iff]
    simp

theorem RawContent.of_suffix {more' : List Token} (h : RawContent decode rest tag after text more')
    (hrest : rest <:+ s) : RawContent decode s tag after text more' := by
  obtain ⟨lead, rfl⟩ := hrest
  obtain ⟨front, written, rest, hsource, hread⟩ := h.source
  refine ⟨h.tokens, ⟨lead ++ front, written, rest, ?_, hread⟩, h.closed⟩
  rw [hsource, List.append_assoc]

/-- Every start tag that opens raw text has its content behind it. -/
theorem rawContent_of_scan (h : scan decode s = .ok tokens) (hopens : opensRawText tag = true)
    (hafter : .startTag tag :: after <:+ tokens) :
    ∃ text more, RawContent decode s tag after text more := by
  fun_induction scan decode s generalizing tokens with
  | case1 s hk =>
    cases h
    rw [← List.append_nil (textTokens _ _), startTag_suffix_textTokens] at hafter
    cases List.suffix_nil.1 hafter
  | case2 => cases h
  | case3 => cases h
  | case4 s kind hk found rest hr more hmore ih =>
    cases h
    have hrest : rest <:+ s := (readConstruct_suffix hr).trans ⟨_, breakAt_append _ s⟩
    rw [List.append_assoc, startTag_suffix_textTokens] at hafter
    have hlater (h : .startTag tag :: after <:+ more) :
        ∃ text more', RawContent decode s tag after text more' := by
      obtain ⟨text, more', hcontent⟩ := ih hmore h
      exact ⟨text, more', hcontent.of_suffix hrest⟩
    rcases readConstruct_tokens hk hr with
      ⟨t, rfl, -, hraw, -⟩ | ⟨first, behind, hread, -, hfirst, rfl, rfl⟩
    · rcases List.suffix_cons_iff.1 hafter with heq | hafter
      · cases heq
        exact absurd (hopens.symm.trans hraw) (by decide)
      · exact hlater hafter
    · rcases List.suffix_cons_iff.1 hafter with heq | hafter
      · cases heq
        refine ⟨(rawRun tag behind).1, more, rfl, ?_, ?_⟩
        · obtain ⟨written, hwritten⟩ := readStartTag_suffix hread
          have hbehind : (rawRun tag behind).1 ++ (rawRun tag behind).2 = behind :=
            breakAt_append _ behind
          refine ⟨(textRun s).1, written, (rawRun tag behind).2, ?_, ?_,
            shortestBefore_rawRun tag behind, hmore⟩
          · rw [hbehind, hwritten]
            exact (breakAt_append _ s).symm
          · rw [hbehind, hwritten]
            exact hread
        · rcases breakAt_rest (endsRawText tag.name.toList) behind with hnil | hends
          · rw [← rawRun] at hnil
            rw [hnil, scan_nil] at hmore
            cases hmore
            exact .inl rfl
          · obtain ⟨n, later, hmore, hn⟩ :=
              scan_endsRawText (isRawText_of_opensRawText hopens) hends hmore
            exact .inr ⟨n, later, hmore, hn⟩
      · exact hlater (startTag_suffix_textTokens.1 hafter)

/-! ## Raw text in the stages -/

theorem StartsWithEnd.of_head? {name : String} (h : StartsWithEnd name more)
    (hhead : later.head? = more.head?) : StartsWithEnd name later := by
  rcases h with rfl | ⟨n, rest, rfl, hn⟩
  · exact .inl (List.head?_eq_none_iff.1 hhead)
  · obtain ⟨rest, rfl⟩ := List.head?_eq_some_iff.1 hhead
    exact .inr ⟨n, rest, rfl, hn⟩

/-- Outside of blocks, a raw text element goes on as it is. -/
theorem Resource.expandAll_rawText (indent : String) (text : List Char)
    (hopens : opensRawText tag = true) (hmore : StartsWithEnd tag.name more) :
    ∃ later, (expandAll none
        (Expansion.indented indent (.startTag tag :: (textTokens false text ++ more)))).2 =
          .startTag tag :: (textTokens false text ++ later) ∧ later.head? = more.head? := by
  have hend (indent : String) : ∃ later,
      (expandAll none (Expansion.indented indent more)).2 = later ∧ later.head? = more.head? := by
    rcases hmore with rfl | ⟨n, later, rfl, -⟩
    · exact ⟨[], rfl, rfl⟩
    · exact ⟨_, rfl, rfl⟩
  rw [Expansion.indented, expandAll]
  simp only [step, Resource.outside_rawText _ hopens]
  rcases textTokens_false_cases text with ⟨-, htokens⟩ | ⟨s, -, -, htokens⟩
  · obtain ⟨later, hlater, hhead⟩ := hend indent
    rw [htokens]
    exact ⟨later, congrArg (_ :: ·) hlater, hhead⟩
  · obtain ⟨later, hlater, hhead⟩ := hend (Expansion.indentAfter indent (.text s))
    rw [htokens]
    exact ⟨later, congrArg (_ :: _ :: ·) hlater, hhead⟩

/-- The grid puts a raw text element behind what it settles, and lets its content through. -/
theorem Grid.expandAll_rawText (g : Grid) (text : List Char)
    (hopens : opensRawText tag = true) (hmore : StartsWithEnd tag.name more) :
    ∃ later, (g.expandAll (.startTag tag :: (textTokens false text ++ more))).2 =
      g.settle.2.tokens ++ .startTag (expandTag tag) :: (textTokens false text ++ later) ∧
        later.head? = more.head? := by
  have hpasses : (Stage.grid g.settle.1).Passes := settle_not_waiting g
  obtain ⟨hstate, htokens⟩ := g.step_rawText hopens
  have hend : ∃ later, (g.settle.1.expandAll more).2 = later ∧ later.head? = more.head? := by
    rcases hmore with rfl | ⟨n, later, rfl, hn⟩
    · exact ⟨[], rfl, rfl⟩
    · have hraw : isRawText n = true := by
        have htag := isRawText_of_opensRawText hopens
        rwa [isRawText, String.toList_ofList, ← hn] at htag
      have hsent : (g.settle.1.step (.endTag n)).2.tokens = [.endTag n] :=
        hpasses.stepEndTag hraw ""
      refine ⟨.endTag n :: ((g.settle.1.step (.endTag n)).1.expandAll later).2, ?_, rfl⟩
      simp [expandAll, hsent]
  obtain ⟨later, hlater, hhead⟩ := hend
  refine ⟨later, ?_, hhead⟩
  rw [expandAll]
  simp only [hstate, htokens]
  rcases textTokens_false_cases text with ⟨-, htext⟩ | ⟨s, -, -, htext⟩
  · rw [htext, List.nil_append, hlater, List.append_assoc]
    rfl
  · obtain ⟨hsame, hsent⟩ := hpasses.stepText "" s
    have hsame : (g.settle.1.step (.text s)).1 = g.settle.1 := Stage.grid.inj hsame
    have hsent : (g.settle.1.step (.text s)).2.tokens = [.text s] := hsent
    rw [htext, List.singleton_append, expandAll]
    simp only [hsame, hsent, hlater]
    simp

/-! ## Raw text in a compilation -/

/-- What is written for a tag that is no grid tag. -/
def Options.sentTag (o : Options) (tag : StartTag) : StartTag :=
  if o.grid then Grid.expandTag tag else tag

theorem Options.included_rawText (text : List Char) (hblock : o.openBlock before = none)
    (hopens : opensRawText tag = true) (hmore : StartsWithEnd tag.name more) :
    ∃ later, o.included (before ++ .startTag tag :: (textTokens false text ++ more)) =
      o.included before ++ .startTag tag :: (textTokens false text ++ later) ∧
        later.head? = more.head? := by
  unfold included
  unfold openBlock at hblock
  cases hresources : o.resources with
  | false => exact ⟨more, rfl, rfl⟩
  | true =>
    rw [hresources, if_pos rfl] at hblock
    obtain ⟨later, hlater, hhead⟩ := Resource.expandAll_rawText
      (before.foldl Expansion.indentAfter "") text hopens hmore
    refine ⟨later, ?_, hhead⟩
    rw [if_pos rfl, if_pos rfl, Expansion.indented_append, Resource.expandAll_append, hblock,
      hlater]

/-- A raw text element outside of blocks is sent with its content behind it. -/
theorem Options.expand_rawText (hblock : o.openBlock before = none)
    (hopens : opensRawText tag = true) :
    ∃ sent, ∀ text more, StartsWithEnd tag.name more →
      ∃ later, o.expand (before ++ .startTag tag :: (textTokens false text ++ more)) =
        sent ++ .startTag (o.sentTag tag) :: (textTokens false text ++ later) ∧
          later.head? = more.head? := by
  cases hgrid : o.grid with
  | false =>
    refine ⟨o.included before, fun text more hmore => ?_⟩
    obtain ⟨later, hincluded, hhead⟩ := included_rawText text hblock hopens hmore
    exact ⟨later, by simp [expand_eq, sentTag, hgrid, hincluded], hhead⟩
  | true =>
    let g := Grid.expandAll {} (o.included before)
    refine ⟨g.2 ++ g.1.settle.2.tokens, fun text more hmore => ?_⟩
    obtain ⟨between, hincluded, hbetween⟩ := included_rawText text hblock hopens hmore
    obtain ⟨later, hexpand, hlater⟩ :=
      g.1.expandAll_rawText text hopens (hmore.of_head? hbetween)
    refine ⟨later, ?_, hlater.trans hbetween⟩
    simp [expand_eq, sentTag, hgrid, hincluded, Grid.expandAll_append, g, hexpand]

theorem writeFrom_append (escape raw : Bool) (tokens more : List Token) :
    writeFrom escape raw (tokens ++ more) =
      writeFrom escape raw tokens ++ writeFrom escape (tokens.foldl rawAfter raw) more := by
  induction tokens generalizing raw with
  | nil => rfl
  | cons t tokens ih =>
    rw [List.cons_append, writeFrom, writeFrom, ih, List.foldl_cons, List.append_assoc]

theorem Options.sentTag_name (hopens : opensRawText tag = true) :
    (o.sentTag tag).name = tag.name := by
  have hraw := isRawText_of_opensRawText hopens
  rw [String.ofList_toList] at hraw
  unfold sentTag
  split
  · rw [Grid.expandTag_name, Grid.written, Grid.isGrid_of_isRawText hraw]
    rfl
  · rfl

theorem Options.opensRawText_sentTag (hopens : opensRawText tag = true) :
    opensRawText (o.sentTag tag) = true := by
  unfold sentTag
  split
  · rw [Grid.opensRawText_expandTag, hopens]
  · exact hopens

theorem compile_of_read {source : String} (h : readTokens o.decode source = .ok tokens) :
    (compile o source).result = .ok (write o.decode (o.expand tokens)) := by
  rw [compile, h]
  rfl

/-- The content of a raw text element is the shortest piece of the source in front of its end tag,
one token at most. Outside of blocks it is written behind the start tag as it stands. -/
theorem rawText_verbatim {source : String} (hread : readTokens o.decode source = .ok tokens)
    (htokens : tokens = before ++ .startTag tag :: after) (hopens : opensRawText tag = true) :
    ∃ text more, RawContent o.decode source.toList tag after text more ∧
      (o.openBlock before = none →
        ∃ sent later html, (o.sentTag tag).name = tag.name ∧
          o.expand (before ++ [.startTag tag]) = sent ++ [.startTag (o.sentTag tag)] ∧
          o.expand tokens = sent ++ .startTag (o.sentTag tag) :: (textTokens false text ++ later) ∧
          StartsWithEnd tag.name later ∧ (compile o source).result = .ok html ∧
          html.toList = writeFrom o.decode false sent ++ (startTagChars o.decode (o.sentTag tag) ++
            (text ++ writeFrom o.decode true later))) := by
  have hafter : .startTag tag :: after <:+ tokens := ⟨before, htokens.symm⟩
  obtain ⟨text, more, hcontent⟩ :=
    rawContent_of_scan (readTokens_eq_ok_iff.1 hread) hopens hafter
  refine ⟨text, more, hcontent, fun hblock => ?_⟩
  obtain ⟨sent, hsent⟩ := o.expand_rawText hblock hopens
  obtain ⟨behind, hfirst, hnone⟩ := hsent [] [] (.inl rfl)
  obtain ⟨later, hall, hlater⟩ := hsent text more hcontent.closed
  rw [List.head?_eq_none_iff.1 hnone] at hfirst
  rw [← hcontent.tokens, ← htokens] at hall
  refine ⟨sent, later, _, Options.sentTag_name hopens, hfirst, hall,
    hcontent.closed.of_head? hlater, compile_of_read hread, ?_⟩
  rw [write, String.toList_ofList, hall, writeFrom_append,
    writeFrom_rawText o.decode (Options.opensRawText_sentTag hopens)]

/-- A script in a row that waits, with a tag that is not its end, where references are decoded. -/
theorem rawText_verbatim_page :
    ∃ text more, RawContent true "<r> <Script hidden>a &lt; b</scripts></SCRIPT >x</r>".toList
        ⟨"Script", [⟨"hidden", none⟩], false⟩
        [.text "a &lt; b</scripts>", .endTag "SCRIPT", .text "x", .endTag "r"] text more ∧
      ∃ sent later html,
        (compile { decode := true } "<r> <Script hidden>a &lt; b</scripts></SCRIPT >x</r>").result =
          .ok html ∧
        html.toList = writeFrom true false sent ++
          ("<Script class=\"hidden-md\">".toList ++ (text ++ writeFrom true true later)) := by
  have hread : readTokens true "<r> <Script hidden>a &lt; b</scripts></SCRIPT >x</r>" =
      .ok [.startTag ⟨"r", [], false⟩, .text " ", .startTag ⟨"Script", [⟨"hidden", none⟩], false⟩,
        .text "a &lt; b</scripts>", .endTag "SCRIPT", .text "x", .endTag "r"] := by decide +kernel
  have htokens : ([.startTag ⟨"r", [], false⟩, .text " ",
        .startTag ⟨"Script", [⟨"hidden", none⟩], false⟩, .text "a &lt; b</scripts>",
        .endTag "SCRIPT", .text "x", .endTag "r"] : List Token) =
      [.startTag ⟨"r", [], false⟩, .text " "] ++
        .startTag ⟨"Script", [⟨"hidden", none⟩], false⟩ :: [.text "a &lt; b</scripts>",
          .endTag "SCRIPT", .text "x", .endTag "r"] := rfl
  obtain ⟨text, more, hcontent, hkept⟩ :=
    rawText_verbatim (o := { decode := true }) hread htokens (by decide)
  obtain ⟨sent, later, html, -, -, -, -, hresult, hhtml⟩ := hkept (by decide)
  exact ⟨text, more, hcontent, sent, later, html, hresult, hhtml⟩

end GridMarkup
