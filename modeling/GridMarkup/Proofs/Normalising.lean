import GridMarkup.Compile
import GridMarkup.Proofs.Scanned

/-!
# Normalising

Without stages a compilation brings markup into its written form. That form is kept by a second
run, but for one slip: a bare attribute before a name that starts with `=`.
-/

namespace GridMarkup

open Text Scan Token Element

def normalise (decode : Bool) (source : String) : Except Diagnostic String :=
  (compile { decode := decode, grid := false, resources := false } source).result

variable {decode unclosed : Bool} {source html : String} {tokens found : List Token}

/-! ## Compiling without stages -/

theorem acceptAll_no_stages (indent : String) (tokens : List Token) :
    (Expansion.acceptAll ⟨[], indent⟩ tokens).1.stages = [] ∧
      (Expansion.acceptAll ⟨[], indent⟩ tokens).2.output = tokens := by
  induction tokens generalizing indent with
  | nil => exact ⟨rfl, rfl⟩
  | cons t tokens ih =>
    obtain ⟨hstages, houtput⟩ := ih (Expansion.indentAfter indent t)
    exact ⟨hstages, congrArg (t :: ·) houtput⟩

theorem run_no_stages (indent : String) (tokens : List Token) :
    (Expansion.run ⟨[], indent⟩ tokens).2.output = tokens := by
  obtain ⟨hstages, houtput⟩ := acceptAll_no_stages indent tokens
  have hflush (indent : String) : (Expansion.flush indent []).2.output = [] := rfl
  rw [Expansion.run]
  change (Expansion.acceptAll _ tokens).2.output ++ (Expansion.flush _ _).2.output = _
  rw [hstages, hflush, houtput, List.append_nil]

theorem normalise_eq (decode : Bool) (source : String) :
    normalise decode source = (readTokens decode source).map (write decode) := by
  rw [normalise, compile]
  cases readTokens decode source with
  | error d => rfl
  | ok tokens => exact congrArg (fun output => Except.ok (write decode output)) (run_no_stages "" tokens)

/-! ## What a second run keeps -/

theorem writeFrom_map_reread (decode raw : Bool) (tokens : List Token) :
    writeFrom decode raw (tokens.map (Token.reread decode)) = writeFrom decode raw tokens := by
  induction tokens generalizing raw with
  | nil => rfl
  | cons t tokens ih =>
    have hchars : (t.reread decode).chars decode raw = t.chars decode raw := by
      cases t with
      | startTag tag => exact startTagChars_reread decode tag
      | _ => rfl
    have hafter : (t.reread decode).rawAfter raw = t.rawAfter raw := by cases t <;> rfl
    rw [List.map_cons, writeFrom, writeFrom, hchars, hafter, ih]

/-- A start tag that is read back to be written the same way is separable. -/
theorem separable_of_rewritten {tag : StartTag} {rest after : List Char}
    (ht : (Token.startTag tag).Writable)
    (hread : scan decode (startTagChars decode tag ++ rest) = .ok found)
    (hwrite : writeFrom decode false found = startTagChars decode tag ++ after) :
    Separable tag.attributes := by
  by_contra hsep
  obtain ⟨read, _, more, htag, rfl⟩ := scan_startTag_inv ht hread
  exact readStartTag_slip ht hsep htag _ _ hwrite

theorem all_separable_of_rewritten (h : Framed unclosed tokens)
    (hplain : decode = false → PlainTexts false tokens)
    (hread : scan decode (writeFrom decode false tokens) = .ok found)
    (hwrite : writeFrom decode false found = writeFrom decode false tokens) :
    ∀ tag, Token.startTag tag ∈ tokens → Separable tag.attributes := by
  obtain ⟨hw, hspaced, hframed⟩ := h
  induction hframed generalizing found with
  | nil => simp
  | @cons t tokens hraw htokens ih =>
    have hw' : ∀ t ∈ tokens, t.Writable := fun u hu => hw u (List.mem_cons_of_mem _ hu)
    have hplain' : decode = false → PlainTexts false tokens := fun hd => (hplain hd).tail hraw
    rw [writeFrom_cons decode hraw] at hread hwrite
    -- Behind the first token, what is read is written as before.
    have hrest {u : Token} (hu : u.chars decode false = t.chars decode false)
        (huraw : u.rawAfter false = false)
        (hscan : scan decode (t.chars decode false ++ writeFrom decode false tokens) =
          (scan decode (writeFrom decode false tokens)).map (u :: ·)) :
        ∀ tag, Token.startTag tag ∈ tokens → Separable tag.attributes := by
      rw [hscan] at hread
      obtain ⟨more, hmore, rfl⟩ := map_eq_ok_iff.1 hread
      rw [writeFrom_cons decode huraw, hu] at hwrite
      exact ih hplain' hmore (List.append_cancel_left hwrite) hw' hspaced.tail
    intro tag htag
    by_cases hstart : ∃ tag, t = .startTag tag
    · obtain ⟨first, rfl⟩ := hstart
      have ht := hw _ List.mem_cons_self
      have hsep : Separable first.attributes := separable_of_rewritten ht hread hwrite
      rcases List.mem_cons.1 htag with heq | htag
      · cases heq
        exact hsep
      · exact hrest (u := .startTag (first.reread decode)) (startTagChars_reread decode first) hraw
          (scan_startTag ht (readStartTag_separable ht hsep _) hraw) tag htag
    · have hstart' : ∀ tag, t ≠ .startTag tag := fun tag htag => hstart ⟨tag, htag⟩
      rcases List.mem_cons.1 htag with heq | htag
      · exact absurd heq.symm (hstart' tag)
      · refine hrest rfl hraw (scan_token (hw t List.mem_cons_self) hstart' ?_) tag htag
        rintro s rfl
        exact ⟨hspaced.1, fun hd => (hplain hd).1 rfl, atConstruct_writeFrom hw' hspaced.2.1⟩
  | @element first text name tokens hopens hname htext htokens ih =>
    have ht := hw _ List.mem_cons_self
    have hw' : ∀ t ∈ Token.endTag name :: tokens, t.Writable := fun u hu =>
      hw u (List.mem_cons_of_mem _ (List.mem_append_right _ hu))
    rw [writeFrom_rawText decode hopens] at hread hwrite
    have hsep : Separable first.attributes := separable_of_rewritten ht hread hwrite
    have htrue (tokens : List Token) : writeFrom decode true (.endTag name :: tokens) =
        writeFrom decode false (.endTag name :: tokens) := rfl
    rw [htrue] at hread hwrite
    rw [scan_rawText ht (readStartTag_separable ht hsep _) hopens (avoids_writeFrom hopens htext)
      (.inr (endsRawText_endTag hname _))] at hread
    obtain ⟨more, hmore, rfl⟩ := map_eq_ok_iff.1 hread
    have hopens' : opensRawText (first.reread decode) = true := hopens
    obtain ⟨more, rfl⟩ : ∃ rest, more = .endTag name :: rest := by
      rw [writeFrom, scan_endTag (hw' _ List.mem_cons_self)] at hmore
      obtain ⟨rest, -, rfl⟩ := map_eq_ok_iff.1 hmore
      exact ⟨rest, rfl⟩
    change writeFrom decode false (.startTag (first.reread decode) ::
      (textTokens false text ++ .endTag name :: more)) = _ at hwrite
    rw [writeFrom_rawText decode hopens', startTagChars_reread] at hwrite
    have hwrite' := List.append_cancel_left (List.append_cancel_left hwrite)
    have hall := ih (fun hd => (plainTexts_rawText hopens).1 (hplain hd)) hmore hwrite' hw'
      hspaced.rawText
    intro tag htag
    rcases startTag_mem_rawText.1 htag with rfl | htag
    · exact hsep
    · exact hall tag htag
  | @last first text hunclosed hopens htext =>
    have ht := hw _ List.mem_cons_self
    rw [writeFrom_rawText decode hopens] at hread hwrite
    have hsep : Separable first.attributes := separable_of_rewritten ht hread hwrite
    intro tag htag
    rcases startTag_mem_rawText.1 htag with rfl | htag
    · exact hsep
    · cases htag

/-! ## A second run -/

theorem normalise_again_iff (h : normalise decode source = .ok html) :
    ∃ tokens, readTokens decode source = .ok tokens ∧ html = write decode tokens ∧
      (normalise decode html = .ok html ↔
        ∀ tag, Token.startTag tag ∈ tokens → Separable tag.attributes) := by
  rw [normalise_eq] at h
  obtain ⟨tokens, hread, rfl⟩ := map_eq_ok_iff.1 h
  refine ⟨tokens, hread, rfl, ?_⟩
  obtain ⟨hframed, hplain⟩ := framed_scan (readTokens_eq_ok_iff.1 hread)
  simp only [normalise_eq, map_eq_ok_iff, readTokens_eq_ok_iff, write, String.toList_ofList]
  constructor
  · rintro ⟨found, hfound, hagain⟩
    exact all_separable_of_rewritten hframed hplain hfound (String.ofList_injective hagain)
  · intro hsep
    refine ⟨_, scan_writeFrom_separable hframed hplain hsep, ?_⟩
    rw [writeFrom_map_reread]

theorem normalise_again_page :
    normalise false "<P a/b='x y'c=1/>&lt;<script>a<b</SCRIPT x>" =
        .ok "<P a b=\"x y\" c=\"1/\">&lt;<script>a<b</SCRIPT>" ∧
      normalise false "<P a b=\"x y\" c=\"1/\">&lt;<script>a<b</SCRIPT>" =
        .ok "<P a b=\"x y\" c=\"1/\">&lt;<script>a<b</SCRIPT>" := by
  have hfirst : normalise false "<P a/b='x y'c=1/>&lt;<script>a<b</SCRIPT x>" =
      .ok "<P a b=\"x y\" c=\"1/\">&lt;<script>a<b</SCRIPT>" := by decide +kernel
  have htokens : readTokens false "<P a/b='x y'c=1/>&lt;<script>a<b</SCRIPT x>" =
      .ok [.startTag ⟨"P", [⟨"a", none⟩, ⟨"b", some "x y"⟩, ⟨"c", some "1/"⟩], false⟩,
        .text "&lt;", .startTag ⟨"script", [], false⟩, .text "a<b", .endTag "SCRIPT"] := by
    decide +kernel
  obtain ⟨tokens, hread, -, hagain⟩ := normalise_again_iff hfirst
  rw [htokens] at hread
  cases hread
  refine ⟨hfirst, hagain.2 ?_⟩
  intro tag htag
  simp only [List.mem_cons, List.not_mem_nil, or_false, reduceCtorEq, false_or] at htag
  rcases htag with htag | htag <;> (cases htag; decide)

/-- A bare attribute takes the name behind it for its value, once a blank takes the place of the
slash between them. -/
theorem normalise_slip :
    ¬ ∀ (decode : Bool) (source html : String), normalise decode source = .ok html →
      normalise decode html = .ok html := by
  intro h
  have hagain := h false "<p a/=b>" "<p a =b>" (by decide +kernel)
  exact absurd hagain (by decide +kernel)

end GridMarkup
