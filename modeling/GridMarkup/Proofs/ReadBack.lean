import GridMarkup.Proofs.Joined
import GridMarkup.Proofs.Scanned
import GridMarkup.Proofs.Sent

/-!
# Reading a compilation back

The markup of a compilation is read back token by token, with its texts joined, where no joined text
holds markup and every start tag comes back whole. Then its tags are those that were written.
-/

namespace GridMarkup

open Text Scan Token Element

def expanded (o : Options) (source : String) : Except Diagnostic (List Token) :=
  (readTokens o.decode source).map fun tokens =>
    (Expansion.run { stages := o.stages } tokens).2.output

/-- No text that is written verbatim holds markup, and no tag reaches beyond its end. -/
structure Survives (decode : Bool) (tokens : List Token) : Prop where
  plain : decode = false → PlainTexts false (joined tokens)
  whole : ∀ tag, Token.startTag tag ∈ tokens → tag.Whole decode

variable {o : Options} {source html : String} {decode raw unclosed : Bool} {tag : StartTag}
  {tokens read sent : List Token}

/-! ## Token by token -/

/-- A text that is read back holds no markup, since the reader would have found it. -/
theorem plainTexts_of_reread (h : List.Forall₂ (RereadAs decode) tokens read)
    (hplain : PlainTexts raw read) : PlainTexts raw tokens := by
  induction h generalizing raw with
  | nil => trivial
  | @cons t u tokens read htu _ ih =>
    cases t with
    | startTag tag =>
      obtain ⟨found, rfl, -, hopens⟩ := htu
      have hafter : (Token.startTag found).rawAfter raw = (Token.startTag tag).rawAfter raw := hopens
      have hrest : PlainTexts ((Token.startTag found).rawAfter raw) read := hplain
      rw [hafter] at hrest
      exact ih hrest
    | text s =>
      cases htu
      exact ⟨hplain.1, ih hplain.2⟩
    | endTag name =>
      cases htu
      exact ih hplain
    | comment s =>
      cases htu
      exact ih hplain
    | declaration s =>
      cases htu
      exact ih hplain

theorem whole_of_reread (h : List.Forall₂ (RereadAs decode) tokens read)
    (htag : Token.startTag tag ∈ tokens) : tag.Whole decode := by
  induction h with
  | nil => cases htag
  | cons htu _ ih =>
    rcases List.mem_cons.1 htag with rfl | htag
    · obtain ⟨found, rfl, hread, hopens⟩ := htu
      exact ⟨found, hread, hopens⟩
    · exact ih htag

theorem tags_of_reread (hw : ∀ t ∈ tokens, t.Writable)
    (h : List.Forall₂ (RereadAs decode) tokens read) : tags read = tags tokens := by
  induction h with
  | nil => rfl
  | @cons t u tokens read htu _ ih =>
    obtain ⟨ht, hw'⟩ := List.forall_mem_cons.1 hw
    have htag : u.tag? = t.tag? := by
      cases t with
      | startTag tag =>
        obtain ⟨found, rfl, hread, -⟩ := htu
        rw [← List.append_nil (startTagChars decode tag)] at hread
        exact congrArg (fun name => some (true, name)) (StartTag.name_of_read ht hread)
      | _ => rw [show u = _ from htu]
    rw [tags, tags, List.filterMap_cons, List.filterMap_cons, htag]
    split
    · exact ih hw'
    · exact congrArg _ (ih hw')

theorem survives_iff (decode : Bool) (hw : ∀ t ∈ tokens, t.Writable) (h : RawFramed true tokens) :
    Survives decode tokens ↔
      ∃ read, scan decode (writeFrom decode false tokens) = .ok read ∧
        List.Forall₂ (RereadAs decode) (joined tokens) read := by
  have hframed := framed_joined hw h
  have hjoins := joins_joined tokens
  have hmem {tag : StartTag} : Token.startTag tag ∈ joined tokens ↔ Token.startTag tag ∈ tokens :=
    hjoins.mem_iff (by rintro s ⟨⟩)
  rw [← hjoins.writeFrom decode false]
  constructor
  · rintro ⟨hplain, hwhole⟩
    exact scan_writeFrom hframed hplain fun tag htag => hwhole tag (hmem.1 htag)
  · rintro ⟨read, hread, hall⟩
    refine ⟨?_, fun tag htag => whole_of_reread hall (hmem.2 htag)⟩
    rintro rfl
    exact plainTexts_of_reread hall ((framed_scan hread).2 rfl)

/-! ## Compilations -/

theorem compile_result (o : Options) (source : String) :
    (compile o source).result = (expanded o source).map (write o.decode) := by
  rw [compile, expanded]
  cases readTokens o.decode source <;> rfl

theorem sendable_expanded (h : expanded o source = .ok sent) : Sendable true sent := by
  obtain ⟨tokens, hread, rfl⟩ := map_eq_ok_iff.1 h
  obtain ⟨hframed, -⟩ := framed_scan (readTokens_eq_ok_iff.1 hread)
  exact sendable_run o ⟨hframed.writable, hframed.rawFramed⟩

/-- The tags of a compilation are read back as they were written where its texts and tags survive,
and that is the case exactly where each token is read back from where it was written. -/
theorem compile_tags (h : (compile o source).result = .ok html) :
    ∃ sent, expanded o source = .ok sent ∧ html = write o.decode sent ∧
      (Survives o.decode sent →
        ∃ read, readTokens o.decode html = .ok read ∧ tags read = tags sent) ∧
      (Survives o.decode sent ↔
        ∃ read, readTokens o.decode html = .ok read ∧
          List.Forall₂ (RereadAs o.decode) (joined sent) read) := by
  rw [compile_result] at h
  obtain ⟨sent, hsent, rfl⟩ := map_eq_ok_iff.1 h
  have hsendable := sendable_expanded hsent
  have hiff := survives_iff o.decode hsendable.writable hsendable.rawFramed
  simp only [readTokens_eq_ok_iff, write, String.toList_ofList]
  refine ⟨sent, hsent, rfl, ?_, hiff⟩
  intro hsurvives
  obtain ⟨read, hread, hall⟩ := hiff.1 hsurvives
  have hjoins := joins_joined sent
  refine ⟨read, hread, ?_⟩
  rw [tags_of_reread (hjoins.writable hsendable.writable) hall, hjoins.tags]

theorem compile_tags_page :
    ∃ read, readTokens false
        "<div class=\"col-md-4\"><script src=\"a\"></script>x &lt; y</div>" = .ok read ∧
      tags read = [(true, "div"), (true, "script"), (false, "script"), (false, "div")] := by
  have hcompile : (compile {} "<c4><js>a</js>x<js/> &lt; y</c4>").result =
      .ok "<div class=\"col-md-4\"><script src=\"a\"></script>x &lt; y</div>" := by decide +kernel
  have hexpanded : expanded {} "<c4><js>a</js>x<js/> &lt; y</c4>" =
      .ok [.startTag ⟨"div", [⟨"class", some "col-md-4"⟩], false⟩,
        .startTag ⟨"script", [⟨"src", some "a"⟩], false⟩, .endTag "script", .text "x",
        .text " &lt; y", .endTag "div"] := by decide +kernel
  obtain ⟨sent, hsent, -, htags, -⟩ := compile_tags hcompile
  rw [hexpanded] at hsent
  cases hsent
  refine htags ⟨fun _ => by decide, ?_⟩
  intro tag htag
  simp only [List.mem_cons, List.not_mem_nil, or_false, reduceCtorEq] at htag
  rcases htag with htag | htag <;> (cases htag; decide +kernel)

/-- Two texts are written as a start tag, once the block between them is gone. -/
theorem text_becomes_tag :
    ¬ ∀ (o : Options) (source html : String), (compile o source).result = .ok html →
      ∃ sent read, expanded o source = .ok sent ∧ readTokens o.decode html = .ok read ∧
        tags read = tags sent := by
  intro h
  obtain ⟨sent, read, hsent, hread, htags⟩ := h {} "<<js/>b>" "<b>" (by decide +kernel)
  have hexpanded : expanded {} "<<js/>b>" = .ok [.text "<", .text "b>"] := by decide +kernel
  have hfound : readTokens false "<b>" = .ok [.startTag ⟨"b", [], false⟩] := by decide +kernel
  rw [hexpanded] at hsent
  cases hsent
  change readTokens false "<b>" = _ at hread
  rw [hfound] at hread
  cases hread
  exact absurd htags (by decide)

end GridMarkup
