import GridMarkup.Proofs.RawText
import Mathlib.Data.List.Forall2

/-!
# Reading a written document

A document is read back token by token where its texts stand apart, raw text is framed by its tags,
and every start tag comes back whole.
-/

namespace GridMarkup

open Text Scan Token Element

/-! ## Lists of tokens -/

/-- Texts are not empty, and no two stand side by side. -/
def Spaced : List Token → Prop
  | [] => True
  | .text s :: tokens => s ≠ "" ∧ (∀ t, tokens.head? ≠ some (.text t)) ∧ Spaced tokens
  | _ :: tokens => Spaced tokens

/-- The texts outside of raw text hold no markup. -/
def PlainTexts (raw : Bool) : List Token → Prop
  | [] => True
  | .text s :: tokens => (raw = false → Plain s.toList) ∧ PlainTexts raw tokens
  | t :: tokens => PlainTexts (t.rawAfter raw) tokens

instance PlainTexts.decide : (raw : Bool) → (tokens : List Token) → Decidable (PlainTexts raw tokens)
  | _, [] => .isTrue trivial
  | raw, .text s :: tokens =>
    have := PlainTexts.decide raw tokens
    inferInstanceAs (Decidable ((raw = false → Plain s.toList) ∧ PlainTexts raw tokens))
  | _, .startTag _ :: tokens | _, .endTag _ :: tokens | _, .comment _ :: tokens
  | _, .declaration _ :: tokens => PlainTexts.decide _ tokens

/-- A raw text element holds at most one text, which does not hold its end tag, and is closed by
that. With `unclosed`, the last one may be left open. -/
inductive RawFramed (unclosed : Bool) : List Token → Prop where
  | nil : RawFramed unclosed []
  | cons {t : Token} {tokens : List Token} (hraw : t.rawAfter false = false)
      (htokens : RawFramed unclosed tokens) : RawFramed unclosed (t :: tokens)
  | element {tag : StartTag} {text : List Char} {name : String} {tokens : List Token}
      (hopens : opensRawText tag = true) (hname : lower name.toList = lower tag.name.toList)
      (htext : ¬ HoldsEndTag tag.name.toList text)
      (htokens : RawFramed unclosed (.endTag name :: tokens)) :
      RawFramed unclosed (.startTag tag :: (textTokens false text ++ .endTag name :: tokens))
  | last {tag : StartTag} {text : List Char} (hunclosed : unclosed = true)
      (hopens : opensRawText tag = true)
      (htext : Avoids (endsRawText tag.name.toList) text []) :
      RawFramed unclosed (.startTag tag :: (textTokens false text ++ []))

/-- What a list of tokens has to be for its writing to be read. -/
structure Framed (unclosed : Bool) (tokens : List Token) : Prop where
  writable : ∀ t ∈ tokens, t.Writable
  spaced : Spaced tokens
  rawFramed : RawFramed unclosed tokens

/-- What a written token is read as. -/
def Token.RereadAs (decode : Bool) : Token → Token → Prop
  | .startTag tag, t =>
    ∃ read, t = .startTag read ∧
      readStartTag decode (startTagChars decode tag) = .ok (read, []) ∧
      opensRawText read = opensRawText tag
  | u, t => t = u

variable {decode raw unclosed : Bool} {text : List Char} {tag : StartTag} {t : Token}
  {tokens more : List Token}

theorem textTokens_false_cases (text : List Char) :
    (text = [] ∧ textTokens false text = []) ∨
      ∃ s : String, s ≠ "" ∧ text = s.toList ∧ textTokens false text = [.text s] := by
  by_cases htext : text = []
  · subst htext
    exact .inl ⟨rfl, rfl⟩
  · have hs : String.ofList text ≠ "" := by simpa using htext
    have htokens := textTokens_false hs
    rw [String.toList_ofList] at htokens
    exact .inr ⟨String.ofList text, hs, by rw [String.toList_ofList], htokens⟩

theorem startTag_mem_rawText {first : StartTag} :
    Token.startTag tag ∈ Token.startTag first :: (textTokens false text ++ tokens) ↔
      tag = first ∨ Token.startTag tag ∈ tokens := by
  rcases textTokens_false_cases text with ⟨-, htokens⟩ | ⟨s, -, -, htokens⟩ <;> simp [htokens]

/-! ## Writing -/

theorem writeFrom_cons (decode : Bool) (hraw : t.rawAfter false = false) :
    writeFrom decode false (t :: tokens) =
      t.chars decode false ++ writeFrom decode false tokens := by
  rw [writeFrom, hraw]

theorem writeFrom_rawText (decode : Bool) (hopens : opensRawText tag = true) :
    writeFrom decode raw (.startTag tag :: (textTokens false text ++ tokens)) =
      startTagChars decode tag ++ (text ++ writeFrom decode true tokens) := by
  have hafter : (Token.startTag tag).rawAfter raw = true := hopens
  rw [writeFrom, hafter]
  rcases textTokens_false_cases text with ⟨rfl, htokens⟩ | ⟨s, -, rfl, htokens⟩
  · rw [htokens]
    rfl
  · rw [htokens, List.singleton_append, writeFrom]
    have hchars : (Token.text s).chars decode true = s.toList := by simp [Token.chars]
    rw [hchars]
    rfl

/-- Raw text stands in front of its written end tag. -/
theorem avoids_writeFrom {name : String} (hopens : opensRawText tag = true)
    (htext : ¬ HoldsEndTag tag.name.toList text) :
    Avoids (endsRawText tag.name.toList) text
      (writeFrom decode raw (.endTag name :: tokens)) :=
  (avoids_endsRawText_iff (isRawText_of_opensRawText hopens)).2 htext

theorem atConstruct_writeFrom (hw : ∀ t ∈ tokens, t.Writable)
    (hhead : ∀ s, tokens.head? ≠ some (.text s)) :
    AtConstruct (writeFrom decode raw tokens) := by
  cases tokens with
  | nil => exact .inl rfl
  | cons t tokens =>
    refine .inr (construct?_chars (hw t List.mem_cons_self) ?_ _)
    rintro s rfl
    exact hhead s rfl

/-! ## Parts of a list -/

theorem Spaced.tail (h : Spaced (t :: tokens)) : Spaced tokens := by
  cases t with
  | text s => exact h.2.2
  | _ => exact h

theorem Spaced.rawText (h : Spaced (.startTag tag :: (textTokens false text ++ tokens))) :
    Spaced tokens := by
  have h' : Spaced (textTokens false text ++ tokens) := h
  rcases textTokens_false_cases text with ⟨-, htokens⟩ | ⟨s, -, -, htokens⟩
  · rwa [htokens] at h'
  · rw [htokens] at h'
    exact h'.2.2

theorem PlainTexts.tail (h : PlainTexts false (t :: tokens)) (hraw : t.rawAfter false = false) :
    PlainTexts false tokens := by
  cases t with
  | text s => exact h.2
  | _ =>
    rw [PlainTexts, hraw] at h
    · exact h
    · rintro s ⟨⟩

theorem plainTexts_rawText (hopens : opensRawText tag = true) :
    PlainTexts false (.startTag tag :: (textTokens false text ++ tokens)) ↔
      PlainTexts true tokens := by
  have hafter : (Token.startTag tag).rawAfter false = true := hopens
  have hstart : PlainTexts false (.startTag tag :: (textTokens false text ++ tokens)) ↔
      PlainTexts true (textTokens false text ++ tokens) := by
    rw [PlainTexts, hafter]
    rintro s ⟨⟩
  rw [hstart]
  rcases textTokens_false_cases text with ⟨-, htokens⟩ | ⟨s, -, -, htokens⟩
  · rw [htokens, List.nil_append]
  · rw [htokens, List.singleton_append, PlainTexts]
    simp

theorem RereadAs.text_forall₂ (decode : Bool) (text : List Char) (h : List.Forall₂ (RereadAs decode) tokens more) :
    List.Forall₂ (RereadAs decode) (textTokens false text ++ tokens)
      (textTokens false text ++ more) := by
  rcases textTokens_false_cases text with ⟨-, htokens⟩ | ⟨s, -, -, htokens⟩
  · rw [htokens]
    exact h
  · rw [htokens]
    exact .cons rfl h

/-! ## Reading back -/

/-- Any token but a start tag is read back as it is. -/
theorem scan_token (ht : t.Writable) (hstart : ∀ tag, t ≠ .startTag tag)
    (htext : ∀ s, t = .text s → s ≠ "" ∧ (decode = false → Plain s.toList) ∧
      AtConstruct (writeFrom decode false tokens)) :
    scan decode (t.chars decode false ++ writeFrom decode false tokens) =
      (scan decode (writeFrom decode false tokens)).map (t :: ·) := by
  cases t with
  | startTag tag => exact absurd rfl (hstart tag)
  | endTag name => exact scan_endTag ht _
  | text s =>
    obtain ⟨hs, hplain, hrest⟩ := htext s rfl
    exact scan_text_written hs hplain hrest
  | comment s => exact scan_comment ht _
  | declaration s => exact scan_declaration ht.1 ht.2 _

theorem scan_writeFrom (h : Framed unclosed tokens)
    (hplain : decode = false → PlainTexts false tokens)
    (hwhole : ∀ tag, Token.startTag tag ∈ tokens → tag.Whole decode) :
    ∃ read, scan decode (writeFrom decode false tokens) = .ok read ∧
      List.Forall₂ (RereadAs decode) tokens read := by
  obtain ⟨hw, hspaced, hframed⟩ := h
  -- The reader takes a raw text element in one step, as the framing does.
  induction hframed with
  | nil => exact ⟨[], scan_nil decode, .nil⟩
  | @cons t tokens hraw htokens ih =>
    have hw' : ∀ t ∈ tokens, t.Writable := fun u hu => hw u (List.mem_cons_of_mem _ hu)
    obtain ⟨more, hmore, hall⟩ := ih (fun h => (hplain h).tail hraw)
      (fun tag htag => hwhole tag (List.mem_cons_of_mem _ htag)) hw' hspaced.tail
    rw [writeFrom_cons decode hraw]
    by_cases hstart : ∃ tag, t = .startTag tag
    · obtain ⟨tag, rfl⟩ := hstart
      obtain ⟨read, hread, hopens⟩ := hwhole tag List.mem_cons_self
      have hopens' : opensRawText read = false := hopens.trans hraw
      refine ⟨.startTag read :: more, ?_, .cons ⟨read, rfl, hread, hopens⟩ hall⟩
      rw [Token.chars, scan_startTag (hw _ List.mem_cons_self) (readStartTag_whole hread _) hopens',
        hmore]
      rfl
    · have hstart' : ∀ tag, t ≠ .startTag tag := fun tag htag => hstart ⟨tag, htag⟩
      refine ⟨t :: more, ?_, .cons ?_ hall⟩
      · rw [scan_token (hw t List.mem_cons_self) hstart', hmore]
        · rfl
        · rintro s rfl
          exact ⟨hspaced.1, fun h => (hplain h).1 rfl,
            atConstruct_writeFrom hw' hspaced.2.1⟩
      · cases t with
        | startTag tag => exact absurd rfl (hstart' tag)
        | _ => rfl
  | @element tag text name tokens hopens hname htext htokens ih =>
    have hw' : ∀ t ∈ Token.endTag name :: tokens, t.Writable := fun u hu =>
      hw u (List.mem_cons_of_mem _ (List.mem_append_right _ hu))
    obtain ⟨more, hmore, hall⟩ := ih (fun h => (plainTexts_rawText hopens).1 (hplain h))
      (fun tag htag => hwhole tag (List.mem_cons_of_mem _ (List.mem_append_right _ htag)))
      hw' hspaced.rawText
    obtain ⟨read, hread, hopens'⟩ := hwhole tag List.mem_cons_self
    refine ⟨.startTag read :: (textTokens false text ++ more), ?_,
      .cons ⟨read, rfl, hread, hopens'⟩ (RereadAs.text_forall₂ decode text hall)⟩
    have hrest : writeFrom decode true (.endTag name :: tokens) =
        writeFrom decode false (.endTag name :: tokens) := rfl
    rw [writeFrom_rawText decode hopens, hrest, scan_rawText (hw _ List.mem_cons_self)
      (readStartTag_whole hread _) (hopens'.trans hopens) (avoids_writeFrom hopens htext)
      (.inr (endsRawText_endTag hname _)), hmore]
    rfl
  | @last tag text hunclosed hopens htext =>
    obtain ⟨read, hread, hopens'⟩ := hwhole tag List.mem_cons_self
    refine ⟨.startTag read :: (textTokens false text ++ []), ?_,
      .cons ⟨read, rfl, hread, hopens'⟩ (RereadAs.text_forall₂ decode text .nil)⟩
    rw [writeFrom_rawText decode hopens, writeFrom, scan_rawText (hw _ List.mem_cons_self)
      (readStartTag_whole hread _) (hopens'.trans hopens) htext (.inl rfl), scan_nil]
    rfl

/-- What a written token is read as, where its attributes are separable. -/
def Token.reread (decode : Bool) : Token → Token
  | .startTag tag => .startTag (tag.reread decode)
  | t => t

theorem eq_map_reread (hw : ∀ t ∈ tokens, t.Writable)
    (hsep : ∀ tag, Token.startTag tag ∈ tokens → Separable tag.attributes)
    (h : List.Forall₂ (RereadAs decode) tokens more) : more = tokens.map (Token.reread decode) := by
  induction h with
  | nil => rfl
  | @cons t u tokens more htu _ ih =>
    have hu : u = t.reread decode := by
      cases t with
      | startTag tag =>
        obtain ⟨read, rfl, hread, -⟩ := htu
        have hread' : readStartTag decode (startTagChars decode tag ++ []) =
            .ok (tag.reread decode, []) :=
          readStartTag_separable (hw _ List.mem_cons_self) (hsep tag List.mem_cons_self) []
        rw [List.append_nil, hread] at hread'
        cases hread'
        rfl
      | _ => exact htu
    rw [hu, ih (fun t ht => hw t (List.mem_cons_of_mem _ ht))
      (fun tag htag => hsep tag (List.mem_cons_of_mem _ htag))]
    rfl

theorem scan_writeFrom_separable (h : Framed unclosed tokens)
    (hplain : decode = false → PlainTexts false tokens)
    (hsep : ∀ tag, Token.startTag tag ∈ tokens → Separable tag.attributes) :
    scan decode (writeFrom decode false tokens) = .ok (tokens.map (Token.reread decode)) := by
  obtain ⟨read, hread, hall⟩ := scan_writeFrom h hplain
    fun tag htag => StartTag.whole_of_separable (h.writable _ htag) (hsep tag htag)
  rw [hread, eq_map_reread h.writable hsep hall]

end GridMarkup
