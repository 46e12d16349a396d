import GridMarkup.Proofs.Document

/-!
# Joined texts

Texts that come to stand side by side are written as one, and empty ones not at all. So a list of
tokens is read back with its texts joined.
-/

namespace GridMarkup

open Text Scan Token Element

/-- Texts that stand side by side are joined, and empty ones dropped. -/
def joined : List Token → List Token
  | [] => []
  | .text s :: tokens =>
    if s = "" then joined tokens
    else
      match joined tokens with
      | .text u :: rest => .text (s ++ u) :: rest
      | rest => .text s :: rest
  | t :: tokens => t :: joined tokens

/-- The name of a tag, and whether it is a start tag. -/
def Token.tag? : Token → Option (Bool × String)
  | .startTag tag => some (true, tag.name)
  | .endTag name => some (false, name)
  | _ => none

def tags (tokens : List Token) : List (Bool × String) := tokens.filterMap Token.tag?

theorem tags_append (tokens more : List Token) : tags (tokens ++ more) = tags tokens ++ tags more :=
  List.filterMap_append

variable {unclosed : Bool} {s : String} {t : Token} {tag : StartTag} {text : List Char}
  {tokens more : List Token}

/-! ## Joining -/

/-- What joining does with the first token. -/
inductive Joins : List Token → List Token → Prop where
  | nil : Joins [] []
  | empty {tokens more : List Token} (h : Joins tokens more) : Joins (.text "" :: tokens) more
  | into {s u : String} {tokens more : List Token} (hs : s ≠ "")
      (h : Joins tokens (.text u :: more)) : Joins (.text s :: tokens) (.text (s ++ u) :: more)
  | alone {s : String} {tokens more : List Token} (hs : s ≠ "")
      (hhead : ∀ u, more.head? ≠ some (.text u)) (h : Joins tokens more) :
      Joins (.text s :: tokens) (.text s :: more)
  | other {t : Token} {tokens more : List Token} (ht : ∀ s, t ≠ .text s)
      (h : Joins tokens more) : Joins (t :: tokens) (t :: more)

theorem joins_joined (tokens : List Token) : Joins tokens (joined tokens) := by
  fun_induction joined tokens with
  | case1 => exact .nil
  | case2 tokens ih => exact .empty ih
  | case3 s tokens hs u rest hrest ih =>
    rw [hrest] at ih
    exact .into hs ih
  | case4 s tokens hs hrest ih =>
    refine .alone hs ?_ ih
    intro u hu
    cases hjoined : joined tokens with
    | nil => rw [hjoined] at hu; cases hu
    | cons t rest =>
      rw [hjoined] at hu
      cases hu
      exact hrest u rest hjoined
  | case5 t tokens ht ih => exact .other (fun s hs => ht s hs) ih

theorem chars_text (decode raw : Bool) (s : String) :
    (Token.text s).chars decode raw =
      if decode && !raw then escapedText s.toList else s.toList := rfl

/-- Joining changes nothing in the writing. -/
theorem Joins.writeFrom (decode raw : Bool) (h : Joins tokens more) :
    writeFrom decode raw more = writeFrom decode raw tokens := by
  induction h generalizing raw with
  | nil => rfl
  | empty _ ih =>
    have hchars : (Token.text "").chars decode raw = [] := by
      rw [chars_text]
      split <;> rfl
    rw [Token.writeFrom, hchars]
    exact ih raw
  | @into s u tokens more hs _ ih =>
    have hchars : (Token.text (s ++ u)).chars decode raw =
        (Token.text s).chars decode raw ++ (Token.text u).chars decode raw := by
      simp only [chars_text, String.toList_append]
      split
      · exact escapedText_append _ _
      · rfl
    have htext := ih raw
    rw [Token.writeFrom] at htext
    rw [Token.writeFrom, Token.writeFrom, hchars, List.append_assoc]
    exact congrArg _ htext
  | alone _ _ _ ih =>
    rw [Token.writeFrom, Token.writeFrom]
    exact congrArg _ (ih raw)
  | other _ _ ih =>
    rw [Token.writeFrom, Token.writeFrom]
    exact congrArg _ (ih _)

theorem Joins.tags (h : Joins tokens more) : tags more = tags tokens := by
  induction h with
  | nil => rfl
  | empty _ ih => exact ih
  | into _ _ ih => exact ih
  | alone _ _ _ ih => exact ih
  | @other t _ _ _ _ ih =>
    rw [GridMarkup.tags, GridMarkup.tags, List.filterMap_cons, List.filterMap_cons]
    split
    · exact ih
    · exact congrArg _ ih

/-- Joining leaves everything but texts. -/
theorem Joins.mem_iff (h : Joins tokens more) (ht : ∀ s, t ≠ .text s) :
    t ∈ more ↔ t ∈ tokens := by
  induction h with
  | nil => exact Iff.rfl
  | empty _ ih => rw [ih, List.mem_cons, or_iff_right (ht _)]
  | into _ _ ih =>
    rw [List.mem_cons, or_iff_right (ht _)] at ih ⊢
    rw [ih, List.mem_cons, or_iff_right (ht _)]
  | alone _ _ _ ih => rw [List.mem_cons, List.mem_cons, ih]
  | other _ _ ih => rw [List.mem_cons, List.mem_cons, ih]

/-! ## Joined tokens can be read back -/

theorem Joins.writable (h : Joins tokens more) (hw : ∀ t ∈ tokens, t.Writable) :
    ∀ t ∈ more, t.Writable := by
  intro t ht
  by_cases htext : ∃ s, t = .text s
  · obtain ⟨s, rfl⟩ := htext
    trivial
  · exact hw t ((h.mem_iff fun s hs => htext ⟨s, hs⟩).1 ht)

theorem Joins.spaced (h : Joins tokens more) : Spaced more := by
  induction h with
  | nil => trivial
  | empty _ ih => exact ih
  | into hs _ ih => exact ⟨by simp [hs], ih.2⟩
  | alone hs hhead _ ih => exact ⟨hs, hhead, ih⟩
  | @other t _ _ ht _ ih =>
    cases t with
    | text s => exact absurd rfl (ht s)
    | _ => exact ih

theorem joined_cons (ht : ∀ s, t ≠ .text s) (tokens : List Token) :
    joined (t :: tokens) = t :: joined tokens := by
  cases t with
  | text s => exact absurd rfl (ht s)
  | _ => rfl

/-- The text of a raw text element is joined with nothing. -/
theorem joined_rawText (hhead : ∀ u, (joined tokens).head? ≠ some (.text u)) :
    joined (.startTag tag :: (textTokens false text ++ tokens)) =
      .startTag tag :: (textTokens false text ++ joined tokens) := by
  rw [joined_cons (by rintro s ⟨⟩)]
  rcases textTokens_false_cases text with ⟨-, htokens⟩ | ⟨s, hs, -, htokens⟩
  · rw [htokens]
    rfl
  · rw [htokens, List.singleton_append, joined, if_neg hs]
    split
    · next u rest hrest =>
      rw [hrest] at hhead
      exact absurd rfl (hhead u)
    · rfl

theorem RawFramed.tail (h : RawFramed unclosed (t :: tokens)) (ht : t.rawAfter false = false) :
    RawFramed unclosed tokens := by
  cases h with
  | cons _ htokens => exact htokens
  | element hopens => exact absurd (hopens.symm.trans ht) (by decide)
  | last _ hopens => exact absurd (hopens.symm.trans ht) (by decide)

theorem RawFramed.joined (h : RawFramed unclosed tokens) :
    RawFramed unclosed (joined tokens) := by
  induction h with
  | nil => exact .nil
  | @cons t tokens hraw _ ih =>
    cases t with
    | text s =>
      rw [GridMarkup.joined]
      split
      · exact ih
      · split
        · next u rest hrest =>
          rw [hrest] at ih
          exact .cons rfl (ih.tail rfl)
        · exact .cons rfl ih
    | _ => exact .cons hraw ih
  | @element tag text name tokens hopens hname htext _ ih =>
    rw [joined_rawText (by rintro u ⟨⟩)]
    exact .element hopens hname htext ih
  | @last tag text hunclosed hopens htext =>
    rw [joined_rawText (by rintro u ⟨⟩)]
    exact .last hunclosed hopens htext

/-- Tokens that are framed in any spacing are read back with their texts joined. -/
theorem framed_joined (hw : ∀ t ∈ tokens, t.Writable) (h : RawFramed unclosed tokens) :
    Framed unclosed (joined tokens) where
  writable := (joins_joined tokens).writable hw
  spaced := (joins_joined tokens).spaced
  rawFramed := h.joined

end GridMarkup
