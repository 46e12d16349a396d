import GridMarkup.Text.Escape
import GridMarkup.Text.Reference
import GridMarkup.Proofs.Search

/-!
# Escaping and decoding

Escaping is two passes over a text: ampersands are replaced first, then the character that would end
the text or the value. Decoding undoes both ways of escaping, whatever stands behind. Escaped text
begins no construct, and an escaped value does not end before its quote.
-/

namespace GridMarkup.Text

/-! ## Decoding one character at a time -/

theorem decode_nil : decode [] = [] := by rw [decode]

theorem decode_cons_of_ne {c : Char} (hc : c ≠ '&') (s : List Char) :
    decode (c :: s) = c :: decode s := by
  rw [decode, if_neg hc]

/-- A reference is decoded whatever follows its semicolon. -/
theorem decode_reference (body : List Char) {c : Char} (hc : character? body = some c)
    (hbody : ';' ∉ body) (s : List Char) :
    decode ('&' :: (body ++ ';' :: s)) = c :: decode s := by
  have hr : reference? (body ++ ';' :: s) = some (c, s) := by
    rw [reference?, cut?_singleton hbody]
    simp [hc]
  rw [decode, if_pos rfl]
  split
  · next h =>
    rw [hr] at h
    cases h
    rfl
  · next h =>
    rw [hr] at h
    cases h

theorem decode_amp (s : List Char) : decode ("&amp;".toList ++ s) = '&' :: decode s :=
  decode_reference "amp".toList (by decide) (by decide) s

theorem decode_ne_nil {s : List Char} (h : s ≠ []) : decode s ≠ [] := by
  obtain ⟨c, s, rfl⟩ := List.exists_cons_of_ne_nil h
  rw [decode]
  split
  · split <;> simp
  · simp

/-! ## Escaping in two passes -/

/-- One pass: `ref` is written for every `c`, and is not looked at again. -/
def replaceAll (c : Char) (ref s : List Char) : List Char :=
  s.flatMap fun d => if d = c then ref else [d]

variable {c : Char} {ref s : List Char}

theorem replaceAll_of_not_mem (h : c ∉ s) : replaceAll c ref s = s := by
  have hcopy : ∀ d ∈ s, (if d = c then ref else [d]) = [d] := by
    intro d hd
    rw [if_neg]
    rintro rfl
    exact h hd
  rw [replaceAll, List.flatMap_congr hcopy, List.flatMap_singleton']

theorem not_mem_replaceAll (h : c ∉ ref) (s : List Char) : c ∉ replaceAll c ref s := by
  rw [replaceAll, List.mem_flatMap]
  rintro ⟨d, -, hd⟩
  split at hd
  · exact h hd
  · next hne => exact hne (List.mem_singleton.1 hd).symm

/-- A second pass that leaves alone what the first has written: the two are one. -/
theorem replaceAll_replaceAll {a : Char} {first : List Char} (h : c ∉ first) (s : List Char) :
    replaceAll c ref (replaceAll a first s) =
      s.flatMap fun d => if d = a then first else if d = c then ref else [d] := by
  rw [replaceAll, replaceAll, List.flatMap_assoc]
  refine List.flatMap_congr fun d _ => ?_
  split
  · exact replaceAll_of_not_mem h
  · rw [List.flatMap_singleton]

theorem escapedText_eq_replaceAll (s : List Char) :
    escapedText s = replaceAll '<' "&lt;".toList (replaceAll '&' "&amp;".toList s) :=
  (replaceAll_replaceAll (by decide) s).symm

theorem escapedValue_eq_replaceAll (ampersand : Bool) (s : List Char) :
    escapedValue ampersand s =
      replaceAll '"' "&quot;".toList
        (if ampersand then replaceAll '&' "&amp;".toList s else s) := by
  cases ampersand with
  | false => simp only [escapedValue, replaceAll, Bool.false_eq_true, and_false, if_false]
  | true =>
    rw [if_pos rfl, replaceAll_replaceAll (by decide), escapedValue]
    refine List.flatMap_congr fun d _ => ?_
    -- `escapedValue` asks for the quote first, which no ampersand is.
    by_cases hd : d = '"'
    · subst hd
      rfl
    · simp only [hd, if_false, and_true]

theorem lt_not_mem_escapedText (s : List Char) : '<' ∉ escapedText s := by
  rw [escapedText_eq_replaceAll]
  exact not_mem_replaceAll (by decide) _

theorem quote_not_mem_escapedValue (ampersand : Bool) (s : List Char) :
    '"' ∉ escapedValue ampersand s := by
  rw [escapedValue_eq_replaceAll]
  exact not_mem_replaceAll (by decide) _

/-- Without ampersands to escape, a value free of quotes stays as it is. -/
theorem escapedValue_of_no_quote (h : '"' ∉ s) : escapedValue false s = s := by
  rw [escapedValue_eq_replaceAll, if_neg Bool.false_ne_true, replaceAll_of_not_mem h]

theorem escapedText_append (s t : List Char) :
    escapedText (s ++ t) = escapedText s ++ escapedText t := List.flatMap_append

/-! ## Decoding undoes escaping -/

/-- Even where the text looks like a reference: each ampersand of it has become a whole one, and
decoding goes on behind that. -/
theorem decode_replaceAll_append {name : List Char} (hname : character? name = some c)
    (hend : ';' ∉ name) (hc : c ∉ "&amp;".toList) (s rest : List Char) :
    decode (replaceAll c ('&' :: (name ++ [';'])) (replaceAll '&' "&amp;".toList s) ++ rest) =
      s ++ decode rest := by
  rw [replaceAll_replaceAll hc]
  induction s with
  | nil => rfl
  | cons d s ih =>
    rw [List.flatMap_cons, List.append_assoc, List.cons_append]
    split
    · next hd => rw [decode_amp, ih, hd]
    · next hd =>
      split
      · next hdc =>
        rw [List.cons_append, List.append_assoc, List.singleton_append,
          decode_reference name hname hend, ih, hdc]
      · rw [List.singleton_append, decode_cons_of_ne hd, ih]

theorem decode_escapedText_append (s rest : List Char) :
    decode (escapedText s ++ rest) = s ++ decode rest := by
  have hlt : character? "lt".toList = some '<' := by decide
  rw [escapedText_eq_replaceAll]
  exact decode_replaceAll_append hlt (by decide) (by decide) s rest

theorem decode_escapedValue_append (s rest : List Char) :
    decode (escapedValue true s ++ rest) = s ++ decode rest := by
  have hquot : character? "quot".toList = some '"' := by decide
  rw [escapedValue_eq_replaceAll, if_pos rfl]
  exact decode_replaceAll_append hquot (by decide) (by decide) s rest

theorem decode_escapedText (s : List Char) : decode (escapedText s) = s := by
  simpa [decode_nil] using decode_escapedText_append s []

/-- Text that looks like references, whole and in part. -/
example : decode (escapedText "&lt;<&#60;&amp".toList) = "&lt;<&#60;&amp".toList := by cbv

theorem decode_escapedValue (s : List Char) : decode (escapedValue true s) = s := by
  simpa [decode_nil] using decode_escapedValue_append s []

theorem escapedText_eq_nil (h : escapedText s = []) : s = [] := by
  rw [← decode_escapedText s, h, decode_nil]

/-- Decoding gives back every text and every value that was escaped, and reads on with what stands
behind. Escaped text holds no `<`, an escaped value no quote. Both are two passes, the ampersands
first, so that nothing is escaped twice. -/
theorem decode_escaped (s : List Char) :
    (decode (escapedText s) = s ∧ decode (escapedValue true s) = s) ∧
    ('<' ∉ escapedText s ∧ '"' ∉ escapedValue true s) ∧
    (∀ rest, decode (escapedText s ++ rest) = s ++ decode rest ∧
      decode (escapedValue true s ++ rest) = s ++ decode rest) ∧
    escapedText s = replaceAll '<' "&lt;".toList (replaceAll '&' "&amp;".toList s) ∧
    escapedValue true s = replaceAll '"' "&quot;".toList (replaceAll '&' "&amp;".toList s) := by
  refine ⟨⟨?undoneText, ?undoneValue⟩, ⟨?noMarkup, ?noQuote⟩, ?onwards, ?passesText, ?passesValue⟩
  case undoneText => exact decode_escapedText s
  case undoneValue => exact decode_escapedValue s
  case noMarkup => exact lt_not_mem_escapedText s
  case noQuote => exact quote_not_mem_escapedValue true s
  case onwards =>
    intro rest
    exact ⟨decode_escapedText_append s rest, decode_escapedValue_append s rest⟩
  case passesText => exact escapedText_eq_replaceAll s
  case passesValue => rw [escapedValue_eq_replaceAll, if_pos rfl]

end GridMarkup.Text
