import GridMarkup.Proofs.Search
import GridMarkup.Text.Indentation
import GridMarkup.Text.Lines
import Mathlib.Data.List.TakeWhile

/-!
# Line endings in texts

A text gets the other line ending by a carriage return in front of every line feed. Searching,
trimming and splitting find the same parts, with the other line ending.
-/

namespace GridMarkup.Text

/-- Writes two characters for every line feed. -/
def endLines (a b : Char) (s : List Char) : List Char :=
  s.flatMap fun c => if c = '\n' then [a, b] else [c]

/-- Puts a carriage return in front of every line feed. -/
def crlf (s : List Char) : List Char := endLines '\r' '\n' s

variable {s t mark before after : List Char} {a b c : Char} {q : Char → Bool} {p : List Char → Bool}

@[simp] theorem endLines_nil (a b : Char) : endLines a b [] = [] := rfl

theorem endLines_feed (a b : Char) (s : List Char) :
    endLines a b ('\n' :: s) = a :: b :: endLines a b s := rfl

theorem endLines_cons (hc : c ≠ '\n') (a b : Char) (s : List Char) :
    endLines a b (c :: s) = c :: endLines a b s := by
  simp [endLines, hc]

@[simp] theorem crlf_nil : crlf [] = [] := rfl

@[simp] theorem crlf_feed (s : List Char) : crlf ('\n' :: s) = '\r' :: '\n' :: crlf s := rfl

theorem crlf_cons (hc : c ≠ '\n') (s : List Char) : crlf (c :: s) = c :: crlf s :=
  endLines_cons hc _ _ s

@[simp] theorem crlf_append (s t : List Char) : crlf (s ++ t) = crlf s ++ crlf t :=
  List.flatMap_append

theorem crlf_of_not_mem (h : '\n' ∉ s) : crlf s = s := by
  induction s with
  | nil => rfl
  | cons c s ih =>
    rw [List.mem_cons, not_or] at h
    rw [crlf_cons (Ne.symm h.1), ih h.2]

theorem crlf_line_append (h : '\n' ∉ s) (t : List Char) : crlf (s ++ t) = s ++ crlf t := by
  rw [crlf_append, crlf_of_not_mem h]

@[simp] theorem crlf_eq_nil : crlf s = [] ↔ s = [] := by
  cases s with
  | nil => simp
  | cons c s => by_cases hc : c = '\n' <;> simp [hc, crlf_cons]

theorem ne_feed_of_not_blank (hc : isBlank c = false) : c ≠ '\n' := by
  rintro rfl
  exact absurd hc (by decide)

/-! ## Runs of a class of characters -/

theorem takeWhile_endLines (ha : q a = q '\n') (hb : q b = q '\n') :
    (endLines a b s).takeWhile q = endLines a b (s.takeWhile q) := by
  induction s with
  | nil => rfl
  | cons c s ih =>
    by_cases hc : c = '\n'
    · subst hc
      by_cases hfeed : q '\n' = true <;> simp [endLines_feed, ha, hb, hfeed, ih]
    · by_cases hqc : q c = true <;> simp [endLines_cons hc, hqc, ih]

theorem dropWhile_endLines (ha : q a = q '\n') (hb : q b = q '\n') :
    (endLines a b s).dropWhile q = endLines a b (s.dropWhile q) := by
  induction s with
  | nil => rfl
  | cons c s ih =>
    by_cases hc : c = '\n'
    · subst hc
      by_cases hfeed : q '\n' = true <;> simp [endLines_feed, ha, hb, hfeed, ih]
    · by_cases hqc : q c = true <;> simp [endLines_cons hc, hqc, ih]

theorem takeWhile_crlf (hq : q '\r' = q '\n') : (crlf s).takeWhile q = crlf (s.takeWhile q) :=
  takeWhile_endLines hq rfl

theorem dropWhile_crlf (hq : q '\r' = q '\n') : (crlf s).dropWhile q = crlf (s.dropWhile q) :=
  dropWhile_endLines hq rfl

/-- A class without line endings takes the same characters from both texts. -/
theorem takeWhile_crlf_same (hreturn : q '\r' = false) (hfeed : q '\n' = false) :
    (crlf s).takeWhile q = s.takeWhile q := by
  rw [takeWhile_crlf (by rw [hreturn, hfeed]), crlf_of_not_mem]
  intro hmem
  rw [List.mem_takeWhile_imp hmem] at hfeed
  cases hfeed

theorem all_crlf (hq : q '\r' = q '\n') : (crlf s).all q = s.all q := by
  induction s with
  | nil => rfl
  | cons c s ih =>
    by_cases hc : c = '\n'
    · subst hc
      simp [hq, ih]
    · simp [crlf_cons hc, ih]

theorem trimStart_crlf (s : List Char) : trimStart (crlf s) = crlf (trimStart s) :=
  dropWhile_crlf (by decide)

theorem leadingBlanks_crlf (s : List Char) : leadingBlanks (crlf s) = crlf (leadingBlanks s) :=
  takeWhile_crlf (by decide)

/-! ## From the end -/

/-- From the end on, a line feed comes in front of its carriage return. -/
theorem reverse_crlf (s : List Char) : (crlf s).reverse = endLines '\n' '\r' s.reverse := by
  induction s with
  | nil => rfl
  | cons c s ih =>
    rw [List.reverse_cons, endLines, List.flatMap_append, ← endLines, ← ih]
    by_cases hc : c = '\n' <;> simp [hc, crlf_cons]

theorem reverse_endLines (s : List Char) : (endLines '\n' '\r' s).reverse = crlf s.reverse := by
  rw [← List.reverse_reverse (crlf s.reverse), reverse_crlf, List.reverse_reverse]

theorem trimEnd_crlf (s : List Char) : trimEnd (crlf s) = crlf (trimEnd s) := by
  rw [trimEnd, reverse_crlf, dropWhile_endLines rfl (by decide), reverse_endLines, trimEnd]

theorem trailing_crlf (s : List Char) :
    trailing isBlank (crlf s) = crlf (trailing isBlank s) := by
  rw [trailing, reverse_crlf, takeWhile_endLines rfl (by decide), reverse_endLines, trailing]

/-- The indentation stands behind the last line ending. -/
theorem indentation_crlf (s : List Char) : indentation (crlf s) = indentation s := by
  have htake (t : List Char) : (endLines '\n' '\r' t).takeWhile (fun c => isBlank c && c != '\n') =
      t.takeWhile fun c => isBlank c && c != '\n' := by
    induction t with
    | nil => rfl
    | cons c t ih =>
      by_cases hc : c = '\n'
      · subst hc
        rfl
      · simp only [endLines_cons hc, List.takeWhile_cons, ih]
  rw [indentation, trailing, reverse_crlf, htake, indentation, trailing]

/-! ## Searches -/

/-- The test looks for no line ending, neither at a place nor behind it. -/
structure Blind (p : List Char → Bool) : Prop where
  same : ∀ s, p (crlf s) = p s
  feed : ∀ s, p ('\n' :: s) = false

theorem Blind.breakAt (h : Blind p) (s : List Char) :
    Text.breakAt p (crlf s) = (crlf (Text.breakAt p s).1, crlf (Text.breakAt p s).2) := by
  induction s with
  | nil => rfl
  | cons c s ih =>
    have hcrlf := h.same (c :: s)
    by_cases hc : c = '\n'
    · subst hc
      rw [h.feed, crlf_feed] at hcrlf
      rw [crlf_feed, Text.breakAt, hcrlf, Text.breakAt, Text.breakAt, h.feed, h.feed, ih]
      rfl
    · rw [crlf_cons hc] at hcrlf ⊢
      rw [Text.breakAt, Text.breakAt, hcrlf]
      split
      · simp [crlf_cons hc]
      · simp [ih, crlf_cons hc]

theorem strip?_endLines (ha : a ∉ mark) (hfeed : '\n' ∉ mark) (s : List Char) :
    strip? mark (endLines a b s) = (strip? mark s).map (endLines a b) := by
  induction mark generalizing s with
  | nil => rfl
  | cons m mark ih =>
    rw [List.mem_cons, not_or] at ha hfeed
    cases s with
    | nil => rfl
    | cons c s =>
      by_cases hc : c = '\n'
      · subst hc
        simp [endLines_feed, strip?, Ne.symm ha.1, Ne.symm hfeed.1]
      · rw [endLines_cons hc, strip?, strip?]
        split
        · exact ih ha.2 hfeed.2 s
        · rfl

theorem strip?_crlf (hreturn : '\r' ∉ mark) (hfeed : '\n' ∉ mark) (s : List Char) :
    strip? mark (crlf s) = (strip? mark s).map crlf :=
  strip?_endLines hreturn hfeed s

theorem blind_startsWith (hreturn : '\r' ∉ mark) (hfeed : '\n' ∉ mark) (hmark : mark ≠ []) :
    Blind (startsWith mark) := by
  constructor
  · intro s
    rw [startsWith, strip?_crlf hreturn hfeed, Option.isSome_map, startsWith]
  · intro s
    obtain ⟨m, mark, rfl⟩ := List.exists_cons_of_ne_nil hmark
    rw [List.mem_cons, not_or] at hfeed
    simp [startsWith, strip?, Ne.symm hfeed.1]

theorem cut?_crlf (hreturn : '\r' ∉ mark) (hfeed : '\n' ∉ mark) (hmark : mark ≠ [])
    (s : List Char) :
    cut? mark (crlf s) = (cut? mark s).map fun (before, after) => (crlf before, crlf after) := by
  rw [cut?, (blind_startsWith hreturn hfeed hmark).breakAt, strip?_crlf hreturn hfeed, cut?]
  cases strip? mark (breakAt (startsWith mark) s).2 <;> rfl

/-! ## Words -/

/-- A second blank in a line ending adds no word. -/
theorem words_crlf (s : List Char) : words (crlf s) = words s := by
  have hparts : ∃ first later later', splitWhere isBlank s = first :: later ∧
      splitWhere isBlank (crlf s) = first :: later' ∧
      later'.filter (· ≠ []) = later.filter (· ≠ []) := by
    induction s with
    | nil => exact ⟨[], [], [], rfl, rfl, rfl⟩
    | cons c s ih =>
      obtain ⟨first, later, later', hs, hcrlf, hsame⟩ := ih
      by_cases hc : c = '\n'
      · subst hc
        have hblank : isBlank '\r' = true ∧ isBlank '\n' = true := by decide
        refine ⟨[], first :: later, [] :: first :: later', ?_, ?_, ?_⟩
        · simp [splitWhere, hblank, hs]
        · simp [splitWhere, hblank, hcrlf]
        · rw [List.filter_cons_of_neg (by simp), List.filter_cons, List.filter_cons, hsame]
      · by_cases hblank : isBlank c = true
        · refine ⟨[], first :: later, first :: later', ?_, ?_, ?_⟩
          · simp [splitWhere, hblank, hs]
          · simp [crlf_cons hc, splitWhere, hblank, hcrlf]
          · rw [List.filter_cons, List.filter_cons, hsame]
        · refine ⟨c :: first, later, later', ?_, ?_, hsame⟩
          · simp [splitWhere, hblank, hs]
          · simp [crlf_cons hc, splitWhere, hblank, hcrlf]
  obtain ⟨first, later, later', hs, hcrlf, hsame⟩ := hparts
  rw [words, words, hs, hcrlf, List.filter_cons, List.filter_cons, hsame]

/-! ## Lines -/

theorem onLine_of_mem_lines {line : List Char} (h : line ∈ lines s) : '\n' ∉ line := by
  intro hmem
  exact absurd (not_of_mem_splitWhere h _ hmem) (by decide)

/-- Puts a carriage return behind every line but the last. -/
def withReturns : List (List Char) → List (List Char)
  | [] => []
  | [last] => [last]
  | line :: rest => (line ++ ['\r']) :: withReturns rest

theorem withReturns_cons {lines : List (List Char)} (h : lines ≠ []) (line : List Char) :
    withReturns (line :: lines) = (line ++ ['\r']) :: withReturns lines := by
  cases lines with
  | nil => exact absurd rfl h
  | cons next lines => rfl

theorem lines_crlf (s : List Char) : lines (crlf s) = withReturns (lines s) := by
  have hreturn : ('\r' == '\n') = false := by decide
  unfold lines
  induction s with
  | nil => rfl
  | cons c s ih =>
    by_cases hc : c = '\n'
    · subst hc
      have hsplit : splitWhere (· == '\n') ('\n' :: s) = [] :: splitWhere (· == '\n') s := rfl
      rw [hsplit, withReturns_cons (splitWhere_ne_nil _ s), ← ih]
      simp [splitWhere, hreturn]
    · have hne : ¬ (c == '\n') = true := by simpa using hc
      rw [crlf_cons hc, splitWhere, splitWhere, if_neg hne, if_neg hne, ih]
      cases hparts : splitWhere (· == '\n') s with
      | nil => rfl
      | cons first later => cases later <;> rfl

end GridMarkup.Text
