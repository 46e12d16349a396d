import GridMarkup.Text.Blank

/-!
# Finding and splitting

`breakAt` stops at the first place where the rest of the text passes a test. All searches of the
scanner are made of it. `splitWhere` cuts a text at every character of a class.
-/

namespace GridMarkup.Text

/-- The text before the first place whose rest passes `p`, and that rest. -/
def breakAt (p : List Char → Bool) : List Char → List Char × List Char
  | [] => ([], [])
  | c :: s =>
    if p (c :: s) then ([], c :: s)
    else
      let (before, rest) := breakAt p s
      (c :: before, rest)

theorem breakAt_append (p : List Char → Bool) (s : List Char) :
    (breakAt p s).1 ++ (breakAt p s).2 = s := by
  induction s with
  | nil => rfl
  | cons c s ih => simp only [breakAt]; split <;> simp [ih]

theorem breakAt_rest_length (p : List Char → Bool) (s : List Char) :
    (breakAt p s).2.length ≤ s.length := by
  have h := congrArg List.length (breakAt_append p s)
  rw [List.length_append] at h
  omega

theorem breakAt_rest (p : List Char → Bool) (s : List Char) :
    (breakAt p s).2 = [] ∨ p (breakAt p s).2 = true := by
  induction s with
  | nil => exact .inl rfl
  | cons c s ih =>
    simp only [breakAt]
    split
    · next h => exact .inr h
    · exact ih

/-- What follows `mark` in a text that starts with it. -/
def strip? : List Char → List Char → Option (List Char)
  | [], s => some s
  | _ :: _, [] => none
  | m :: mark, c :: s => if m = c then strip? mark s else none

theorem strip?_eq_some_iff {mark s rest : List Char} :
    strip? mark s = some rest ↔ s = mark ++ rest := by
  induction mark generalizing s with
  | nil => simp [strip?]
  | cons m mark ih =>
    cases s with
    | nil => simp [strip?]
    | cons c s =>
      by_cases h : m = c
      · simp [strip?, h, ih]
      · simp [strip?, h, Ne.symm h]

def startsWith (mark s : List Char) : Bool := (strip? mark s).isSome

/-- The text before the first `mark`, and the text after it. -/
def cut? (mark s : List Char) : Option (List Char × List Char) :=
  (strip? mark (breakAt (startsWith mark) s).2).map ((breakAt (startsWith mark) s).1, ·)

theorem eq_of_cut? {mark s before after : List Char} (h : cut? mark s = some (before, after)) :
    s = before ++ (mark ++ after) := by
  simp only [cut?, Option.map_eq_some_iff, Prod.mk.injEq] at h
  obtain ⟨_, hr, hb, rfl⟩ := h
  rw [← strip?_eq_some_iff.1 hr, ← hb, breakAt_append]

/-- The parts between the characters of a class; one more than there are such characters. -/
def splitWhere (p : Char → Bool) : List Char → List (List Char)
  | [] => [[]]
  | c :: s =>
    if p c then [] :: splitWhere p s
    else
      match splitWhere p s with
      | [] => [[c]]
      | part :: parts => (c :: part) :: parts

def lines (s : List Char) : List (List Char) := splitWhere (· == '\n') s

def words (s : List Char) : List (List Char) := (splitWhere isBlank s).filter (· ≠ [])

end GridMarkup.Text
