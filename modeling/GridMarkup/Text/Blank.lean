/-!
# Blank characters

Blank means the Unicode property White_Space. Trimming, words and names go by it. Only the end of
raw text looks for the shorter list of ASCII spaces.
-/

namespace GridMarkup.Text

/-- The code points with the property White_Space, first and last of each range. -/
def blankRanges : List (Nat × Nat) :=
  [(0x09, 0x0D), (0x20, 0x20), (0x85, 0x85), (0xA0, 0xA0), (0x1680, 0x1680), (0x2000, 0x200A),
    (0x2028, 0x2029), (0x202F, 0x202F), (0x205F, 0x205F), (0x3000, 0x3000)]

def isBlank (c : Char) : Bool :=
  blankRanges.any fun (low, high) => low ≤ c.toNat && c.toNat ≤ high

def isAsciiSpace (c : Char) : Bool :=
  c == ' ' || c == '\t' || c == '\n' || c == '\x0c' || c == '\r'

theorem isBlank_of_isAsciiSpace {c : Char} (h : isAsciiSpace c = true) : isBlank c = true := by
  simp only [isAsciiSpace, Bool.or_eq_true, beq_iff_eq] at h
  rcases h with (((rfl | rfl) | rfl) | rfl) | rfl <;> decide

/-! ## Trimming -/

def trimStart (s : List Char) : List Char := s.dropWhile isBlank

def trimEnd (s : List Char) : List Char := (s.reverse.dropWhile isBlank).reverse

def trim (s : List Char) : List Char := trimEnd (trimStart s)

/-- The blanks that a text starts with. -/
def leadingBlanks (s : List Char) : List Char := s.takeWhile isBlank

theorem leadingBlanks_append_trimStart (s : List Char) : leadingBlanks s ++ trimStart s = s :=
  List.takeWhile_append_dropWhile

/-- The longest run of characters in a class that a text ends with. -/
def trailing (p : Char → Bool) (s : List Char) : List Char := (s.reverse.takeWhile p).reverse

theorem trimEnd_append_trailing (s : List Char) : trimEnd s ++ trailing isBlank s = s := by
  rw [trimEnd, trailing, ← List.reverse_append, List.takeWhile_append_dropWhile,
    List.reverse_reverse]

end GridMarkup.Text
