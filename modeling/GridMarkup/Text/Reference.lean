import GridMarkup.Text.Search

/-!
# Character references

A reference runs from `&` to the first `;`. Six names are known; numbers are decimal or, after `x`,
hexadecimal. What is no reference stays as it is written, and a decoded character is not read again.
-/

namespace GridMarkup.Text

def namedReferences : List (String × Char) :=
  [("amp", '&'), ("lt", '<'), ("gt", '>'), ("quot", '"'), ("apos", '\''), ("nbsp", '\u00a0')]

def digit? (base : Nat) (c : Char) : Option Nat :=
  let value :=
    if '0' ≤ c ∧ c ≤ '9' then c.toNat - '0'.toNat
    else if 'a' ≤ c ∧ c ≤ 'f' then c.toNat - 'a'.toNat + 10
    else if 'A' ≤ c ∧ c ≤ 'F' then c.toNat - 'A'.toNat + 10
    else base
  if value < base then some value else none

def digits? (base : Nat) : List Char → Option Nat
  | [] => none
  | s => s.foldlM (fun n c => (digit? base c).map (n * base + ·)) 0

/-- A number may have one plus sign in front. -/
def number? (base : Nat) : List Char → Option Nat
  | '+' :: s => digits? base s
  | s => digits? base s

/-- The character of a code point, surrogates and numbers past the last one apart. -/
def scalar? (n : Nat) : Option Char := if n.isValidChar then some (Char.ofNat n) else none

/-- The character that stands between `&` and `;`. -/
def character? : List Char → Option Char
  | '#' :: 'x' :: s => (number? 16 s).bind scalar?
  | '#' :: 'X' :: s => (number? 16 s).bind scalar?
  | '#' :: s => (number? 10 s).bind scalar?
  | s => namedReferences.lookup (String.ofList s)

/-- Reads the reference whose `&` stands before the text: its character and the text after `;`. -/
def reference? (s : List Char) : Option (Char × List Char) :=
  match cut? [';'] s with
  | some (body, rest) => (character? body).map (·, rest)
  | none => none

theorem reference?_length {s rest : List Char} {c : Char} (h : reference? s = some (c, rest)) :
    rest.length < s.length := by
  unfold reference? at h
  split at h
  · next hc =>
    obtain ⟨_, -, hr⟩ := Option.map_eq_some_iff.1 h
    cases hr
    rw [eq_of_cut? hc]
    simp
    omega
  · cases h

def decode (s : List Char) : List Char :=
  match s with
  | [] => []
  | c :: s =>
    if c = '&' then
      match _h : reference? s with
      | some (d, rest) => d :: decode rest
      | none => c :: decode s
    else c :: decode s
termination_by s.length
decreasing_by
  · have := reference?_length _h
    simp
    omega
  all_goals simp

end GridMarkup.Text
