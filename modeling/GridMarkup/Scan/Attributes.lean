import GridMarkup.Fault
import GridMarkup.Text.Reference
import GridMarkup.Token

/-!
# Reading attributes

The attributes of a start tag, up to the tag's end. Every reader leaves a rest that is no longer
than what it was given. Where `decode` is set, references are decoded.
-/

namespace GridMarkup.Scan

open Text

/-! ## Characters -/

def isTagNameChar (c : Char) : Bool := !isBlank c && c != '/' && c != '>'

def isAttributeNameChar (c : Char) : Bool :=
  isTagNameChar c && c != '=' && c != '"' && c != '\''

def isUnquotedChar (c : Char) : Bool := !isBlank c && c != '>'

/-- References are decoded where the reader is asked to. -/
def spelled (decode : Bool) (s : List Char) : String :=
  String.ofList (if decode then Text.decode s else s)

/-! ## Attributes -/

/-- The value behind `=`: up to the same quote, or else up to a blank or `>`. -/
def readValue (name : List Char) (tag : Opening) : List Char → Except Fault (List Char × List Char)
  | [] => .ok ([], [])
  | c :: s =>
    if c = '"' ∨ c = '\'' then
      match cut? [c] s with
      | some (text, rest) => .ok (text, rest)
      | none => .error (.attributeValue name c ⟨[c], c :: s⟩ tag)
    else .ok ((c :: s).takeWhile isUnquotedChar, (c :: s).dropWhile isUnquotedChar)

/-- An attribute that starts with `c`, whatever character that is. -/
def readAttribute (decode : Bool) (tag : Opening) (c : Char) (s : List Char) :
    Except Fault (Attribute × List Char) :=
  let name := c :: s.takeWhile isAttributeNameChar
  let after := s.dropWhile isAttributeNameChar
  match strip? ['='] (trimStart after) with
  | none => .ok (⟨String.ofList name, none⟩, after)
  | some rest =>
    match readValue name tag (trimStart rest) with
    | .error fault => .error fault
    | .ok (text, rest) => .ok (⟨String.ofList name, some (spelled decode text)⟩, rest)

theorem readValue_length {name s text rest : List Char} {tag : Opening}
    (h : readValue name tag s = .ok (text, rest)) : rest.length ≤ s.length := by
  unfold readValue at h
  split at h
  · cases h; simp
  · split at h
    · split at h
      · next hc =>
        cases h
        rw [eq_of_cut? hc]
        simp
        omega
      · cases h
    · cases h
      exact (List.dropWhile_sublist _).length_le

theorem readAttribute_length {decode : Bool} {tag : Opening} {c : Char} {s rest : List Char}
    {a : Attribute} (h : readAttribute decode tag c s = .ok (a, rest)) :
    rest.length ≤ s.length := by
  have hdrop (p : Char → Bool) (l : List Char) : (l.dropWhile p).length ≤ l.length :=
    (List.dropWhile_sublist _).length_le
  have hs := hdrop isAttributeNameChar s
  simp only [readAttribute] at h
  split at h
  · cases h; exact hs
  · next after hafter =>
    have h₁ := congrArg List.length (strip?_eq_some_iff.1 hafter)
    have h₂ := hdrop isBlank (s.dropWhile isAttributeNameChar)
    have h₃ := hdrop isBlank after
    split at h
    · cases h
    · next hv =>
      cases h
      have h₄ := readValue_length hv
      simp only [trimStart, List.length_append, List.length_singleton] at h₁ h₄
      omega

/-- The attributes up to the end of a tag, whether it closes itself, and what follows it. A `/`
that is not the tag's end is passed over. -/
def readAttributes (decode : Bool) (name : List Char) (tag : Opening) (s : List Char) :
    Except Fault (List Attribute × Bool × List Char) :=
  match _h : trimStart s with
  | [] => .error (.startTag name tag)
  | c :: s' =>
    if c = '>' then .ok ([], false, s')
    else if c = '/' then
      match strip? ['>'] s' with
      | some rest => .ok ([], true, rest)
      | none => readAttributes decode name tag s'
    else
      match _ha : readAttribute decode tag c s' with
      | .error fault => .error fault
      | .ok (a, rest) =>
        match readAttributes decode name tag rest with
        | .error fault => .error fault
        | .ok (more, selfClosing, rest) => .ok (a :: more, selfClosing, rest)
termination_by s.length
decreasing_by
  all_goals
    have hle := (List.dropWhile_sublist (l := s) isBlank).length_le
    rw [← trimStart, _h, List.length_cons] at hle
  · omega
  · have := readAttribute_length _ha
    omega

theorem readAttributes_length {decode : Bool} {name s : List Char} {tag : Opening}
    {found : List Attribute} {selfClosing : Bool} {rest : List Char}
    (h : readAttributes decode name tag s = .ok (found, selfClosing, rest)) :
    rest.length < s.length := by
  have hle (s : List Char) : (trimStart s).length ≤ s.length :=
    (List.dropWhile_sublist _).length_le
  fun_induction readAttributes decode name tag s generalizing found selfClosing rest with
  | case1 => cases h
  | case2 s after heq =>
    cases h
    have := heq ▸ hle s
    simp at this
    omega
  | case3 s after _ hafter heq =>
    cases h
    have := heq ▸ hle s
    rw [strip?_eq_some_iff.1 hafter] at this
    simp at this
    omega
  | case4 s after _ heq _ ih =>
    have := heq ▸ hle s
    have := ih h
    simp at *
    omega
  | case5 => cases h
  | case6 => cases h
  | case7 s c after heq _ _ a rest' ha more selfClosing' rest'' hmore ih =>
    cases h
    have := heq ▸ hle s
    have := readAttribute_length ha
    have := ih hmore
    simp at *
    omega

end GridMarkup.Scan
