import GridMarkup.Element
import GridMarkup.Scan.Attributes

/-!
# Reading tokens

Text runs up to the next place where a construct begins; a `<` that begins none is text. Every
construct is read from its first character and leaves a shorter rest. Raw text is never decoded.
-/

namespace GridMarkup.Scan

open Text

/-! ## What begins a construct -/

inductive Construct where
  | comment
  | declaration
  | endTag
  | startTag
  deriving DecidableEq, Repr

/-- The construct that the first characters of a text begin. -/
def construct? : List Char → Option Construct
  | '<' :: '!' :: '-' :: '-' :: _ => some .comment
  | '<' :: '!' :: _ => some .declaration
  | '<' :: '/' :: c :: _ => if c.isAlpha then some .endTag else none
  | '<' :: c :: _ => if c.isAlpha then some .startTag else none
  | _ => none

/-! ## Constructs -/

/-- The token of a text, none for the empty text. -/
def textTokens (decode : Bool) (s : List Char) : List Token :=
  if s.isEmpty then [] else [.text (spelled decode s)]

/-- Raw text ends before the end tag of its element, which a blank, `/`, `>` or the end of the
source has to follow. -/
def endsRawText (name s : List Char) : Bool :=
  match strip? "</".toList s with
  | none => false
  | some rest =>
    Element.lower (rest.take name.length) == Element.lower name &&
      match rest.drop name.length with
      | [] => true
      | c :: _ => c == '>' || c == '/' || isAsciiSpace c

def readComment (s : List Char) : Except Fault (List Token × List Char) :=
  match cut? "-->".toList (s.drop 4) with
  | some (body, rest) => .ok ([.comment (String.ofList body)], rest)
  | none => .error (.comment ⟨"<!--".toList, s⟩)

def readDeclaration (s : List Char) : Except Fault (List Token × List Char) :=
  match cut? ['>'] (s.drop 2) with
  | some (body, rest) => .ok ([.declaration (String.ofList body)], rest)
  | none => .error (.declaration ⟨"<!".toList, s⟩)

/-- What stands between the name and `>` is passed over. -/
def readEndTag (s : List Char) : Except Fault (List Token × List Char) :=
  let name := (s.drop 2).takeWhile isTagNameChar
  match cut? ['>'] ((s.drop 2).dropWhile isTagNameChar) with
  | some (_, rest) => .ok ([.endTag (String.ofList name)], rest)
  | none => .error (.endTag name ⟨"</".toList ++ name, s⟩)

def readStartTag (decode : Bool) (s : List Char) : Except Fault (StartTag × List Char) :=
  let name := (s.drop 1).takeWhile isTagNameChar
  match readAttributes decode name ⟨'<' :: name, s⟩ ((s.drop 1).dropWhile isTagNameChar) with
  | .error fault => .error fault
  | .ok (attributes, selfClosing, rest) =>
    .ok (⟨String.ofList name, attributes, selfClosing⟩, rest)

/-- The text of a raw text element, and the source from its end tag on. -/
def rawRun (tag : StartTag) (s : List Char) : List Char × List Char :=
  breakAt (endsRawText tag.name.toList) s

/-- A start tag with the text of its element, where that is raw text. -/
def readStart (decode : Bool) (s : List Char) : Except Fault (List Token × List Char) :=
  match readStartTag decode s with
  | .error fault => .error fault
  | .ok (tag, rest) =>
    if Element.opensRawText tag then
      .ok (.startTag tag :: textTokens false (rawRun tag rest).1, (rawRun tag rest).2)
    else .ok ([.startTag tag], rest)

/-- The tokens of the construct that a text starts with, and what follows it. -/
def readConstruct (decode : Bool) : Construct → List Char → Except Fault (List Token × List Char)
  | .comment => readComment
  | .declaration => readDeclaration
  | .endTag => readEndTag
  | .startTag => readStart decode

theorem readStartTag_length {decode : Bool} {s rest : List Char} {tag : StartTag}
    (h : readStartTag decode s = .ok (tag, rest)) : rest.length < s.length := by
  simp only [readStartTag] at h
  split at h
  · cases h
  · next hattributes =>
    cases h
    have hattributes := readAttributes_length hattributes
    have hname := (List.dropWhile_sublist (l := s.drop 1) isTagNameChar).length_le
    simp only [List.length_drop] at hname
    omega

theorem readConstruct_length {decode : Bool} {kind : Construct} {s rest : List Char}
    {tokens : List Token} (hs : construct? s = some kind)
    (h : readConstruct decode kind s = .ok (tokens, rest)) : rest.length < s.length := by
  have hne : s ≠ [] := by rintro rfl; cases hs
  have hpos : 0 < s.length := List.length_pos_iff.2 hne
  have hcut {mark t before after : List Char} (h : cut? mark t = some (before, after)) :
      mark.length + after.length ≤ t.length := by
    rw [eq_of_cut? h]
    simp
  cases kind with
  | comment =>
    simp only [readConstruct, readComment] at h
    split at h
    · next hc =>
      cases h
      have := hcut hc
      simp at this
      omega
    · cases h
  | declaration =>
    simp only [readConstruct, readDeclaration] at h
    split at h
    · next hc =>
      cases h
      have := hcut hc
      simp at this
      omega
    · cases h
  | endTag =>
    simp only [readConstruct, readEndTag] at h
    split at h
    · next hc =>
      cases h
      have := hcut hc
      have := (List.dropWhile_sublist (l := s.drop 2) isTagNameChar).length_le
      simp at *
      omega
    · cases h
  | startTag =>
    simp only [readConstruct, readStart] at h
    split at h
    · cases h
    · next tag after htag =>
      have hafter := readStartTag_length htag
      split at h
      · cases h
        have : (rawRun tag after).2.length ≤ after.length := breakAt_rest_length _ after
        omega
      · cases h
        exact hafter

/-! ## Whole sources -/

/-- The text before the first construct, and the source from the construct on. -/
def textRun (s : List Char) : List Char × List Char :=
  breakAt (fun rest => (construct? rest).isSome) s

/-- The tokens of a source: a run of text, a construct, and so on. -/
def scan (decode : Bool) (s : List Char) : Except Fault (List Token) :=
  match _hk : construct? (textRun s).2 with
  | none => .ok (textTokens decode (textRun s).1)
  | some kind =>
    match _hr : readConstruct decode kind (textRun s).2 with
    | .error fault => .error fault
    | .ok (tokens, rest) =>
      match scan decode rest with
      | .error fault => .error fault
      | .ok more => .ok (textTokens decode (textRun s).1 ++ tokens ++ more)
termination_by s.length
decreasing_by
  have := readConstruct_length _hk _hr
  have : (textRun s).2.length ≤ s.length := breakAt_rest_length _ s
  omega

end GridMarkup.Scan
