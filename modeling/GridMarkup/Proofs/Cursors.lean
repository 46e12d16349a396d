import GridMarkup.Proofs.Positions
import GridMarkup.Proofs.Search

/-!
# Reading with a cursor

A source can be read in one pass with a cursor that counts its position as it goes: character by
character, or in one jump to a byte behind. It turns back only over the blanks behind an attribute
without a value. It reads the same tokens, and where it fails it points to what the fault is about:
the positions that a fault has by the source before them are those that the cursor counted.
-/

namespace GridMarkup

open Text Scan

/-- A position in a source, and the source from there on. -/
structure Cursor where
  position : Position := {}
  rest : List Char
  deriving DecidableEq, Repr

/-- Where a fault is, and where the construct around it opens. -/
structure Pointers where
  span : Span
  related : Option Span := none
  deriving DecidableEq, Repr

/-! ## Openings of faults -/

/-- The construct that is never closed, or the value in it. -/
def Fault.opening : Fault → Opening
  | .comment opening | .declaration opening | .endTag _ opening | .startTag _ opening
  | .attributeValue _ _ opening _ => opening

/-- The tag around a value that is never closed. -/
def Fault.around : Fault → Option Opening
  | .attributeValue _ _ _ tag => some tag
  | _ => none

theorem Fault.diagnostic_span (fault : Fault) (source : List Char) :
    (fault.diagnostic source).span = fault.opening.span source := by
  cases fault <;> rfl

theorem Fault.diagnostic_related (fault : Fault) (source : List Char) :
    (fault.diagnostic source).related = fault.around.map (·.span source) := by
  cases fault <;> rfl

/-! ## Bytes -/

def bytes (s : List Char) : Nat := (String.ofList s).utf8ByteSize

theorem bytes_append (s t : List Char) : bytes (s ++ t) = bytes s + bytes t :=
  utf8ByteSize_append s t

theorem bytes_singleton (c : Char) : bytes [c] = c.utf8Size := by
  rw [bytes, ← String.singleton_eq_ofList, String.utf8ByteSize_singleton]

theorem Position.byte_after (p : Position) (s : List Char) :
    (p.after s).byte = p.byte + bytes s := by
  induction s generalizing p with
  | nil => rfl
  | cons c s ih =>
    have hbytes : bytes (c :: s) = c.utf8Size + bytes s := by
      rw [← List.singleton_append, bytes_append, bytes_singleton]
    rw [after_cons, ih, hbytes, next, Nat.add_assoc]

namespace Cursor

/-! ## Moving on -/

def peek (c : Cursor) : Option Char := c.rest.head?

def advance (c : Cursor) : Cursor :=
  match c.rest with
  | [] => c
  | first :: rest => ⟨c.position.next first, rest⟩

/-- Goes on as long as the position and the next character allow it. -/
def goWhile (p : Position → Char → Bool) (position : Position) : List Char → Cursor
  | [] => ⟨position, []⟩
  | c :: rest =>
    if p position c then goWhile p (position.next c) rest else ⟨position, c :: rest⟩

def skip (p : Char → Bool) (c : Cursor) : Cursor := goWhile (fun _ => p) c.position c.rest

/-- Goes on to a byte of the source, or to the end. -/
def advanceTo (byte : Nat) (c : Cursor) : Cursor :=
  goWhile (fun position _ => position.byte < byte) c.position c.rest

/-- The characters of a class that come next, and the cursor behind them. -/
def consume (p : Char → Bool) (c : Cursor) : List Char × Cursor :=
  (c.rest.takeWhile p, c.skip p)

/-- The end of a piece of `n` bytes that are characters of one line. -/
def spanEnd (start : Position) (n : Nat) : Position :=
  ⟨start.byte + n, start.line, start.column + n⟩

theorem goWhile_eq (p : Char → Bool) (position : Position) (s : List Char) :
    goWhile (fun _ => p) position s = ⟨position.after (s.takeWhile p), s.dropWhile p⟩ := by
  induction s generalizing position with
  | nil => rfl
  | cons c s ih =>
    rw [goWhile]
    by_cases hc : p c = true
    · rw [if_pos hc, ih, List.takeWhile_cons_of_pos hc, List.dropWhile_cons_of_pos hc,
        Position.after_cons]
    · rw [if_neg hc, List.takeWhile_cons_of_neg hc, List.dropWhile_cons_of_neg hc,
        Position.after_nil]

theorem goWhile_byte {byte : Nat} {position : Position} (t rest : List Char)
    (h : byte = position.byte + bytes t) :
    goWhile (fun position _ => position.byte < byte) position (t ++ rest) =
      ⟨position.after t, rest⟩ := by
  induction t generalizing position with
  | nil =>
    have hstop : ¬ position.byte < byte := h.le.not_gt
    cases rest with
    | nil => rfl
    | cons c rest =>
      rw [List.nil_append, goWhile, if_neg (by simpa using hstop)]
      rfl
  | cons c t ih =>
    have hbyte : byte = (position.next c).byte + bytes t := by
      rw [h, ← Position.byte_after, Position.after_cons, Position.byte_after]
    have hgoes : position.byte < byte := by
      have hpos := c.utf8Size_pos
      have hnext : (position.next c).byte = position.byte + c.utf8Size := rfl
      omega
    rw [List.cons_append, goWhile, if_pos (by simpa using hgoes), ih hbyte, Position.after_cons]

/-- Where a text stays on one line and has a byte for each character, its end is found by
counting. -/
theorem after_eq_spanEnd {text : List Char} (h : ∀ c ∈ text, c ≠ '\n' ∧ c.utf8Size = 1)
    (p : Position) : p.after text = spanEnd p text.length := by
  induction text generalizing p with
  | nil => rfl
  | cons c text ih =>
    obtain ⟨⟨hfeed, hsize⟩, hrest⟩ := List.forall_mem_cons.1 h
    rw [Position.after_cons, ih hrest, Position.next, if_neg hfeed, if_neg hfeed, hsize]
    simp only [spanEnd, List.length_cons, Nat.add_assoc, Nat.add_comm 1]

/-! ## Cursors by what is left -/

/-- The cursor behind this one that has `s` left. -/
def upTo (start : Cursor) (s : List Char) : Cursor :=
  ⟨start.position.after (start.rest.take (start.rest.length - s.length)), s⟩

/-- The place of an opening text. -/
def span (start : Cursor) (o : Opening) : Span :=
  ⟨(start.upTo o.source).position, (start.upTo o.source).position.after o.text⟩

def pointers (start : Cursor) (fault : Fault) : Pointers :=
  ⟨start.span fault.opening, fault.around.map start.span⟩

/-- What a reader finds, where a cursor tells what it leaves. -/
def located {α : Type} (start : Cursor) (pointers : Fault → Pointers) :
    Except Fault (α × List Char) → Except Pointers (α × Cursor)
  | .ok (found, rest) => .ok (found, start.upTo rest)
  | .error fault => .error (pointers fault)

variable {start : Cursor} {s t rest : List Char} {c : Char} {decode : Bool}

theorem upTo_self (start : Cursor) : start.upTo start.rest = start := by
  simp [upTo]

theorem upTo_append (position : Position) (before s : List Char) :
    (Cursor.mk position (before ++ s)).upTo s = ⟨position.after before, s⟩ := by
  simp [upTo]

theorem upTo_behind (h : t ++ rest <:+ start.rest) :
    start.upTo rest = ⟨(start.upTo (t ++ rest)).position.after t, rest⟩ := by
  obtain ⟨position, source⟩ := start
  obtain ⟨before, rfl⟩ : t ++ rest <:+ source := h
  rw [upTo_append, ← List.append_assoc, upTo_append, Position.after_append]

theorem peek_upTo (start : Cursor) (s : List Char) : (start.upTo s).peek = s.head? := rfl

theorem advance_upTo (h : c :: rest <:+ start.rest) :
    (start.upTo (c :: rest)).advance = start.upTo rest :=
  (upTo_behind (t := [c]) h).symm

theorem skip_upTo (p : Char → Bool) (h : s <:+ start.rest) :
    (start.upTo s).skip p = start.upTo (s.dropWhile p) := by
  have hsplit : s.takeWhile p ++ s.dropWhile p = s := List.takeWhile_append_dropWhile
  have hbehind := upTo_behind (hsplit.symm ▸ h)
  rw [hsplit] at hbehind
  rw [skip, goWhile_eq, hbehind]
  rfl

theorem skipBlanks_upTo (h : s <:+ start.rest) :
    (start.upTo s).skip isBlank = start.upTo (trimStart s) := skip_upTo isBlank h

theorem consume_upTo (p : Char → Bool) (h : s <:+ start.rest) :
    (start.upTo s).consume p = (s.takeWhile p, start.upTo (s.dropWhile p)) := by
  rw [consume, skip_upTo p h]
  rfl

theorem advanceTo_upTo {byte : Nat} (h : t ++ rest <:+ start.rest)
    (hbyte : byte = (start.upTo (t ++ rest)).position.byte + bytes t) :
    (start.upTo (t ++ rest)).advanceTo byte = start.upTo rest := by
  rw [advanceTo, upTo_behind h]
  exact goWhile_byte t rest hbyte

theorem span_eq {text : List Char} (h : ∀ c ∈ text, c ≠ '\n' ∧ c.utf8Size = 1) (start : Cursor)
    (s : List Char) :
    start.span ⟨text, s⟩ =
      ⟨(start.upTo s).position, spanEnd (start.upTo s).position text.length⟩ := by
  rw [← after_eq_spanEnd h]
  rfl

/-! ## Attributes -/

/-- A character that no name can hold is a name by itself, with what follows it. -/
def attributeName (c : Cursor) : List Char × Cursor :=
  let (name, behind) := c.consume isAttributeNameChar
  if name.isEmpty then
    let (more, behind) := c.advance.consume isAttributeNameChar
    (c.peek.toList ++ more, behind)
  else (name, behind)

/-- The value behind `=` of an attribute of the tag that opens at `tag`. -/
def readValue (tag : Span) (c : Cursor) : Except Pointers (List Char × Cursor) :=
  match c.rest with
  | [] => .ok (c.consume isUnquotedChar)
  | q :: _ =>
    if q = '"' ∨ q = '\'' then
      let opened := c.advance
      match cut? [q] opened.rest with
      | some (text, _) => .ok (text, opened.advanceTo (opened.position.byte + bytes text + 1))
      | none => .error ⟨⟨c.position, spanEnd c.position 1⟩, some tag⟩
    else .ok (c.consume isUnquotedChar)

/-- Without `=` behind its name an attribute has no value, and the cursor turns back to the name. -/
def readAttribute (decode : Bool) (tag : Span) (c : Cursor) :
    Except Pointers (Attribute × Cursor) :=
  let (name, behind) := c.attributeName
  let next := behind.skip isBlank
  if next.peek = some '=' then
    match readValue tag (next.advance.skip isBlank) with
    | .error pointers => .error pointers
    | .ok (text, last) => .ok (⟨String.ofList name, some (spelled decode text)⟩, last)
  else .ok (⟨String.ofList name, none⟩, behind)

theorem attributeName_upTo (h : c :: s <:+ start.rest) :
    (start.upTo (c :: s)).attributeName =
      (c :: s.takeWhile isAttributeNameChar, start.upTo (s.dropWhile isAttributeNameChar)) := by
  have hs : s <:+ start.rest := (List.suffix_cons c s).trans h
  rw [attributeName, consume_upTo _ h, advance_upTo h, consume_upTo _ hs]
  by_cases hc : isAttributeNameChar c = true
  · rw [List.takeWhile_cons_of_pos hc, List.dropWhile_cons_of_pos hc]
    rfl
  · rw [List.takeWhile_cons_of_neg hc]
    rfl

theorem readValue_upTo (name : List Char) (o : Opening) (tag : Span) (h : s <:+ start.rest) :
    (start.upTo s).readValue tag =
      start.located (fun fault => ⟨start.span fault.opening, some tag⟩)
        (Scan.readValue name o s) := by
  have hunquoted : .ok ((start.upTo s).consume isUnquotedChar) =
      start.located (fun fault => ⟨start.span fault.opening, some tag⟩)
        (.ok (s.takeWhile isUnquotedChar, s.dropWhile isUnquotedChar)) := by
    rw [consume_upTo _ h]
    rfl
  cases s with
  | nil => exact hunquoted
  | cons q s =>
    rw [Scan.readValue]
    change (if q = '"' ∨ q = '\'' then _ else _) = _
    by_cases hq : q = '"' ∨ q = '\''
    · have hs : s <:+ start.rest := (List.suffix_cons q s).trans h
      have hmark : ∀ c ∈ [q], c ≠ '\n' ∧ c.utf8Size = 1 := by
        rcases hq with rfl | rfl <;> simp [Char.utf8Size]
      rw [if_pos hq, if_pos hq, advance_upTo h]
      change (match cut? [q] s with | some (text, _) => _ | none => _) = _
      cases hcut : cut? [q] s with
      | none =>
        rw [located, Fault.opening, span_eq hmark]
        rfl
      | some parts =>
        obtain ⟨text, rest⟩ := parts
        obtain rfl := eq_of_cut? hcut
        have hsplit : text ++ ([q] ++ rest) = (text ++ [q]) ++ rest := by simp
        have hbytes : bytes (text ++ [q]) = bytes text + 1 := by
          rw [bytes_append, bytes_singleton, (hmark q List.mem_cons_self).2]
        dsimp only
        rw [hsplit] at hs ⊢
        rw [advanceTo_upTo hs (by rw [hbytes, Nat.add_assoc])]
        rfl
    · rw [if_neg hq, if_neg hq]
      exact hunquoted

theorem readAttribute_upTo (o : Opening) (tag : Span) (h : c :: s <:+ start.rest) :
    (start.upTo (c :: s)).readAttribute decode tag =
      start.located (fun fault => ⟨start.span fault.opening, some tag⟩)
        (Scan.readAttribute decode o c s) := by
  have hafter : s.dropWhile isAttributeNameChar <:+ start.rest :=
    ((List.dropWhile_suffix _).trans (List.suffix_cons c s)).trans h
  have hnext : trimStart (s.dropWhile isAttributeNameChar) <:+ start.rest :=
    (List.dropWhile_suffix _).trans hafter
  rw [readAttribute, attributeName_upTo h, Scan.readAttribute]
  dsimp only
  rw [skipBlanks_upTo hafter, peek_upTo]
  generalize trimStart (s.dropWhile isAttributeNameChar) = next at hnext
  by_cases hequals : next.head? = some '='
  · obtain ⟨rest, rfl⟩ := List.head?_eq_some_iff.1 hequals
    have hrest : rest <:+ start.rest := (List.suffix_cons _ rest).trans hnext
    have hvalue : trimStart rest <:+ start.rest := (List.dropWhile_suffix _).trans hrest
    have hstrip : strip? ['='] ('=' :: rest) = some rest := strip?_append ['='] rest
    rw [if_pos hequals, advance_upTo hnext, skipBlanks_upTo hrest,
      readValue_upTo (c :: s.takeWhile isAttributeNameChar) o tag hvalue, hstrip]
    dsimp only
    cases Scan.readValue (c :: s.takeWhile isAttributeNameChar) o (trimStart rest) <;> rfl
  · have hstrip : strip? ['='] next = none := by
      rw [← Option.not_isSome_iff_eq_none]
      intro hsome
      obtain ⟨rest, hrest⟩ := Option.isSome_iff_exists.1 hsome
      exact hequals (strip?_eq_some_iff.1 hrest ▸ rfl)
    rw [if_neg hequals, hstrip]
    rfl

/-- A cursor that has read an attribute has less left. -/
theorem readAttribute_length {tag : Span} {next : Cursor} {a : Attribute} (hne : start.rest ≠ [])
    (h : start.readAttribute decode tag = .ok (a, next)) :
    next.rest.length < start.rest.length := by
  obtain ⟨c, s, hrest⟩ := List.exists_cons_of_ne_nil hne
  rw [← start.upTo_self, hrest, readAttribute_upTo ⟨[], []⟩ tag (hrest ▸ List.suffix_rfl)] at h
  cases hread : Scan.readAttribute decode ⟨[], []⟩ c s with
  | error fault => rw [hread] at h; cases h
  | ok found =>
    rw [hread] at h
    cases h
    rw [hrest]
    exact Nat.lt_succ_of_le (Scan.readAttribute_length hread)

/-- The attributes up to the end of the tag that opens at `tag`, and whether it closes itself. -/
def readAttributes (decode : Bool) (tag : Span) (c : Cursor) :
    Except Pointers (List Attribute × Bool × Cursor) :=
  match _h : (c.skip isBlank).rest with
  | [] => .error ⟨tag, none⟩
  | first :: _ =>
    let next := c.skip isBlank
    if first = '>' then .ok ([], false, next.advance)
    else if first = '/' then
      if next.advance.peek = some '>' then .ok ([], true, next.advance.advance)
      else readAttributes decode tag next.advance
    else
      match _ha : next.readAttribute decode tag with
      | .error pointers => .error pointers
      | .ok (a, behind) =>
        match readAttributes decode tag behind with
        | .error pointers => .error pointers
        | .ok (more, closes, last) => .ok (a :: more, closes, last)
termination_by c.rest.length
decreasing_by
  all_goals
    have hskip : (c.skip isBlank).rest.length ≤ c.rest.length := by
      rw [skip, goWhile_eq]
      exact (List.dropWhile_sublist _).length_le
  · have hadvance : (c.skip isBlank).advance.rest.length < (c.skip isBlank).rest.length := by
      rw [advance, _h]
      exact Nat.lt_succ_self _
    omega
  · have hne : (c.skip isBlank).rest ≠ [] := by
      rw [_h]
      exact List.cons_ne_nil _ _
    exact (readAttribute_length hne _ha).trans_le hskip

theorem readAttributes_eq (decode : Bool) (tag : Span) (c : Cursor) :
    c.readAttributes decode tag =
      match (c.skip isBlank).peek with
      | none => .error ⟨tag, none⟩
      | some first =>
        if first = '>' then .ok ([], false, (c.skip isBlank).advance)
        else if first = '/' then
          if (c.skip isBlank).advance.peek = some '>' then
            .ok ([], true, (c.skip isBlank).advance.advance)
          else (c.skip isBlank).advance.readAttributes decode tag
        else
          ((c.skip isBlank).readAttribute decode tag).bind fun (a, behind) =>
            (behind.readAttributes decode tag).map fun (more, closes, last) =>
              (a :: more, closes, last) := by
  conv => lhs; rw [readAttributes]
  unfold peek
  split
  · next hrest => rw [hrest]; rfl
  · next first more hrest =>
    rw [hrest]
    dsimp only [List.head?_cons]
    split
    · rfl
    · split
      · rfl
      · split
        · next ha => rw [ha]; rfl
        · next a behind ha =>
          rw [ha]
          change _ = (behind.readAttributes decode tag).map _
          cases behind.readAttributes decode tag <;> rfl

/-- An attribute is read, and then the ones behind it. -/
theorem readAttributes_cons {cursor : Cursor} {tag : Opening} {a : Attribute} {rest : List Char}
    (hskip : cursor.skip isBlank = start.upTo (c :: after)) (hc : c :: after <:+ start.rest)
    (hend : c ≠ '>') (hclose : c ≠ '/') (ha : Scan.readAttribute decode tag c after = .ok (a, rest)) :
    cursor.readAttributes decode (start.span tag) =
      ((start.upTo rest).readAttributes decode (start.span tag)).map fun (more, closes, last) =>
        (a :: more, closes, last) := by
  rw [readAttributes_eq, hskip, peek_upTo]
  dsimp only [List.head?_cons]
  rw [if_neg hend, if_neg hclose, readAttribute_upTo tag _ hc, ha]
  rfl

theorem readAttributes_upTo {name : List Char} {tag : Opening} (h : s <:+ start.rest) :
    (start.upTo s).readAttributes decode (start.span tag) =
      match Scan.readAttributes decode name tag s with
      | .ok (found, closes, rest) => .ok (found, closes, start.upTo rest)
      | .error fault => .error (start.pointers fault) := by
  have hskipped {s t : List Char} (hs : s <:+ start.rest) (heq : trimStart s = t) :
      (start.upTo s).skip isBlank = start.upTo t ∧ t <:+ start.rest :=
    ⟨heq ▸ skipBlanks_upTo hs, heq ▸ (List.dropWhile_suffix _).trans hs⟩
  have hslash : '/' ≠ '>' := by decide
  fun_induction Scan.readAttributes decode name tag s with
  | case1 s heq =>
    obtain ⟨hskip, -⟩ := hskipped h heq
    rw [readAttributes_eq, hskip]
    rfl
  | case2 s after heq =>
    obtain ⟨hskip, hc⟩ := hskipped h heq
    rw [readAttributes_eq, hskip, advance_upTo hc]
    rfl
  | case3 s after _ hafter heq =>
    obtain ⟨hskip, hc⟩ := hskipped h heq
    obtain rfl : after = '>' :: _ := strip?_eq_some_iff.1 hafter
    have hend := (List.suffix_cons _ _).trans hc
    rw [readAttributes_eq, hskip, advance_upTo hc, advance_upTo hend]
    rfl
  | case4 s after hafter heq _ ih =>
    obtain ⟨hskip, hc⟩ := hskipped h heq
    have hpeek : after.head? ≠ some '>' := by
      intro hhead
      obtain ⟨rest, rfl⟩ := List.head?_eq_some_iff.1 hhead
      cases hafter
    rw [readAttributes_eq, hskip, peek_upTo, advance_upTo hc, peek_upTo]
    dsimp only [List.head?_cons]
    rw [if_neg hslash, if_pos rfl, if_neg hpeek, ih ((List.suffix_cons _ _).trans hc)]
  | case5 s c after heq hend hclose fault ha =>
    obtain ⟨hskip, hc⟩ := hskipped h heq
    obtain ⟨_, _, _, -, -, rfl⟩ := readAttribute_fault ha
    rw [readAttributes_eq, hskip, peek_upTo]
    dsimp only [List.head?_cons]
    rw [if_neg hend, if_neg hclose, readAttribute_upTo tag _ hc, ha]
    rfl
  | case6 s c after heq hend hclose a rest ha fault hmore ih
  | case7 s c after heq hend hclose a rest ha more closes last hmore ih =>
    obtain ⟨hskip, hc⟩ := hskipped h heq
    have hrest := ((readAttribute_suffix ha).trans (List.suffix_cons c after)).trans hc
    rw [readAttributes_cons hskip hc hend hclose ha, ih hrest, hmore]
    rfl

/-! ## Constructs -/

def readComment (c : Cursor) : Except Pointers (List Token × Cursor) :=
  match cut? "-->".toList (c.rest.drop 4) with
  | some (body, _) =>
    .ok ([.comment (String.ofList body)], c.advanceTo (c.position.byte + 4 + bytes body + 3))
  | none => .error ⟨⟨c.position, spanEnd c.position 4⟩, none⟩

def readDeclaration (c : Cursor) : Except Pointers (List Token × Cursor) :=
  match cut? ['>'] (c.rest.drop 2) with
  | some (body, _) =>
    .ok ([.declaration (String.ofList body)], c.advanceTo (c.position.byte + 2 + bytes body + 1))
  | none => .error ⟨⟨c.position, spanEnd c.position 2⟩, none⟩

def readEndTag (c : Cursor) : Except Pointers (List Token × Cursor) :=
  let (name, named) := c.advance.advance.consume isTagNameChar
  let last := named.skip (· != '>')
  if last.peek.isNone then .error ⟨⟨c.position, named.position⟩, none⟩
  else .ok ([.endTag (String.ofList name)], last.advance)

def readStartTag (decode : Bool) (c : Cursor) : Except Pointers (StartTag × Cursor) :=
  let (name, named) := c.advance.consume isTagNameChar
  match named.readAttributes decode ⟨c.position, named.position⟩ with
  | .error pointers => .error pointers
  | .ok (attributes, closes, behind) => .ok (⟨String.ofList name, attributes, closes⟩, behind)

/-- A start tag with the text of its element, where that is raw text. -/
def readStart (decode : Bool) (c : Cursor) : Except Pointers (List Token × Cursor) :=
  match c.readStartTag decode with
  | .error pointers => .error pointers
  | .ok (tag, behind) =>
    if Element.opensRawText tag then
      let text := (rawRun tag behind.rest).1
      .ok (.startTag tag :: textTokens false text,
        behind.advanceTo (behind.position.byte + bytes text))
    else .ok ([.startTag tag], behind)

def readConstruct (decode : Bool) : Construct → Cursor → Except Pointers (List Token × Cursor)
  | .comment => readComment
  | .declaration => readDeclaration
  | .endTag => readEndTag
  | .startTag => readStart decode

/-- A jump over a text between two marks. -/
theorem advanceTo_behind {mark text last : List Char} {byte : Nat}
    (h : mark ++ (text ++ (last ++ rest)) <:+ start.rest)
    (hbyte : byte = (start.upTo (mark ++ (text ++ (last ++ rest)))).position.byte + bytes mark +
      bytes text + bytes last) :
    (start.upTo (mark ++ (text ++ (last ++ rest)))).advanceTo byte = start.upTo rest := by
  have hsplit : mark ++ (text ++ (last ++ rest)) = (mark ++ text ++ last) ++ rest := by simp
  rw [hsplit] at h hbyte ⊢
  refine advanceTo_upTo h ?_
  rw [hbyte, bytes_append, bytes_append]
  omega

theorem readComment_upTo (hs : construct? s = some .comment) (h : s <:+ start.rest) :
    (start.upTo s).readComment = start.located start.pointers (Scan.readComment s) := by
  obtain ⟨t, rfl⟩ := construct?_comment_inv hs
  rw [readComment, Scan.readComment]
  change (match cut? "-->".toList t with | some (body, _) => _ | none => _) =
    start.located _ (match cut? "-->".toList t with | some (body, rest) => _ | none => _)
  cases hcut : cut? "-->".toList t with
  | none =>
    have hmark : ∀ c ∈ "<!--".toList, c ≠ '\n' ∧ c.utf8Size = 1 := by simp [Char.utf8Size]
    rw [located, pointers, Fault.opening, span_eq hmark]
    rfl
  | some parts =>
    obtain ⟨body, rest⟩ := parts
    obtain rfl := eq_of_cut? hcut
    have hjump : (start.upTo ("<!--".toList ++ (body ++ ("-->".toList ++ rest)))).advanceTo _ = _ :=
      advanceTo_behind h rfl
    exact congrArg (fun next => Except.ok ([Token.comment (String.ofList body)], next)) hjump

theorem readDeclaration_upTo (hs : construct? s = some .declaration) (h : s <:+ start.rest) :
    (start.upTo s).readDeclaration = start.located start.pointers (Scan.readDeclaration s) := by
  obtain ⟨t, rfl, -⟩ := construct?_declaration_inv hs
  rw [readDeclaration, Scan.readDeclaration]
  change (match cut? ['>'] t with | some (body, _) => _ | none => _) =
    start.located _ (match cut? ['>'] t with | some (body, rest) => _ | none => _)
  cases hcut : cut? ['>'] t with
  | none =>
    have hmark : ∀ c ∈ "<!".toList, c ≠ '\n' ∧ c.utf8Size = 1 := by simp [Char.utf8Size]
    rw [located, pointers, Fault.opening, span_eq hmark]
    rfl
  | some parts =>
    obtain ⟨body, rest⟩ := parts
    obtain rfl := eq_of_cut? hcut
    have hjump : (start.upTo ("<!".toList ++ (body ++ (['>'] ++ rest)))).advanceTo _ = _ :=
      advanceTo_behind h rfl
    exact congrArg (fun next => Except.ok ([Token.declaration (String.ofList body)], next)) hjump

/-- A mark and a name are passed one character at a time. -/
theorem span_name {mark name after : List Char} (hs : s = mark ++ (name ++ after))
    (h : s <:+ start.rest) :
    start.span ⟨mark ++ name, s⟩ = ⟨(start.upTo s).position, (start.upTo after).position⟩ := by
  subst hs
  rw [← List.append_assoc] at h
  rw [upTo_behind h, List.append_assoc]
  rfl

theorem readEndTag_upTo (hs : construct? s = some .endTag) (h : s <:+ start.rest) :
    (start.upTo s).readEndTag = start.located start.pointers (Scan.readEndTag s) := by
  obtain ⟨c, t, rfl, -⟩ := construct?_endTag_inv hs
  have hname : '/' :: c :: t <:+ start.rest := (List.suffix_cons _ _).trans h
  have hnamed : c :: t <:+ start.rest := (List.suffix_cons _ _).trans hname
  have hafter : (c :: t).dropWhile isTagNameChar <:+ start.rest :=
    (List.dropWhile_suffix _).trans hnamed
  have hsplit : '<' :: '/' :: c :: t =
      "</".toList ++ ((c :: t).takeWhile isTagNameChar ++ (c :: t).dropWhile isTagNameChar) := by
    rw [List.takeWhile_append_dropWhile]
    rfl
  have hspan := span_name hsplit h
  rw [readEndTag, advance_upTo h, advance_upTo hname, consume_upTo _ hnamed, Scan.readEndTag]
  simp only [List.drop_succ_cons, List.drop_zero]
  rw [skip_upTo _ hafter, peek_upTo]
  generalize (c :: t).dropWhile isTagNameChar = after at hafter hspan
  cases hcut : cut? ['>'] after with
  | none =>
    have hnil : after.dropWhile (· != '>') = [] := by
      rw [List.dropWhile_eq_nil_iff]
      intro d hd
      exact bne_iff_ne.2 (ne_of_mem_of_not_mem hd (not_mem_of_cut?_none hcut))
    rw [hnil, located, pointers, Fault.opening, hspan]
    rfl
  | some parts =>
    obtain ⟨passed, rest⟩ := parts
    have hpassed : ∀ d ∈ passed, (d != '>') = true := by
      intro d hd
      exact bne_iff_ne.2 (ne_of_mem_of_not_mem hd (not_mem_of_cut? hcut))
    obtain rfl := eq_of_cut? hcut
    have hend : (passed ++ (['>'] ++ rest)).dropWhile (· != '>') = '>' :: rest := by
      rw [List.dropWhile_append_of_pos hpassed]
      exact List.dropWhile_cons_of_neg (by decide)
    have hlast : '>' :: rest <:+ start.rest := (List.suffix_append passed _).trans hafter
    rw [hend, advance_upTo hlast]
    rfl

theorem readStartTag_upTo (hs : construct? s = some .startTag) (h : s <:+ start.rest) :
    (start.upTo s).readStartTag decode =
      start.located start.pointers (Scan.readStartTag decode s) := by
  obtain ⟨c, t, rfl, -⟩ := construct?_startTag_inv hs
  have hname : c :: t <:+ start.rest := (List.suffix_cons _ _).trans h
  have hafter : (c :: t).dropWhile isTagNameChar <:+ start.rest :=
    (List.dropWhile_suffix _).trans hname
  have hsplit : '<' :: c :: t =
      ['<'] ++ ((c :: t).takeWhile isTagNameChar ++ (c :: t).dropWhile isTagNameChar) := by
    rw [List.takeWhile_append_dropWhile]
    rfl
  have hspan : start.span ⟨'<' :: (c :: t).takeWhile isTagNameChar, '<' :: c :: t⟩ =
      ⟨(start.upTo ('<' :: c :: t)).position,
        (start.upTo ((c :: t).dropWhile isTagNameChar)).position⟩ := span_name hsplit h
  rw [readStartTag, advance_upTo h, consume_upTo _ hname, Scan.readStartTag]
  simp only [List.drop_succ_cons, List.drop_zero]
  rw [← hspan, readAttributes_upTo hafter]
  cases Scan.readAttributes decode ((c :: t).takeWhile isTagNameChar)
    ⟨'<' :: (c :: t).takeWhile isTagNameChar, '<' :: c :: t⟩
    ((c :: t).dropWhile isTagNameChar) <;> rfl

theorem readStart_upTo (hs : construct? s = some .startTag) (h : s <:+ start.rest) :
    (start.upTo s).readStart decode = start.located start.pointers (Scan.readStart decode s) := by
  rw [readStart, readStartTag_upTo hs h, Scan.readStart]
  cases hread : Scan.readStartTag decode s with
  | error fault => rfl
  | ok found =>
    obtain ⟨tag, rest⟩ := found
    have hrun : (rawRun tag rest).1 ++ (rawRun tag rest).2 = rest := breakAt_append _ rest
    have hrest : (rawRun tag rest).1 ++ (rawRun tag rest).2 <:+ start.rest := by
      rw [hrun]
      exact (readStartTag_suffix hread).trans h
    have hjump := advanceTo_upTo hrest rfl
    rw [hrun] at hjump
    change (if Element.opensRawText tag then _ else _) = start.located _ (if _ then _ else _)
    split
    · exact congrArg (fun next => Except.ok (_, next)) hjump
    · rfl

theorem readConstruct_upTo {kind : Construct} (hs : construct? s = some kind)
    (h : s <:+ start.rest) :
    (start.upTo s).readConstruct decode kind =
      start.located start.pointers (Scan.readConstruct decode kind s) := by
  cases kind with
  | comment => exact readComment_upTo hs h
  | declaration => exact readDeclaration_upTo hs h
  | endTag => exact readEndTag_upTo hs h
  | startTag => exact readStart_upTo hs h

theorem readConstruct_length {kind : Construct} {next : Cursor} {tokens : List Token}
    (hs : construct? start.rest = some kind)
    (h : start.readConstruct decode kind = .ok (tokens, next)) :
    next.rest.length < start.rest.length := by
  have hread : (start.upTo start.rest).readConstruct decode kind = _ :=
    readConstruct_upTo hs List.suffix_rfl
  rw [upTo_self, h] at hread
  cases hscan : Scan.readConstruct decode kind start.rest with
  | error fault => rw [hscan] at hread; cases hread
  | ok found =>
    rw [hscan] at hread
    cases hread
    exact Scan.readConstruct_length hs hscan

/-! ## Whole sources -/

/-- Reads on, where `text` stands in front since the last construct. -/
def read (decode : Bool) (text : List Char) (c : Cursor) : Except Pointers (List Token) :=
  match _h : c.rest with
  | [] => .ok (textTokens decode text)
  | first :: _ =>
    match _hk : construct? c.rest with
    | none => read decode (text ++ [first]) c.advance
    | some kind =>
      match _hr : c.readConstruct decode kind with
      | .error pointers => .error pointers
      | .ok (tokens, behind) =>
        match read decode [] behind with
        | .error pointers => .error pointers
        | .ok more => .ok (textTokens decode text ++ tokens ++ more)
termination_by c.rest.length
decreasing_by
  · rw [advance, _h]
    exact Nat.lt_succ_self _
  · exact readConstruct_length _hk _hr

theorem read_eq (decode : Bool) (text : List Char) (c : Cursor) :
    c.read decode text =
      match c.peek with
      | none => .ok (textTokens decode text)
      | some first =>
        match construct? c.rest with
        | none => c.advance.read decode (text ++ [first])
        | some kind =>
          (c.readConstruct decode kind).bind fun (tokens, behind) =>
            (behind.read decode []).map (textTokens decode text ++ tokens ++ ·) := by
  conv => lhs; rw [read]
  unfold peek
  split
  · next hrest => rw [hrest]; rfl
  · next first more hrest =>
    rw [hrest, List.head?_cons]
    dsimp only
    split
    · next hk => rw [hk]
    · next kind hk =>
      rw [hk]
      dsimp only
      split
      · next hr => rw [hr]; rfl
      · next tokens behind hr =>
        rw [hr]
        change _ = (behind.read decode []).map _
        cases behind.read decode [] <;> rfl

/-- A text is passed up to the next construct. -/
theorem read_text (text : List Char) (h : s <:+ start.rest) :
    (start.upTo s).read decode text =
      match construct? (textRun s).2 with
      | none => .ok (textTokens decode (text ++ (textRun s).1))
      | some kind =>
        ((start.upTo (textRun s).2).readConstruct decode kind).bind fun (tokens, behind) =>
          (behind.read decode []).map
            (textTokens decode (text ++ (textRun s).1) ++ tokens ++ ·) := by
  induction s generalizing text with
  | nil =>
    rw [read_eq, textRun, breakAt, List.append_nil]
    rfl
  | cons c s ih =>
    have hs : s <:+ start.rest := (List.suffix_cons c s).trans h
    rw [read_eq, peek_upTo, List.head?_cons]
    change (match construct? (c :: s) with | none => _ | some kind => _) = _
    cases hk : construct? (c :: s) with
    | none =>
      have hrun : textRun (c :: s) = (c :: (textRun s).1, (textRun s).2) := by
        rw [textRun, breakAt, hk]
        rfl
      dsimp only
      rw [advance_upTo h, ih _ hs, hrun]
      simp only [List.append_assoc, List.singleton_append]
    | some kind =>
      have hrun : textRun (c :: s) = ([], c :: s) := breakAt_here (.inr (by rw [hk]; rfl))
      rw [hrun, List.append_nil]
      simp only [hk]

theorem textRun_suffix (s : List Char) : (textRun s).2 <:+ s := ⟨(textRun s).1, breakAt_append _ s⟩

/-- A construct is read with the text in front of it, and then the source behind it. -/
theorem read_construct {kind : Construct} {found : List Token} {rest : List Char}
    (h : s <:+ start.rest) (hk : construct? (textRun s).2 = some kind)
    (hr : Scan.readConstruct decode kind (textRun s).2 = .ok (found, rest)) :
    (start.upTo s).read decode [] = ((start.upTo rest).read decode []).map
      (textTokens decode (textRun s).1 ++ found ++ ·) := by
  rw [read_text [] h, hk]
  dsimp only
  rw [readConstruct_upTo hk ((textRun_suffix s).trans h), hr]
  rfl

theorem read_upTo (h : s <:+ start.rest) :
    (start.upTo s).read decode [] = (scan decode s).mapError start.pointers := by
  fun_induction scan decode s with
  | case1 s hk =>
    rw [read_text [] h, hk]
    rfl
  | case2 s kind hk fault hr =>
    rw [read_text [] h, hk]
    dsimp only
    rw [readConstruct_upTo hk ((textRun_suffix s).trans h), hr]
    rfl
  | case3 s kind hk found rest hr fault hmore ih
  | case4 s kind hk found rest hr more hmore ih =>
    have hrest := ((readConstruct_suffix hr).trans (textRun_suffix s)).trans h
    rw [read_construct h hk hr, ih hrest, hmore]
    rfl

/-- Reading with a cursor gives the tokens of a source, or the spans of its fault. -/
theorem read_source (decode : Bool) (source : String) :
    Cursor.read decode [] ⟨{}, source.toList⟩ =
      (readTokens decode source).mapError fun d => ⟨d.span, d.related⟩ := by
  have hread : (Cursor.upTo ⟨{}, source.toList⟩ source.toList).read decode [] = _ :=
    read_upTo List.suffix_rfl
  rw [upTo_self] at hread
  rw [hread, readTokens]
  cases scan decode source.toList with
  | ok tokens => rfl
  | error fault =>
    rw [Except.mapError, Except.mapError, fault.diagnostic_span, fault.diagnostic_related]
    rfl

end Cursor

end GridMarkup
