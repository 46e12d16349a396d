import GridMarkup.Proofs.Codec
import GridMarkup.Proofs.Frames

/-!
# Layouts and comments

A layout keeps nothing of a text but the addresses on its lines, between blanks. So a comment with
the resources of its body expanded does not end any earlier than before.
-/

namespace GridMarkup.Resource

open Text

variable {a b s line indent opening rest url : List Char} {c : Char} {kind : Kind}
  {followed : Bool} {pieces : List Piece}

/-! ## Lines -/

theorem splitWhere_parts (p : Char → Bool) (s : List Char) :
    ∃ first later, splitWhere p s = first :: later ∧ first <+: s ∧ ∀ part ∈ later, part <:+: s := by
  induction s with
  | nil => exact ⟨[], [], rfl, List.nil_prefix, List.forall_mem_nil _⟩
  | cons c s ih =>
    obtain ⟨first, later, hsplit, hfirst, hlater⟩ := ih
    have hcons {part : List Char} (h : part <:+: s) : part <:+: c :: s :=
      h.trans (List.suffix_cons c s).isInfix
    rw [splitWhere, hsplit]
    split
    · refine ⟨[], first :: later, rfl, List.nil_prefix, ?_⟩
      exact List.forall_mem_cons.2 ⟨hcons hfirst.isInfix, fun part hpart => hcons (hlater part hpart)⟩
    · exact ⟨c :: first, later, rfl, List.cons_prefix_cons.2 ⟨rfl, hfirst⟩,
        fun part hpart => hcons (hlater part hpart)⟩

theorem infix_of_mem_lines (h : line ∈ lines s) : line <:+: s := by
  obtain ⟨first, later, hsplit, hfirst, hlater⟩ := splitWhere_parts (· == '\n') s
  rw [lines, hsplit] at h
  rcases List.mem_cons.1 h with rfl | h
  · exact hfirst.isInfix
  · exact hlater line h

theorem prefix_dropReturn (line : List Char) : dropReturn line <+: line := by
  unfold dropReturn
  split
  · exact List.dropLast_prefix line
  · exact List.prefix_rfl

theorem prefix_trimEnd (s : List Char) : trimEnd s <+: s :=
  ⟨trailing isBlank s, trimEnd_append_trailing s⟩

theorem infix_trim (s : List Char) : trim s <:+: s :=
  (prefix_trimEnd _).isInfix.trans (List.dropWhile_suffix isBlank).isInfix

/-! ## Pieces -/

/-- A piece of a text: blanks, or an address that stands in the text. -/
def Piece.Within (s : List Char) : Piece → Prop
  | .text t => AllBlank t
  | .resource url => url <:+: s

theorem allBlank_of_trim (h : trim s = []) : AllBlank s := by
  have hstart : trimStart s = [] := by
    by_contra hne
    obtain ⟨c, t, hct⟩ := List.exists_cons_of_ne_nil hne
    have hc : isBlank c = false := by
      have hhead := List.head_dropWhile_not isBlank hne
      simp only [trimStart] at hct
      simpa [hct] using hhead
    rw [trim, trimEnd, hct, List.reverse_eq_nil_iff] at h
    have hmem : c ∈ (c :: t).reverse := by simp
    have hblank := List.dropWhile_eq_nil_iff.1 h c hmem
    rw [hc] at hblank
    cases hblank
  exact List.dropWhile_eq_nil_iff.1 hstart

theorem trim_isEmpty (s : List Char) : (trim s).isEmpty = s.all isBlank := by
  rw [Bool.eq_iff_iff, List.isEmpty_iff, List.all_eq_true]
  constructor
  · exact fun h => allBlank_of_trim h
  · intro h
    have hstart : trimStart s = [] := List.dropWhile_eq_nil_iff.2 h
    rw [trim, hstart]
    rfl

theorem dropReturn_all_isBlank (line : List Char) :
    (dropReturn line).all isBlank = line.all isBlank := by
  unfold dropReturn
  split
  · next hreturn =>
    rw [endsWithReturn, beq_iff_eq] at hreturn
    obtain ⟨front, rfl⟩ := List.getLast?_eq_some_iff.1 hreturn
    have hblank : isBlank '\r' = true := by decide
    simp [hblank]
  · rfl

theorem AllBlank.append (ha : AllBlank a) (hb : AllBlank b) : AllBlank (a ++ b) :=
  List.forall_mem_append.2 ⟨ha, hb⟩

/-- A text in front of merged pieces. -/
def withText (s : List Char) : List Piece → List Piece
  | .text t :: rest => .text (s ++ t) :: rest
  | rest => .text s :: rest

theorem merge_text (hs : s ≠ []) (pieces : List Piece) :
    Piece.merge (.text s :: pieces) = withText s (Piece.merge pieces) := by
  have hempty : s.isEmpty = false := by simpa using hs
  rw [Piece.merge, hempty]
  rfl

theorem withText_withText (a b : List Char) (pieces : List Piece) :
    withText a (withText b pieces) = withText (a ++ b) pieces := by
  cases pieces with
  | nil => rfl
  | cons piece pieces => cases piece <;> simp [withText]

theorem merge_texts (a b : List Char) (pieces : List Piece) :
    Piece.merge (.text a :: .text b :: pieces) = Piece.merge (.text (a ++ b) :: pieces) := by
  by_cases ha : a = []
  · simp [ha, Piece.merge]
  · by_cases hb : b = []
    · simp [hb, Piece.merge]
    · have hab : a ++ b ≠ [] := by simp [ha]
      rw [merge_text ha, merge_text hb, merge_text hab, withText_withText]

theorem within_merge (h : ∀ piece ∈ pieces, piece.Within s) :
    ∀ piece ∈ Piece.merge pieces, piece.Within s := by
  induction pieces with
  | nil => exact List.forall_mem_nil _
  | cons piece pieces ih =>
    obtain ⟨hpiece, hpieces⟩ := List.forall_mem_cons.1 h
    have hmerge := ih hpieces
    cases piece with
    | resource url => exact List.forall_mem_cons.2 ⟨hpiece, hmerge⟩
    | text t =>
      rw [Piece.merge]
      split
      · exact hmerge
      · split
        · next u rest hrest =>
          rw [hrest, List.forall_mem_cons] at hmerge
          exact List.forall_mem_cons.2 ⟨AllBlank.append hpiece hmerge.1, hmerge.2⟩
        · exact List.forall_mem_cons.2 ⟨hpiece, hmerge⟩

theorem within_linePieces {lead blank : Option (List Char)} (hline : line <:+: s)
    (hlead : ∀ t ∈ lead, AllBlank t) (hblank : ∀ t ∈ blank, AllBlank t) :
    ∀ piece ∈ linePieces lead blank line, piece.Within s := by
  have hreturn : ∀ piece ∈ (if endsWithReturn line then [Piece.text ['\r']] else []),
      piece.Within s := by
    split
    · rw [List.forall_mem_singleton]
      exact List.forall_mem_singleton.2 (by decide)
    · exact List.forall_mem_nil _
  have hgetD {t : List Char} {o : Option (List Char)} (ho : ∀ t ∈ o, AllBlank t)
      (ht : AllBlank t) : AllBlank (o.getD t) := by
    cases o with
    | none => exact ht
    | some u => exact ho u rfl
  dsimp only [linePieces]
  by_cases hempty : (trim (dropReturn line)).isEmpty = true
  · have hbody : AllBlank (dropReturn line) := allBlank_of_trim (List.isEmpty_iff.1 hempty)
    rw [if_pos hempty]
    exact List.forall_mem_cons.2 ⟨hgetD hblank hbody, hreturn⟩
  · rw [if_neg hempty]
    refine List.forall_mem_cons.2 ⟨hgetD hlead (allBlank_leadingBlanks _), ?_⟩
    refine List.forall_mem_cons.2 ⟨?_, hreturn⟩
    exact (infix_trim _).trans ((prefix_dropReturn line).isInfix.trans hline)

theorem within_laterPieces {later : List (List Char)} (hindent : AllBlank indent)
    (hlater : ∀ line ∈ later, line <:+: s) :
    ∀ piece ∈ laterPieces indent followed later, piece.Within s := by
  have hfeed : Piece.Within s (.text ['\n']) := List.forall_mem_singleton.2 (by decide)
  have hlead : ∀ t ∈ some indent, AllBlank t := by
    rintro t ⟨⟩
    exact hindent
  have hnone : ∀ t ∈ (none : Option (List Char)), AllBlank t := by rintro t ⟨⟩
  fun_induction laterPieces indent followed later with
  | case1 => exact List.forall_mem_nil _
  | case2 last =>
    refine List.forall_mem_cons.2 ⟨hfeed, within_linePieces ?_ hlead ?_⟩
    · exact hlater last List.mem_cons_self
    · split
      · exact hlead
      · exact hnone
  | case3 line rest _ ih =>
    obtain ⟨hline, hrest⟩ := List.forall_mem_cons.1 hlater
    exact List.forall_mem_append.2
      ⟨List.forall_mem_cons.2 ⟨hfeed, within_linePieces hline hlead hnone⟩, ih hrest⟩

/-- A layout consists of blanks and of addresses that stand in the text. -/
theorem within_layout (hindent : AllBlank indent) (s : List Char) :
    ∀ piece ∈ layout indent followed s, piece.Within s := by
  have hnone : ∀ t ∈ (none : Option (List Char)), AllBlank t := by rintro t ⟨⟩
  have hlines : ∀ line ∈ lines s, line <:+: s := fun line => infix_of_mem_lines
  unfold layout
  split
  · exact List.forall_mem_nil _
  · next first later hsplit =>
    rw [hsplit, List.forall_mem_cons] at hlines
    exact within_merge (List.forall_mem_append.2
      ⟨within_linePieces hlines.1 hnone hnone, within_laterPieces hindent hlines.2⟩)

/-! ## Comments -/

/-- The text does not end a comment that it stands in. -/
def Commentable (s : List Char) : Prop := ¬ "-->".toList <:+: s

instance (s : List Char) : Decidable (Commentable s) := inferInstanceAs (Decidable (¬ _))

/-- Behind a text that does not end its comment, this one does not either. -/
def Joinable (s : List Char) : Prop := Commentable s ∧ ∀ c, s.head? = some c → c ≠ '-' ∧ c ≠ '>'

theorem Commentable.of_inside (h : Commentable s) (hinside : a <:+: s) : Commentable a :=
  fun hmark => h (hmark.trans hinside)

theorem commentable_append_cons (hc : c ≠ '-' ∧ c ≠ '>') (ha : Commentable a)
    (hb : Commentable b) : Commentable (a ++ c :: b) := by
  -- The mark cannot reach over `c`, so it would stand in one of the two texts.
  have hmark : c ∉ "-->".toList := by simp [hc]
  intro hinside
  induction a with
  | nil =>
    rcases List.infix_cons_iff.1 hinside with hpre | hinside
    · have hnil := (prefix_append_cons_iff (s := []) hmark).1 hpre
      cases List.prefix_nil.1 hnil
    · exact hb hinside
  | cons d a ih =>
    rcases List.infix_cons_iff.1 hinside with hpre | hinside
    · exact ha ((prefix_append_cons_iff (s := d :: a) hmark).1 hpre).isInfix
    · exact ih (ha.of_inside (List.suffix_cons d a).isInfix) hinside

theorem Commentable.append (ha : Commentable a) (hb : Joinable b) : Commentable (a ++ b) := by
  cases b with
  | nil =>
    rw [List.append_nil]
    exact ha
  | cons c b =>
    exact commentable_append_cons (hb.2 c rfl) ha (hb.1.of_inside (List.suffix_cons c b).isInfix)

theorem Joinable.append (ha : Joinable a) (hb : Joinable b) : Joinable (a ++ b) := by
  refine ⟨ha.1.append hb, ?_⟩
  intro c hc
  cases a with
  | nil => exact hb.2 c hc
  | cons d a => exact ha.2 c hc

theorem joinable_blank (h : AllBlank s) : Joinable s := by
  have hne {c : Char} (hc : c ∈ s) : c ≠ '-' ∧ c ≠ '>' := by
    have hblank := h c hc
    constructor
    · rintro rfl
      exact absurd hblank (by decide)
    · rintro rfl
      exact absurd hblank (by decide)
  constructor
  · intro hinside
    have hdash : '-' ∈ s := hinside.subset (by decide)
    exact (hne hdash).1 rfl
  · intro c hc
    exact hne (List.mem_of_mem_head? hc)

theorem escapedValue_cons (hc : c ≠ '"') (s : List Char) :
    escapedValue false (c :: s) = c :: escapedValue false s := by
  rw [escapedValue, List.flatMap_cons, if_neg hc, if_neg (fun h => by cases h.2)]
  rfl

theorem escapedValue_quote (s : List Char) :
    escapedValue false ('"' :: s) = "&quot".toList ++ ';' :: escapedValue false s := rfl

/-- What a value starts with once it is escaped, it started with before. -/
theorem prefix_of_escapedValue {mark : List Char} (hmark : '&' ∉ mark)
    (h : mark <+: escapedValue false s) : mark <+: s := by
  induction mark generalizing s with
  | nil => exact List.nil_prefix
  | cons m mark ih =>
    rw [List.mem_cons, not_or] at hmark
    cases s with
    | nil => exact h
    | cons c s =>
      by_cases hc : c = '"'
      · rw [hc, escapedValue_quote] at h
        exact absurd (List.cons_prefix_cons.1 h).1 (Ne.symm hmark.1)
      · rw [escapedValue_cons hc, List.cons_prefix_cons] at h
        exact List.cons_prefix_cons.2 ⟨h.1, ih hmark.2 h.2⟩

theorem commentable_escapedValue (h : Commentable s) : Commentable (escapedValue false s) := by
  induction s with
  | nil => exact h
  | cons c s ih =>
    have hs := ih (h.of_inside (List.suffix_cons c s).isInfix)
    by_cases hc : c = '"'
    · rw [hc, escapedValue_quote]
      have hquot : Commentable "&quot".toList := by decide
      exact commentable_append_cons (by decide) hquot hs
    · intro hinside
      rw [escapedValue_cons hc, List.infix_cons_iff] at hinside
      rcases hinside with hpre | hinside
      · rw [← escapedValue_cons hc] at hpre
        exact h (prefix_of_escapedValue (by decide) hpre).isInfix
      · exact hs hinside

theorem joinable_tag (h : Commentable s) (hhead : s.head? = some '<') : Joinable s := by
  refine ⟨h, ?_⟩
  intro c hc
  rw [hhead] at hc
  cases hc
  decide

theorem joinable_quoted (ha : Joinable a) (hs : Commentable s) (hb : Commentable b) :
    Joinable (a ++ '"' :: (s ++ '"' :: b)) := by
  have hquote : '"' ≠ '-' ∧ '"' ≠ '>' := by decide
  have hrest := commentable_append_cons hquote hs hb
  refine ⟨commentable_append_cons hquote ha.1 hrest, ?_⟩
  cases a with
  | nil =>
    rintro c ⟨⟩
    exact hquote
  | cons d a => exact ha.2

/-- What stands in front of the quoted address of an include, and what behind it. -/
def Kind.around : Kind → String × String
  | .scripts => ("<script src=", "></script>")
  | .stylesheets => ("<link href=", " rel=\"stylesheet\">")

/-- The markup of an include. A quote cannot stand in the address and is written as a reference. -/
def Kind.markup (kind : Kind) (url : List Char) : List Char :=
  kind.around.1.toList ++
    '"' :: (url.flatMap (fun c => if c = '"' then "&quot;".toList else [c]) ++
      '"' :: kind.around.2.toList)

theorem markup_eq (kind : Kind) (url : List Char) :
    kind.markup url =
      kind.around.1.toList ++ '"' :: (escapedValue false url ++ '"' :: kind.around.2.toList) := by
  rw [escapedValue_eq_replaceAll]
  rfl

theorem writeFrom_include (kind : Kind) (url : List Char) :
    Token.writeFrom false false (kind.tokens (String.ofList url)) = kind.markup url := by
  have hrel : escapedValue false "stylesheet".toList = "stylesheet".toList := by decide
  rw [markup_eq]
  cases kind with
  | scripts =>
    simp only [Kind.tokens, Kind.around, Token.writeFrom, Token.chars, Token.startTagChars,
      Token.attributeChars, List.flatMap_cons, List.flatMap_nil]
    simp
  | stylesheets =>
    simp only [Kind.tokens, Kind.around, Token.writeFrom, Token.chars, Token.startTagChars,
      Token.attributeChars, List.flatMap_cons, List.flatMap_nil, hrel]
    simp

theorem joinable_include (kind : Kind) (h : Commentable url) :
    Joinable (Token.writeFrom false false (kind.tokens (String.ofList url))) := by
  rw [writeFrom_include, markup_eq]
  refine joinable_quoted (joinable_tag ?_ ?_) (commentable_escapedValue h) ?_
  · cases kind <;> decide
  · cases kind <;> rfl
  · cases kind <;> decide

theorem joinable_piece {piece : Piece} (hs : Commentable s) (h : piece.Within s) :
    Joinable (piece.chars kind) := by
  cases piece with
  | text t => exact joinable_blank h
  | resource url => exact joinable_include kind (hs.of_inside h)

theorem joinable_pieces (hs : Commentable s) (h : ∀ piece ∈ pieces, piece.Within s) :
    Joinable (pieces.flatMap (Piece.chars kind)) := by
  induction pieces with
  | nil => exact joinable_blank (List.forall_mem_nil _)
  | cons piece pieces ih =>
    obtain ⟨hpiece, hpieces⟩ := List.forall_mem_cons.1 h
    exact (joinable_piece hs hpiece).append (ih hpieces)

/-! ## Conditional comments -/

/-- The parts of a conditional comment stand in it, but for a frame that cannot end it. -/
theorem parts_of_ofComment? {c : Conditional} (h : Conditional.ofComment? s = some c) :
    c.opening <:+: s ∧ c.body <:+: s ∧ Joinable c.closing := by
  obtain ⟨f, hf, rfl⟩ := exists_splits h
  have hmark : Joinable "<![endif]".toList := ⟨by decide, by rintro c ⟨⟩; decide⟩
  refine ⟨?_, ?_, ((joinable_blank hf.gap).append hmark).append (joinable_blank hf.tail)⟩
  · exact ⟨[], f.body ++ f.closing, by simp [hf.source]⟩
  · exact ⟨f.opening, f.closing, hf.source.symm⟩

/-- A comment does not end earlier for the resources that are expanded in it. -/
theorem commentable_expandComment (kind : Kind) (hindent : AllBlank indent) (h : Commentable s) :
    Commentable (expandComment kind indent s) := by
  unfold expandComment
  split
  · exact h
  · next c hc =>
    obtain ⟨hopening, hbody, hclosing⟩ := parts_of_ofComment? hc
    have hpieces : Joinable ((layout indent false c.body).flatMap (Piece.chars kind)) :=
      joinable_pieces (h.of_inside hbody) (within_layout hindent c.body)
    exact ((h.of_inside hopening).append hpieces).append hclosing

end GridMarkup.Resource
