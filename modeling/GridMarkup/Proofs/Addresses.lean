import GridMarkup.Proofs.Layout

/-!
# Addresses

A text of a block lists the addresses that stand on its lines. Blanks at its ends list none. Its
layout holds each address once and in order, and so does what the layout becomes: the includes of the
addresses, with nothing but blank texts around them.
-/

namespace GridMarkup

open Text

/-! ## Addresses in texts -/

def Text.isFilled (line : List Char) : Bool := !line.all isBlank

/-- The addresses that a text lists: its lines that are not blank, without the blanks around them. -/
def Text.addresses (s : List Char) : List (List Char) := ((lines s).filter isFilled).map trim

variable {s t indent : List Char} {c : Char} {kind : Resource.Kind}

namespace Text

theorem lines_append (s t : List Char) :
    ∃ front last first later, lines s = front ++ [last] ∧ lines t = first :: later ∧
      lines (s ++ t) = front ++ (last ++ first) :: later := by
  obtain ⟨first, later, ht⟩ := List.exists_cons_of_ne_nil (splitWhere_ne_nil (· == '\n') t)
  induction s with
  | nil => exact ⟨[], [], first, later, rfl, ht, ht⟩
  | cons c s ih =>
    obtain ⟨front, last, first', later', hs, ht', happend⟩ := ih
    cases ht.symm.trans ht'
    rw [lines] at hs happend
    by_cases hc : (c == '\n') = true
    · refine ⟨[] :: front, last, first, later, ?_, ht, ?_⟩
      · rw [lines, splitWhere, if_pos hc, hs, List.cons_append]
      · rw [lines, List.cons_append, splitWhere, if_pos hc, happend, List.cons_append]
    · cases front with
      | nil =>
        refine ⟨[], c :: last, first, later, ?_, ht, ?_⟩
        · rw [lines, splitWhere, if_neg hc, hs]
          rfl
        · rw [lines, List.cons_append, splitWhere, if_neg hc, happend]
          rfl
      | cons part front =>
        refine ⟨(c :: part) :: front, last, first, later, ?_, ht, ?_⟩
        · rw [lines, splitWhere, if_neg hc, hs]
          rfl
        · rw [lines, List.cons_append, splitWhere, if_neg hc, happend]
          rfl

theorem trim_append_blank (s : List Char) (ht : AllBlank t) : trim (s ++ t) = trim s := by
  have hend (s : List Char) : trimEnd (s ++ t) = trimEnd s := by
    rw [trimEnd, List.reverse_append, List.dropWhile_append_of_pos (by simpa [AllBlank] using ht),
      trimEnd]
  by_cases hs : trimStart s = []
  · have hblank : AllBlank s := List.dropWhile_eq_nil_iff.1 hs
    have hall : trimStart (s ++ t) = [] :=
      List.dropWhile_eq_nil_iff.2 (List.forall_mem_append.2 ⟨hblank, ht⟩)
    rw [trim, trim, hs, hall]
  · rw [trim, trimStart, List.dropWhile_append, if_neg (by simpa [trimStart] using hs), hend]
    rfl

theorem isFilled_append_blank (s : List Char) (ht : AllBlank t) :
    isFilled (s ++ t) = isFilled s := by
  rw [isFilled, List.all_append, List.all_eq_true.2 ht, Bool.and_true, isFilled]

theorem filter_blank {parts : List (List Char)} (h : ∀ part ∈ parts, AllBlank part) :
    parts.filter isFilled = [] := by
  rw [List.filter_eq_nil_iff]
  intro part hpart
  rw [isFilled, List.all_eq_true.2 (h part hpart)]
  decide

/-- Blanks behind a text list no address. -/
theorem addresses_append_blank (s : List Char) (ht : AllBlank t) :
    addresses (s ++ t) = addresses s := by
  obtain ⟨front, last, first, later, hs, hlines, happend⟩ := lines_append s t
  have hblank : ∀ part ∈ first :: later, AllBlank part := by
    intro part hpart c hc
    exact ht c ((Resource.infix_of_mem_lines (hlines ▸ hpart)).subset hc)
  obtain ⟨hfirst, hlater⟩ := List.forall_mem_cons.1 hblank
  rw [addresses, addresses, hs, happend, List.filter_append, List.filter_append,
    List.filter_cons, List.filter_singleton, filter_blank hlater, isFilled_append_blank _ hfirst]
  cases isFilled last <;> simp [trim_append_blank _ hfirst]

theorem addresses_blank (hc : isBlank c = true) (s : List Char) :
    addresses (c :: s) = addresses s := by
  obtain ⟨first, later, hparts⟩ := List.exists_cons_of_ne_nil (splitWhere_ne_nil (· == '\n') s)
  by_cases hfeed : (c == '\n') = true
  · simp [addresses, lines, splitWhere, hfeed, isFilled]
  · have hfilled : isFilled (c :: first) = isFilled first := by
      rw [isFilled, List.all_cons, hc, Bool.true_and, isFilled]
    have htrim : trim (c :: first) = trim first := by
      rw [trim, trimStart_blank hc, trim]
    rw [addresses, lines, splitWhere, if_neg hfeed, hparts, addresses, lines, hparts,
      List.filter_cons, List.filter_cons, hfilled]
    cases isFilled first <;> simp [htrim]

theorem addresses_trimStart (s : List Char) : addresses (trimStart s) = addresses s := by
  induction s with
  | nil => rfl
  | cons c s ih =>
    rw [trimStart, List.dropWhile_cons]
    split
    · next hc => rw [← trimStart, ih, addresses_blank hc]
    · rfl

theorem addresses_trimEnd (s : List Char) : addresses (trimEnd s) = addresses s := by
  conv_rhs => rw [← trimEnd_append_trailing s]
  rw [addresses_append_blank _ (Resource.allBlank_trailing s)]

end Text

namespace Resource

/-! ## Addresses in layouts -/

def Piece.url? : Piece → Option (List Char)
  | .resource url => some url
  | .text _ => none

@[simp] theorem urls_text (s : List Char) (pieces : List Piece) :
    (Piece.text s :: pieces).filterMap Piece.url? = pieces.filterMap Piece.url? := rfl

@[simp] theorem urls_resource (url : List Char) (pieces : List Piece) :
    (Piece.resource url :: pieces).filterMap Piece.url? = url :: pieces.filterMap Piece.url? := rfl

theorem urls_merge (pieces : List Piece) :
    (Piece.merge pieces).filterMap Piece.url? = pieces.filterMap Piece.url? := by
  induction pieces with
  | nil => rfl
  | cons piece pieces ih =>
    cases piece with
    | resource url => simp [Piece.merge, ih]
    | text s =>
      by_cases hs : s = []
      · simpa [hs, Piece.merge] using ih
      · rw [merge_text hs, urls_text, ← ih]
        cases Piece.merge pieces with
        | nil => rfl
        | cons first rest => cases first <;> rfl

theorem trim_dropReturn (line : List Char) : trim (dropReturn line) = trim line := by
  unfold dropReturn
  split
  · next hreturn =>
    rw [endsWithReturn, beq_iff_eq] at hreturn
    obtain ⟨front, rfl⟩ := List.getLast?_eq_some_iff.1 hreturn
    rw [List.dropLast_concat, trim_append_blank front (List.forall_mem_singleton.2 (by decide))]
  · rfl

theorem urls_linePieces (lead blank : Option (List Char)) (line : List Char) :
    (linePieces lead blank line).filterMap Piece.url? = ([line].filter isFilled).map trim := by
  have hreturn : (if endsWithReturn line then [Piece.text ['\r']] else []).filterMap
      Piece.url? = [] := by
    split <;> rfl
  dsimp only [linePieces]
  rw [trim_isEmpty, dropReturn_all_isBlank, trim_dropReturn, List.filter_singleton, isFilled]
  cases line.all isBlank <;> simp [hreturn]

theorem urls_laterPieces (indent : List Char) (followed : Bool) (later : List (List Char)) :
    (laterPieces indent followed later).filterMap Piece.url? =
      (later.filter isFilled).map trim := by
  fun_induction laterPieces indent followed later with
  | case1 => rfl
  | case2 last => exact urls_linePieces _ _ last
  | case3 line rest _ ih =>
    rw [List.cons_append, urls_text, List.filterMap_append, urls_linePieces, ih, ← List.map_append,
      ← List.filter_append, List.singleton_append]

theorem urls_layout (indent : List Char) (followed : Bool) (s : List Char) :
    (layout indent followed s).filterMap Piece.url? = addresses s := by
  obtain ⟨first, later, hlines⟩ := List.exists_cons_of_ne_nil (splitWhere_ne_nil (· == '\n') s)
  rw [layout, addresses, lines, hlines]
  dsimp only
  rw [urls_merge, List.filterMap_append, urls_linePieces, urls_laterPieces, ← List.map_append,
    ← List.filter_append, List.singleton_append]

/-! ## Includes -/

/-- The includes of addresses in order, with nothing but blank texts around them. -/
inductive Lists (kind : Kind) : List (List Char) → List Token → Prop where
  | nil : Lists kind [] []
  | blank {urls : List (List Char)} {tokens : List Token} (s : List Char) (hs : AllBlank s)
      (h : Lists kind urls tokens) : Lists kind urls (.text (String.ofList s) :: tokens)
  | address {urls : List (List Char)} {tokens : List Token} (url : List Char)
      (h : Lists kind urls tokens) :
      Lists kind (url :: urls) (kind.tokens (String.ofList url) ++ tokens)

theorem lists_pieces {pieces : List Piece} (h : ∀ piece ∈ pieces, piece.Within s) :
    Lists kind (pieces.filterMap Piece.url?) (pieces.flatMap (Piece.tokens kind)) := by
  induction pieces with
  | nil => exact .nil
  | cons piece pieces ih =>
    obtain ⟨hpiece, hpieces⟩ := List.forall_mem_cons.1 h
    cases piece with
    | text t => exact .blank t hpiece (ih hpieces)
    | resource url => exact .address url (ih hpieces)

theorem lists_layout (hindent : AllBlank indent) (followed : Bool) (s : List Char) :
    Lists kind (addresses s) ((layout indent followed s).flatMap (Piece.tokens kind)) := by
  rw [← urls_layout indent followed s]
  exact lists_pieces (within_layout hindent s)

end Resource

end GridMarkup
