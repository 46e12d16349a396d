import GridMarkup.Proofs.Drafts
import GridMarkup.Proofs.LineEnds.Text
import GridMarkup.Proofs.Written
import Mathlib.Data.List.Chain

/-!
# The lines of a layout

A layout has the lines of its text. Every line is laid out on its own: an address stands behind the
indentation of the block, on the first line behind the blanks in front of it, and a line without one
stays as it is. Between two addresses there is always a line feed. The body of a conditional comment
is laid out so too, with the markup of an include for each address, and its frame stays.
-/

namespace GridMarkup

open Text

variable {s line indent : List Char} {lead blank : Option (List Char)} {followed fed : Bool}
  {pieces more : List Resource.Piece}

/-! ## Splitting and joining -/

theorem Text.lines_intercalate {parts : List (List Char)} (h : ∀ part ∈ parts, '\n' ∉ part)
    (hne : parts ≠ []) : lines (['\n'].intercalate parts) = parts := by
  rw [lines, splitWhere_eq_splitOnP, ← List.splitOn_eq_splitOnP]
  exact List.splitOn_intercalate '\n' h hne

theorem Text.intercalate_cons (part : List Char) (parts : List (List Char)) :
    ['\n'].intercalate (part :: parts) = part ++ parts.flatMap ('\n' :: ·) := by
  induction parts generalizing part with
  | nil => simp
  | cons next parts ih => rw [List.intercalate_cons_cons, ih]; simp

namespace Resource

/-! ## Lines as they are laid out -/

def Piece.isResource : Piece → Bool
  | .resource _ => true
  | .text _ => false

/-- The text that a piece stands for, an address for itself. -/
def Piece.shown : Piece → List Char
  | .text s | .resource s => s

/-- A line as a layout shows it. A carriage return stays at the end; in front of an address stand
the blanks of the first line, and on later lines the indentation. If something follows the text, a
blank last line becomes its indentation. -/
def laidLine (indent : List Char) (followed first last : Bool) (line : List Char) : List Char :=
  let body := dropReturn line
  let content :=
    if body.all isBlank then (if last && !first && followed then indent else body)
    else (if first then leadingBlanks body else indent) ++ trim body
  content ++ if endsWithReturn line then ['\r'] else []

def laidLines (indent : List Char) (followed : Bool) (lines : List (List Char)) :
    List (List Char) :=
  lines.mapIdx fun i line => laidLine indent followed (i == 0) (i + 1 == lines.length) line

/-! ## Writing the addresses -/

/-- The text of a piece whose addresses are written as `f` says. -/
def Piece.render (f : List Char → List Char) : Piece → List Char
  | .text s => s
  | .resource url => f url

/-- A line as it is laid out, with its address written as `f` says. -/
def renderLine (f : List Char → List Char) (indent : List Char) (followed first last : Bool)
    (line : List Char) : List Char :=
  let body := dropReturn line
  let content :=
    if body.all isBlank then (if last && !first && followed then indent else body)
    else (if first then leadingBlanks body else indent) ++ f (trim body)
  content ++ if endsWithReturn line then ['\r'] else []

def renderLines (f : List Char → List Char) (indent : List Char) (followed : Bool)
    (lines : List (List Char)) : List (List Char) :=
  lines.mapIdx fun i line => renderLine f indent followed (i == 0) (i + 1 == lines.length) line

variable (f : List Char → List Char)

theorem render_linePieces (lead blank : Option (List Char)) (line : List Char) :
    (linePieces lead blank line).flatMap (Piece.render f) =
      (if (dropReturn line).all isBlank then blank.getD (dropReturn line)
        else lead.getD (leadingBlanks (dropReturn line)) ++ f (trim (dropReturn line))) ++
      if endsWithReturn line then ['\r'] else [] := by
  have hreturn : (if endsWithReturn line then [Piece.text ['\r']] else []).flatMap (Piece.render f) =
      if endsWithReturn line then ['\r'] else [] := by
    split <;> rfl
  dsimp only [linePieces]
  rw [trim_isEmpty]
  split <;> simp [Piece.render, hreturn]

theorem render_firstPieces (indent : List Char) (followed last : Bool) (line : List Char) :
    (linePieces none none line).flatMap (Piece.render f) =
      renderLine f indent followed true last line := by
  rw [render_linePieces, renderLine]
  cases last <;> rfl

theorem render_laterPieces (indent : List Char) (followed : Bool) (later : List (List Char)) :
    (laterPieces indent followed later).flatMap (Piece.render f) =
      (later.mapIdx fun i line =>
        renderLine f indent followed false (i + 1 == later.length) line).flatMap ('\n' :: ·) := by
  fun_induction laterPieces indent followed later with
  | case1 => rfl
  | case2 last =>
    rw [List.flatMap_cons, render_linePieces]
    cases followed <;> simp [Piece.render, renderLine]
  | case3 line rest hrest ih =>
    have hlast : ¬ rest = [] := hrest
    rw [List.flatMap_append, List.flatMap_cons, ih, render_linePieces, List.mapIdx_cons]
    simp [Piece.render, renderLine, hlast, -List.all_eq_true]

theorem render_merge (pieces : List Piece) :
    (Piece.merge pieces).flatMap (Piece.render f) = pieces.flatMap (Piece.render f) := by
  induction pieces with
  | nil => rfl
  | cons piece pieces ih =>
    rw [List.flatMap_cons, ← ih]
    cases piece with
    | resource url => simp [Piece.merge, Piece.render]
    | text s =>
      by_cases hs : s = []
      · simp [hs, Piece.merge, Piece.render]
      · rw [merge_text hs]
        cases Piece.merge pieces with
        | nil => rfl
        | cons first rest => cases first <;> simp [withText, Piece.render]

/-- A layout has the lines of its text, however the addresses are written. -/
theorem render_layout (indent : List Char) (followed : Bool) (s : List Char) :
    (layout indent followed s).flatMap (Piece.render f) =
      ['\n'].intercalate (renderLines f indent followed (lines s)) := by
  obtain ⟨first, later, hlines⟩ := List.exists_cons_of_ne_nil (splitWhere_ne_nil (· == '\n') s)
  rw [layout, lines, hlines]
  dsimp only
  rw [render_merge, List.flatMap_append, render_laterPieces, renderLines, List.mapIdx_cons,
    intercalate_cons, render_firstPieces f indent followed (later.length == 0)]
  simp

/-! ## Addresses for themselves -/

theorem shown_eq_render : Piece.shown = Piece.render id := by
  funext piece
  cases piece <;> rfl

theorem shown_layout (indent : List Char) (followed : Bool) (s : List Char) :
    (layout indent followed s).flatMap Piece.shown =
      ['\n'].intercalate (laidLines indent followed (lines s)) := by
  rw [shown_eq_render]
  exact render_layout id indent followed s

theorem onLine_laidLine (hindent : '\n' ∉ indent) (hline : '\n' ∉ line) (followed first last : Bool) :
    '\n' ∉ laidLine indent followed first last line := by
  have hbody : '\n' ∉ dropReturn line := fun hmem => hline ((prefix_dropReturn line).subset hmem)
  have hblanks : '\n' ∉ leadingBlanks (dropReturn line) :=
    fun hmem => hbody ((List.takeWhile_prefix _).subset hmem)
  have htrim : '\n' ∉ trim (dropReturn line) := fun hmem => hbody ((infix_trim _).subset hmem)
  have hreturn : '\n' ∉ if endsWithReturn line then ['\r'] else [] := by
    split <;> simp
  dsimp only [laidLine]
  rw [List.mem_append, not_or]
  refine ⟨?_, hreturn⟩
  split
  · split <;> assumption
  · rw [List.mem_append, not_or]
    refine ⟨?_, htrim⟩
    split <;> assumption

theorem lines_shown_layout (hindent : '\n' ∉ indent) (followed : Bool) (s : List Char) :
    lines ((layout indent followed s).flatMap Piece.shown) =
      laidLines indent followed (lines s) := by
  rw [shown_layout]
  refine lines_intercalate ?_ ?_
  · intro part hpart
    obtain ⟨i, hi, rfl⟩ := List.mem_mapIdx.1 hpart
    exact onLine_laidLine hindent (onLine_of_mem_lines (List.getElem_mem hi)) _ _ _
  · rw [laidLines, ne_eq, List.mapIdx_eq_nil_iff]
    exact splitWhere_ne_nil _ s

/-! ## Texts and addresses by turns -/

/-- Texts are not empty and stand apart. -/
structure Merged (pieces : List Piece) : Prop where
  filled : ∀ s, .text s ∈ pieces → s ≠ []
  apart : pieces.IsChain fun a b => a.isResource = true ∨ b.isResource = true

theorem Merged.withText (hs : s ≠ []) (h : Merged pieces) : Merged (withText s pieces) := by
  obtain ⟨hfilled, hapart⟩ := h
  cases pieces with
  | nil => exact ⟨by simpa [Resource.withText] using hs, List.isChain_singleton _⟩
  | cons piece rest =>
    cases piece with
    | resource url =>
      refine ⟨?_, List.isChain_cons_cons.2 ⟨.inr rfl, hapart⟩⟩
      intro t ht
      rcases List.mem_cons.1 ht with heq | ht
      · cases heq
        exact hs
      · exact hfilled t ht
    | text u =>
      refine ⟨?_, List.isChain_cons.2 (List.isChain_cons.1 hapart)⟩
      intro t ht
      rcases List.mem_cons.1 ht with heq | ht
      · cases heq
        simp [hs]
      · exact hfilled t (List.mem_cons_of_mem _ ht)

theorem merged_merge (pieces : List Piece) : Merged (Piece.merge pieces) := by
  induction pieces with
  | nil => exact ⟨by simp [Piece.merge], List.isChain_nil⟩
  | cons piece pieces ih =>
    cases piece with
    | resource url =>
      refine ⟨fun t ht => ih.filled t (List.mem_of_ne_of_mem (by simp) ht), ?_⟩
      exact List.isChain_cons.2 ⟨fun _ _ => .inl rfl, ih.apart⟩
    | text s =>
      by_cases hs : s = []
      · rw [hs, Piece.merge, List.isEmpty_nil, if_pos rfl]
        exact ih
      · rw [merge_text hs]
        exact ih.withText hs

/-- In front of every address a line feed stands behind the address before it. For the first one,
`fed` says whether there has been a line feed. -/
def Parted (fed : Bool) : List Piece → Prop
  | [] => True
  | .text s :: rest => Parted (fed || s.contains '\n') rest
  | .resource _ :: rest => fed = true ∧ Parted false rest

theorem parted_withText (s : List Char) (pieces : List Piece) :
    Parted fed (withText s pieces) ↔ Parted (fed || s.contains '\n') pieces := by
  cases pieces with
  | nil => exact Iff.rfl
  | cons piece rest =>
    cases piece with
    | resource url => exact Iff.rfl
    | text t => rw [withText, Parted, Parted, List.contains_append, Bool.or_assoc]

theorem parted_merge : Parted fed (Piece.merge pieces) ↔ Parted fed pieces := by
  induction pieces generalizing fed with
  | nil => exact Iff.rfl
  | cons piece pieces ih =>
    cases piece with
    | resource url => rw [Piece.merge, Parted, Parted, ih]
    | text s =>
      by_cases hs : s = []
      · rw [hs, Piece.merge, List.isEmpty_nil, if_pos rfl, ih, Parted, List.contains_nil,
          Bool.or_false]
      · rw [merge_text hs, parted_withText, ih, Parted]

theorem parted_linePieces (lead blank : Option (List Char)) (line : List Char)
    (h : ∀ fed, Parted fed more) : Parted true (linePieces lead blank line ++ more) := by
  have hreturn (fed : Bool) :
      Parted fed ((if endsWithReturn line then [Piece.text ['\r']] else []) ++ more) := by
    split
    · exact h _
    · exact h _
  dsimp only [linePieces]
  split
  · exact hreturn _
  · exact ⟨rfl, hreturn _⟩

theorem parted_laterPieces (indent : List Char) (followed : Bool) (later : List (List Char)) :
    Parted fed (laterPieces indent followed later) := by
  have hfeed (fed : Bool) (pieces : List Piece) :
      Parted fed (.text ['\n'] :: pieces) ↔ Parted true pieces := by
    simp [Parted]
  fun_induction laterPieces indent followed later generalizing fed with
  | case1 => trivial
  | case2 last =>
    rw [hfeed, ← List.append_nil (linePieces _ _ _)]
    exact parted_linePieces _ _ _ fun _ => trivial
  | case3 line rest _ ih =>
    rw [List.cons_append, hfeed]
    exact parted_linePieces _ _ _ fun _ => ih

theorem parted_layout (indent : List Char) (followed : Bool) (s : List Char) :
    Parted true (layout indent followed s) := by
  unfold layout
  split
  · trivial
  · exact parted_merge.2 (parted_linePieces _ _ _ fun _ => parted_laterPieces _ _ _)

theorem Parted.behind {before after : List Piece} (h : Parted fed (before ++ after)) :
    ∃ fed, Parted fed after := by
  induction before generalizing fed with
  | nil => exact ⟨fed, h⟩
  | cons piece before ih =>
    cases piece with
    | text s => exact ih h
    | resource url => exact ih h.2

/-- Between two addresses stands one text, with a line feed. -/
theorem text_between {u v : List Char} {between : List Piece} (hmerged : Merged pieces)
    (hparted : Parted fed pieces) (htexts : ∀ piece ∈ between, ¬ piece.isResource = true)
    (h : .resource u :: (between ++ [.resource v]) <:+: pieces) :
    ∃ t, between = [.text t] ∧ '\n' ∈ t := by
  have hchain := List.IsChain.infix hmerged.apart h
  obtain ⟨before, after, rfl⟩ := h
  rw [List.append_assoc] at hparted
  obtain ⟨_, -, hrest⟩ := hparted.behind
  match between, htexts with
  | [], _ => cases hrest.1
  | .resource url :: rest, htexts => exact absurd rfl (htexts _ List.mem_cons_self)
  | [.text t], _ => exact ⟨t, rfl, by simpa using hrest.1⟩
  | .text t :: piece :: rest, htexts =>
    -- Two texts would stand side by side.
    have hnext := (List.isChain_cons_cons.1 (List.isChain_cons_cons.1 hchain).2).1
    exact absurd (hnext.resolve_left (by simp [Piece.isResource])) (htexts _ (by simp))

/-! ## Layouts -/

/-- A layout is what the pass over the lines makes. It shows the lines of its text one by one, and
nothing but blanks and addresses. The blanks are merged into one text between two addresses, and
that text holds a line feed. -/
theorem layout_lines (hindent : ∀ c ∈ indent, isBlank c = true ∧ c ≠ '\n') (followed : Bool)
    (s : List Char) :
    let pieces := layout indent followed s
    let shown := pieces.flatMap Piece.shown
    draft indent followed s = pieces ∧
    (shown = ['\n'].intercalate (laidLines indent followed (lines s)) ∧
      lines shown = laidLines indent followed (lines s) ∧
      (lines shown).length = (lines s).length) ∧
    (∀ t, .text t ∈ pieces → t ≠ [] ∧ AllBlank t) ∧
    (∀ t u, ¬ [.text t, .text u] <:+: pieces) ∧
    ∀ u between v, (∀ piece ∈ between, ¬ piece.isResource = true) →
      .resource u :: (between ++ [.resource v]) <:+: pieces →
        ∃ t, between = [.text t] ∧ '\n' ∈ t := by
  have hblank : AllBlank indent := fun c hc => (hindent c hc).1
  have hfeed : '\n' ∉ indent := fun hmem => (hindent _ hmem).2 rfl
  have hlines := lines_shown_layout hfeed followed s
  have hmerged : Merged (layout indent followed s) := by
    unfold layout
    split
    · exact ⟨by simp, List.isChain_nil⟩
    · exact merged_merge _
  refine ⟨draft_eq_layout indent followed s, ⟨shown_layout indent followed s, hlines, ?_⟩, ?_, ?_,
    ?_⟩
  · rw [hlines, laidLines, List.length_mapIdx]
  · exact fun t ht => ⟨hmerged.filled t ht, within_layout hblank s _ ht⟩
  · intro t u h
    have hchain := List.IsChain.infix hmerged.apart h
    have hpair := List.isChain_pair.1 hchain
    simp [Piece.isResource] at hpair
  · exact fun u between v htexts h =>
      text_between hmerged (parted_layout indent followed s) htexts h

theorem layout_lines_mixed :
    (∀ c ∈ ['\t'], isBlank c = true ∧ c ≠ '\n') ∧
      lines ((layout ['\t'] true " a.js\n   \n  b.js \r\n ".toList).flatMap Piece.shown) =
        [" a.js".toList, "   ".toList, "\tb.js\r".toList, ['\t']] := by
  have hindent : ∀ c ∈ ['\t'], isBlank c = true ∧ c ≠ '\n' :=
    List.forall_mem_singleton.2 (by decide)
  obtain ⟨-, ⟨-, hlines, -⟩, -⟩ := layout_lines hindent true " a.js\n   \n  b.js \r\n ".toList
  exact ⟨hindent, hlines.trans (by decide)⟩

/-! ## Conditional comments -/

theorem chars_eq_render (kind : Kind) : Piece.chars kind = Piece.render kind.markup := by
  funext piece
  cases piece with
  | text s => rfl
  | resource url => exact writeFrom_include kind url

theorem expandComment_of_splits {f : Frame} (h : f.Splits s) (kind : Kind) (indent : List Char) :
    expandComment kind indent s =
      f.opening ++ ['\n'].intercalate (renderLines kind.markup indent false (lines f.body)) ++
        f.closing := by
  rw [expandComment, h.ofComment?, ← render_layout, chars_eq_render]

/-- A comment with a frame has no other. It keeps the frame, and the lines of its body are laid out
with the markup of their includes. Any other comment stays as it is. A text that does not end its
comment does not end it then, and is read as one comment again. -/
theorem expandComment_framed (kind : Kind) (hindent : ∀ c ∈ indent, isBlank c = true)
    (s : List Char) :
    let expanded := expandComment kind indent s
    (∀ f : Frame, f.Splits s →
      (∀ g : Frame, g.Splits s → g = f) ∧
      expanded = f.opening ++
        ['\n'].intercalate (renderLines kind.markup indent false (lines f.body)) ++ f.closing) ∧
    ((∀ f : Frame, ¬ f.Splits s) → expanded = s) ∧
    (¬ "-->".toList <:+: s →
      ¬ "-->".toList <:+: expanded ∧
      ∀ (decode : Bool) (rest : List Char),
        Scan.scan decode ("<!--".toList ++ expanded ++ "-->".toList ++ rest) =
          (Scan.scan decode rest).map ([Token.comment (String.ofList expanded)] ++ ·)) := by
  refine ⟨?_, ?_, ?_⟩
  · exact fun f hf => ⟨fun g hg => hg.unique hf, expandComment_of_splits hf kind indent⟩
  · intro hnone
    cases hparts : Conditional.ofComment? s with
    | none => simp [expandComment, hparts]
    | some c =>
      obtain ⟨f, hf, -⟩ := exists_splits hparts
      exact absurd hf (hnone f)
  · intro hs
    have hexpanded := commentable_expandComment kind hindent hs
    refine ⟨hexpanded, fun decode rest => ?_⟩
    have htext : (String.ofList (expandComment kind indent s)).toList = expandComment kind indent s :=
      String.toList_ofList
    have hread := @scan_comment decode false _ (htext.symm ▸ hexpanded) rest
    rwa [Token.chars, htext] at hread

/-- The mark stands in the body too. -/
theorem expandComment_framed_marked :
    (∀ c ∈ ['\t'], isBlank c = true) ∧
      expandComment .scripts ['\t'] "[if IE]> <![endif]\n  a\"b.js \n<![endif] ".toList =
        ("[if IE]> <script src=\"<![endif]\"></script>\n" ++
          "\t<script src=\"a&quot;b.js\"></script> \n<![endif] ").toList := by
  have hindent : ∀ c ∈ ['\t'], isBlank c = true := List.forall_mem_singleton.2 (by decide)
  obtain ⟨hframe, -⟩ := expandComment_framed .scripts hindent
    "[if IE]> <![endif]\n  a\"b.js \n<![endif] ".toList
  have hsplits : Frame.Splits ⟨[], "IE".toList, " <![endif]\n  a\"b.js".toList, " \n".toList,
      [' ']⟩ "[if IE]> <![endif]\n  a\"b.js \n<![endif] ".toList :=
    ⟨by decide, by decide, by decide, by rintro c ⟨⟩; decide, by decide, by decide⟩
  exact ⟨hindent, (hframe _ hsplits).2.trans (by decide)⟩

end Resource

end GridMarkup
