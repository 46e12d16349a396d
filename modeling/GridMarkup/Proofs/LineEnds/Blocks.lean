import GridMarkup.Proofs.LineEnds.Writing
import GridMarkup.Proofs.Sent
import GridMarkup.Proofs.Stages

/-!
# Line endings in resource blocks

A block whose texts have the other line ending is laid out as the same lines with the other line
ending. A carriage return stays at the end of its line, and no address holds one.
-/

namespace GridMarkup

open Text

def Reply.crlf (reply : Reply) : Reply := { reply with tokens := reply.tokens.map Token.crlf }

namespace Resource

def Piece.crlf : Piece → Piece
  | .text s => .text (Text.crlf s)
  | .resource url => .resource (Text.crlf url)

/-- A piece without line feeds. -/
def Piece.OnLine : Piece → Prop
  | .text s | .resource s => '\n' ∉ s

variable {s line indent mark : List Char} {followed : Bool} {pieces more more' : List Piece}
  {lead blank : Option (List Char)} {kind : Kind} {later : List (List Char)}

/-! ## Merging -/

theorem withText_crlf (s : List Char) (pieces : List Piece) :
    withText (crlf s) (pieces.map Piece.crlf) = (withText s pieces).map Piece.crlf := by
  cases pieces with
  | nil => rfl
  | cons piece pieces => cases piece <;> simp [withText, Piece.crlf]

theorem merge_append_congr (h : Piece.merge more = Piece.merge more') (pieces : List Piece) :
    Piece.merge (pieces ++ more) = Piece.merge (pieces ++ more') := by
  induction pieces with
  | nil => exact h
  | cons piece pieces ih => cases piece <;> simp only [List.cons_append, Piece.merge, ih]

theorem merge_crlf (pieces : List Piece) :
    Piece.merge (pieces.map Piece.crlf) = (Piece.merge pieces).map Piece.crlf := by
  induction pieces with
  | nil => rfl
  | cons piece pieces ih =>
    cases piece with
    | resource url => simp only [List.map_cons, Piece.crlf, Piece.merge, ih]
    | text s =>
      by_cases hs : s = []
      · simp [hs, Piece.crlf, Piece.merge, ih]
      · have hcrlf : crlf s ≠ [] := by simpa using hs
        rw [merge_text hs, ← withText_crlf, ← ih, ← merge_text hcrlf]
        rfl

/-! ## Lines -/

theorem map_crlf_onLine (h : ∀ piece ∈ pieces, piece.OnLine) : pieces.map Piece.crlf = pieces := by
  have hsame : ∀ piece ∈ pieces, piece.crlf = id piece := by
    intro piece hpiece
    cases piece with
    | text s => exact congrArg Piece.text (crlf_of_not_mem (h _ hpiece))
    | resource url => exact congrArg Piece.resource (crlf_of_not_mem (h _ hpiece))
  rw [List.map_congr_left hsame, List.map_id]

theorem not_endsWithReturn (h : '\r' ∉ line) : endsWithReturn line = false := by
  rw [endsWithReturn, beq_eq_false_iff_ne]
  exact fun hlast => h (List.mem_of_getLast? hlast)

theorem linePieces_return (lead blank : Option (List Char)) (h : '\r' ∉ line) :
    linePieces lead blank (line ++ ['\r']) = linePieces lead blank line ++ [.text ['\r']] := by
  have hreturn : endsWithReturn (line ++ ['\r']) = true := by simp [endsWithReturn]
  have hdrop : dropReturn (line ++ ['\r']) = line := by simp [dropReturn, hreturn]
  have hsame : dropReturn line = line := by simp [dropReturn, not_endsWithReturn h]
  simp only [linePieces, hdrop, hsame, hreturn, not_endsWithReturn h]
  split <;> simp

theorem onLine_linePieces (hlead : ∀ t ∈ lead, '\n' ∉ t) (hblank : ∀ t ∈ blank, '\n' ∉ t)
    (hline : '\n' ∉ line) :
    ∀ piece ∈ linePieces lead blank line, piece.OnLine := by
  have hgetD {t : List Char} {o : Option (List Char)} (ho : ∀ t ∈ o, '\n' ∉ t) (ht : '\n' ∉ t) :
      '\n' ∉ o.getD t := by
    cases o with
    | none => exact ht
    | some u => exact ho u rfl
  have hbody : '\n' ∉ dropReturn line := fun hmem => hline ((prefix_dropReturn line).subset hmem)
  have hreturn : ∀ piece ∈ (if endsWithReturn line then [Piece.text ['\r']] else []),
      piece.OnLine := by
    split
    · exact List.forall_mem_singleton.2 (show '\n' ∉ ['\r'] by decide)
    · exact List.forall_mem_nil _
  dsimp only [linePieces]
  split
  · have htext : Piece.OnLine (.text (blank.getD (dropReturn line))) := hgetD hblank hbody
    exact List.forall_mem_cons.2 ⟨htext, hreturn⟩
  · have htext : Piece.OnLine (.text (lead.getD (leadingBlanks (dropReturn line)))) :=
      hgetD hlead fun hmem => hbody ((List.takeWhile_prefix _).subset hmem)
    have hurl : Piece.OnLine (.resource (trim (dropReturn line))) :=
      fun hmem => hbody ((infix_trim _).subset hmem)
    exact List.forall_mem_cons.2 ⟨htext, List.forall_mem_cons.2 ⟨hurl, hreturn⟩⟩

/-! ## Layouts -/

/-- Lines without line ends of either kind. -/
def Bare (lines : List (List Char)) : Prop := ∀ line ∈ lines, '\n' ∉ line ∧ '\r' ∉ line

theorem laterPieces_cons (h : later ≠ []) (line : List Char) :
    laterPieces indent followed (line :: later) =
      .text ['\n'] :: linePieces (some indent) none line ++ laterPieces indent followed later := by
  cases later with
  | nil => exact absurd rfl h
  | cons next later => rfl

theorem withReturns_ne_nil (h : later ≠ []) : withReturns later ≠ [] := by
  obtain ⟨line, rest, rfl⟩ := List.exists_cons_of_ne_nil h
  cases rest <;> simp [withReturns]

/-- The carriage return behind a line and the line feed in front of the next are one line ending. -/
theorem laterPieces_return (hindent : '\n' ∉ indent) (followed : Bool) (hlater : Bare later)
    (hne : later ≠ []) :
    Piece.merge (.text ['\r'] :: laterPieces indent followed (withReturns later)) =
      Piece.merge ((laterPieces indent followed later).map Piece.crlf) := by
  have hlead : ∀ t ∈ some indent, '\n' ∉ t := by
    rintro t ⟨⟩
    exact hindent
  have hnone : ∀ t ∈ (none : Option (List Char)), '\n' ∉ t := by rintro t ⟨⟩
  fun_induction laterPieces indent followed later with
  | case1 => exact absurd rfl hne
  | case2 last =>
    have hlast : ∀ piece ∈ linePieces (some indent) (if followed then some indent else none) last,
        piece.OnLine := by
      refine onLine_linePieces hlead ?_ (hlater last List.mem_cons_self).1
      split
      · exact hlead
      · exact hnone
    rw [withReturns, laterPieces, merge_texts, List.map_cons, map_crlf_onLine hlast]
    rfl
  | case3 line rest hrest ih =>
    obtain ⟨⟨hfeed, hreturn⟩, hmore⟩ := List.forall_mem_cons.1 hlater
    have hline := onLine_linePieces hlead hnone hfeed
    rw [withReturns_cons hrest, laterPieces_cons (withReturns_ne_nil hrest),
      linePieces_return _ _ hreturn, List.map_append, List.map_cons, map_crlf_onLine hline]
    simp only [List.cons_append, List.append_assoc, List.nil_append, merge_texts]
    exact merge_append_congr (ih hmore hrest)
      (.text ['\r', '\n'] :: linePieces (some indent) none line)

theorem bare_lines (hs : '\r' ∉ s) : Bare (lines s) := by
  intro line hline
  exact ⟨onLine_of_mem_lines hline, fun hmem => hs ((infix_of_mem_lines hline).subset hmem)⟩

theorem layout_crlf (hindent : '\n' ∉ indent) (followed : Bool) (hs : '\r' ∉ s) :
    layout indent followed (crlf s) = (layout indent followed s).map Piece.crlf := by
  have hnone : ∀ t ∈ (none : Option (List Char)), '\n' ∉ t := by rintro t ⟨⟩
  have hbare := bare_lines hs
  rw [layout, layout, lines_crlf]
  cases hlines : lines s with
  | nil => rfl
  | cons first later =>
    rw [hlines] at hbare
    obtain ⟨⟨hfeed, hreturn⟩, hlater⟩ := List.forall_mem_cons.1 hbare
    have hfirst := map_crlf_onLine (onLine_linePieces hnone hnone hfeed)
    by_cases hne : later = []
    · simp only [hne, withReturns, laterPieces, List.append_nil]
      rw [← merge_crlf, hfirst]
    · rw [withReturns_cons hne]
      simp only [linePieces_return _ _ hreturn, List.append_assoc, List.cons_append,
        List.nil_append]
      rw [← merge_crlf, List.map_append, hfirst]
      exact merge_append_congr (laterPieces_return hindent followed hlater hne) _

/-! ## Includes -/

theorem include_crlf (kind : Kind) (url : String) :
    kind.tokens (crlfString url) = (kind.tokens url).map Token.crlf := by
  have hrel : crlfString "stylesheet" = "stylesheet" := by decide
  cases kind <;> simp [Kind.tokens, Token.crlf, StartTag.crlf, Attribute.crlf, hrel]

theorem tokens_crlf (kind : Kind) (piece : Piece) :
    piece.crlf.tokens kind = (piece.tokens kind).map Token.crlf := by
  cases piece with
  | text s => simp [Piece.crlf, Piece.tokens, Token.crlf]
  | resource url => rw [Piece.crlf, Piece.tokens, ← crlfString_ofList, include_crlf, Piece.tokens]

theorem pieceChars_crlf (kind : Kind) (piece : Piece) :
    piece.crlf.chars kind = crlf (piece.chars kind) := by
  cases piece with
  | text s => rfl
  | resource url =>
    rw [Piece.crlf, Piece.chars, ← crlfString_ofList, include_crlf,
      writeFrom_crlf (sendable_include kind _).writable, Piece.chars]

/-! ## Conditional comments -/

def Conditional.crlf (c : Conditional) : Conditional :=
  ⟨Text.crlf c.opening, Text.crlf c.body, Text.crlf c.closing⟩

theorem stripEnd?_crlf (hmark : '\n' ∉ mark) (s : List Char) :
    stripEnd? mark (crlf s) = (stripEnd? mark s).map crlf := by
  have hreverse : '\n' ∉ mark.reverse := by simpa using hmark
  rw [stripEnd?, reverse_crlf, strip?_endLines hreverse hreverse, Option.map_map, stripEnd?,
    Option.map_map]
  exact congrArg (Option.map · _) (funext reverse_endLines)

theorem conditionalOpening?_crlf (s : List Char) :
    conditionalOpening? (crlf s) =
      (conditionalOpening? s).map fun (opening, rest) => (crlf opening, crlf rest) := by
  have hstart : crlf "[if ".toList = "[if ".toList := rfl
  have hstop : crlf "]>".toList = "]>".toList := rfl
  rw [conditionalOpening?, conditionalOpening?, trimStart_crlf, strip?_crlf (by decide) (by decide)]
  cases strip? "[if ".toList (trimStart s) with
  | none => rfl
  | some rest =>
    simp only [Option.map_some]
    rw [dropWhile_crlf (by decide), strip?_crlf (by decide) (by decide), leadingBlanks_crlf,
      takeWhile_crlf (by decide)]
    cases strip? "]>".toList (rest.dropWhile (· != ']')) with
    | none => rfl
    | some after => simp only [Option.map_some, crlf_append, hstart, hstop]

theorem ofComment?_crlf (s : List Char) :
    Conditional.ofComment? (crlf s) = (Conditional.ofComment? s).map Conditional.crlf := by
  have hend : crlf "<![endif]".toList = "<![endif]".toList := rfl
  rw [Conditional.ofComment?, Conditional.ofComment?, conditionalOpening?_crlf]
  cases conditionalOpening? s with
  | none => rfl
  | some parts =>
    obtain ⟨opening, rest⟩ := parts
    simp only [Option.map_some]
    rw [trimEnd_crlf, stripEnd?_crlf (by decide)]
    cases stripEnd? "<![endif]".toList (trimEnd rest) with
    | none => rfl
    | some inner =>
      simp only [Option.map_some, trimEnd_crlf, trailing_crlf, Conditional.crlf, crlf_append, hend]

theorem expandComment_crlf (kind : Kind) (hindent : '\n' ∉ indent) (hs : '\r' ∉ s) :
    expandComment kind indent (crlf s) = crlf (expandComment kind indent s) := by
  have hchars (pieces : List Piece) : (pieces.map Piece.crlf).flatMap (Piece.chars kind) =
      crlf (pieces.flatMap (Piece.chars kind)) := by
    induction pieces with
    | nil => rfl
    | cons piece pieces ih =>
      rw [List.map_cons, List.flatMap_cons, List.flatMap_cons, pieceChars_crlf, ih, crlf_append]
  rw [expandComment, expandComment, ofComment?_crlf]
  cases hparts : Conditional.ofComment? s with
  | none => rfl
  | some c =>
    obtain ⟨-, hbody, -⟩ := parts_of_ofComment? hparts
    have hreturn : '\r' ∉ c.body := fun hmem => hs (hbody.subset hmem)
    simp only [Option.map_some, Conditional.crlf, layout_crlf hindent false hreturn, hchars,
      crlf_append]

/-! ## Children -/

def Child.crlf : Child → Child
  | .text s => .text (crlfString s)
  | .comment s => .comment (crlfString s)

def Child.NoReturn : Child → Prop
  | .text s | .comment s => '\r' ∉ s.toList

theorem childTokens_crlf (kind : Kind) (hindent : '\n' ∉ indent) (followed : Bool) {child : Child}
    (h : child.NoReturn) :
    childTokens kind indent followed child.crlf =
      (childTokens kind indent followed child).map Token.crlf := by
  cases child with
  | text s =>
    change (layout indent followed (crlfString s).toList).flatMap (Piece.tokens kind) = _
    rw [toList_crlfString, layout_crlf hindent followed h, childTokens, List.flatMap_map,
      List.map_flatMap]
    exact congrArg (List.flatMap · _) (funext (tokens_crlf kind))
  | comment s =>
    change [Token.comment (String.ofList (expandComment kind indent (crlfString s).toList))] = _
    rw [toList_crlfString, expandComment_crlf kind hindent h, childTokens]
    simp [Token.crlf]

theorem childrenTokens_crlf (kind : Kind) (hindent : '\n' ∉ indent) {children : List Child}
    (h : ∀ child ∈ children, child.NoReturn) :
    childrenTokens kind indent (children.map Child.crlf) =
      (childrenTokens kind indent children).map Token.crlf := by
  induction children with
  | nil => rfl
  | cons child rest ih =>
    obtain ⟨hchild, hrest⟩ := List.forall_mem_cons.1 h
    rw [List.map_cons, childrenTokens, childrenTokens, childTokens_crlf kind hindent _ hchild,
      ih hrest, List.map_append, List.isEmpty_map]

theorem mapFirstText_crlf {f : String → String} (hf : ∀ s, f (crlfString s) = crlfString (f s))
    (children : List Child) :
    Child.mapFirstText f (children.map Child.crlf) =
      (Child.mapFirstText f children).map Child.crlf := by
  fun_induction Child.mapFirstText f children with
  | case1 => rfl
  | case2 s rest => simp [Child.crlf, Child.mapFirstText, hf]
  | case3 s rest ih => simp [Child.crlf, Child.mapFirstText, ih]

theorem trimChildren_crlf (children : List Child) :
    trimChildren (children.map Child.crlf) = (trimChildren children).map Child.crlf := by
  rw [trimChildren, trimChildren, Child.mapLastText, Child.mapLastText, mapFirstText_crlf,
    ← List.map_reverse, mapFirstText_crlf, List.map_reverse]
  · intro s
    rw [toList_crlfString, trimEnd_crlf, crlfString_ofList]
  · intro s
    rw [toList_crlfString, trimStart_crlf, crlfString_ofList]

theorem noReturn_mapFirstText {f : String → String} (hf : ∀ s, (f s).toList ⊆ s.toList)
    {children : List Child} (h : ∀ child ∈ children, child.NoReturn) :
    ∀ child ∈ Child.mapFirstText f children, child.NoReturn := by
  fun_induction Child.mapFirstText f children with
  | case1 => exact h
  | case2 s rest =>
    obtain ⟨hs, hrest⟩ := List.forall_mem_cons.1 h
    have hfirst : (Child.text (f s)).NoReturn := fun hmem => hs (hf s hmem)
    exact List.forall_mem_cons.2 ⟨hfirst, hrest⟩
  | case3 s rest ih =>
    obtain ⟨hs, hrest⟩ := List.forall_mem_cons.1 h
    exact List.forall_mem_cons.2 ⟨hs, ih hrest⟩

theorem noReturn_trimChildren {children : List Child} (h : ∀ child ∈ children, child.NoReturn) :
    ∀ child ∈ trimChildren children, child.NoReturn := by
  have hstart (s : String) : (String.ofList (trimStart s.toList)).toList ⊆ s.toList := by
    rw [String.toList_ofList]
    exact (List.dropWhile_suffix _).subset
  have hend (s : String) : (String.ofList (trimEnd s.toList)).toList ⊆ s.toList := by
    rw [String.toList_ofList]
    exact (prefix_trimEnd _).subset
  have hreverse {children : List Child} (h : ∀ child ∈ children, child.NoReturn) :
      ∀ child ∈ children.reverse, child.NoReturn := by
    simpa using h
  exact hreverse (noReturn_mapFirstText hend (hreverse (noReturn_mapFirstText hstart h)))

/-! ## Blocks -/

def Block.crlf (b : Block) : Block := { b with children := b.children.map Child.crlf }

/-- A block of a source without carriage returns. -/
structure Block.NoReturn (b : Block) : Prop where
  indent : '\n' ∉ b.indent.toList
  children : ∀ child ∈ b.children, child.NoReturn

theorem Block.tokens_crlf {b : Block} (h : b.NoReturn) :
    b.crlf.tokens = b.tokens.map Token.crlf := by
  change childrenTokens b.kind _ (trimChildren (b.children.map Child.crlf)) = _
  rw [trimChildren_crlf]
  exact childrenTokens_crlf b.kind h.indent (noReturn_trimChildren h.children)

/-- The answer of a block, with the other line ending. -/
def crlfAnswer (answer : Option Block × Reply) : Option Block × Reply :=
  (answer.1.map Block.crlf, answer.2.crlf)

theorem Block.add_crlf (b : Block) (child : Child) :
    b.crlf.add child.crlf = (b.add child).crlf := by
  unfold Block.add
  have hnested : b.crlf.nested = b.nested := rfl
  rw [hnested]
  split
  · simp [Block.crlf]
  · rfl

theorem Block.close_crlf (b : Block) (name : String) :
    b.crlf.close name = (b.close name).map Block.crlf := by
  have hnested : b.crlf.nested = b.nested := rfl
  have hkind : b.crlf.kind = b.kind := rfl
  rw [Block.close, Block.close, hnested, hkind]
  split
  · rfl
  · split <;> rfl

theorem Block.step_crlf {b : Block} (h : b.NoReturn) (t : Token) :
    b.crlf.step t.crlf = crlfAnswer (b.step t) := by
  cases t with
  | startTag tag =>
    have hopens : Element.opensElement tag.crlf = Element.opensElement tag := rfl
    change (some (if Element.opensElement tag.crlf then _ else _), _) = crlfAnswer (some _, _)
    rw [hopens]
    split <;> rfl
  | endTag name =>
    change b.crlf.step (.endTag name) = _
    rw [Block.step, Block.step, Block.close_crlf]
    cases b.close name with
    | some next => rfl
    | none =>
      simp only [Option.map_none, Block.tokens_crlf h, crlfAnswer, Reply.crlf]
      simp [Block.crlf]
  | text s => exact congrArg (fun b => (some b, ({} : Reply))) (b.add_crlf (.text s))
  | comment s => exact congrArg (fun b => (some b, ({} : Reply))) (b.add_crlf (.comment s))
  | declaration s => rfl

theorem Block.noReturn_add {b : Block} (h : b.NoReturn) {child : Child} (hchild : child.NoReturn) :
    (b.add child).NoReturn := by
  unfold Block.add
  split
  · exact ⟨h.indent, List.forall_mem_append.2 ⟨h.children, List.forall_mem_singleton.2 hchild⟩⟩
  · exact h

theorem Block.noReturn_close {b next : Block} {name : String} (h : b.NoReturn)
    (hclose : b.close name = some next) : next.NoReturn := by
  unfold Block.close at hclose
  split at hclose
  · cases hclose
    exact ⟨h.indent, h.children⟩
  · split at hclose
    · cases hclose
    · cases hclose
      exact h

theorem Block.noReturn_step {b next : Block} {t : Token} (h : b.NoReturn) (ht : t.NoReturn)
    (hnext : (b.step t).1 = some next) : next.NoReturn := by
  cases t with
  | startTag tag =>
    cases hnext
    split <;> exact ⟨h.indent, h.children⟩
  | endTag name =>
    rw [Block.step] at hnext
    split at hnext
    · next hclose =>
      cases hnext
      exact Block.noReturn_close h hclose
    · cases hnext
  | text s =>
    cases hnext
    exact Block.noReturn_add h ht
  | comment s =>
    cases hnext
    exact Block.noReturn_add h ht
  | declaration s =>
    cases hnext
    exact h

/-- What is open, if anything, is a block of a source without carriage returns. -/
def NoReturn (block : Option Block) : Prop := ∀ b ∈ block, b.NoReturn

theorem outside_crlf (indent : String) (t : Token) :
    outside indent t.crlf = crlfAnswer (outside indent t) := by
  cases t with
  | startTag tag =>
    change outside indent (.startTag tag.crlf) = _
    have hname : tag.crlf.name = tag.name := rfl
    have hcloses : tag.crlf.selfClosing = tag.selfClosing := rfl
    rw [outside, outside, hname, hcloses]
    cases Kind.ofTagName? tag.name with
    | none => rfl
    | some kind => cases tag.selfClosing <;> rfl
  | _ => rfl

theorem step_crlf {block : Option Block} (h : NoReturn block) (indent : String) (t : Token) :
    step indent (block.map Block.crlf) t.crlf = crlfAnswer (step indent block t) := by
  cases block with
  | none => exact outside_crlf indent t
  | some b => exact Block.step_crlf (h b rfl) t

theorem noReturn_step {block : Option Block} (h : NoReturn block) {indent : String}
    (hindent : '\n' ∉ indent.toList) {t : Token} (ht : t.NoReturn) :
    NoReturn (step indent block t).1 := by
  rintro next hnext
  cases block with
  | some b => exact Block.noReturn_step (h b rfl) ht hnext
  | none =>
    change next ∈ (outside indent t).1 at hnext
    unfold outside at hnext
    split at hnext
    · split at hnext
      · simp only [Option.mem_def, Option.ite_none_left_eq_some, Option.some.injEq] at hnext
        obtain ⟨-, rfl⟩ := hnext
        exact ⟨hindent, List.forall_mem_nil _⟩
      · cases hnext
    · cases hnext

/-- A token with the other line ending, under the same indentation. -/
def crlfIndented (x : String × Token) : String × Token := (x.1, x.2.crlf)

theorem expandAll_crlf {block : Option Block} (h : NoReturn block) {xs : List (String × Token)}
    (hxs : ∀ x ∈ xs, '\n' ∉ x.1.toList ∧ x.2.NoReturn) :
    expandAll (block.map Block.crlf) (xs.map crlfIndented) =
      ((expandAll block xs).1.map Block.crlf, (expandAll block xs).2.map Token.crlf) := by
  induction xs generalizing block with
  | nil => rfl
  | cons x xs ih =>
    obtain ⟨⟨hindent, ht⟩, hrest⟩ := List.forall_mem_cons.1 hxs
    rw [List.map_cons, crlfIndented, expandAll, expandAll, step_crlf h]
    simp only [crlfAnswer, Reply.crlf, ih (noReturn_step h hindent ht) hrest, List.map_append]

end Resource

end GridMarkup
