import GridMarkup.Compile
import GridMarkup.Proofs.Conditional
import GridMarkup.Proofs.Document
import GridMarkup.Proofs.Grid

/-!
# What stages send

Stages that get tokens which can be written, with their raw text framed, send such tokens too. A raw
text element goes through a stage as a whole or disappears in a block.
-/

namespace GridMarkup

open Text Element
open Scan (textTokens isTagNameChar isAttributeNameChar)

/-- Tokens that can be written, with their raw text framed. -/
structure Sendable (unclosed : Bool) (tokens : List Token) : Prop where
  writable : ∀ t ∈ tokens, t.Writable
  rawFramed : RawFramed unclosed tokens

variable {unclosed : Bool} {t : Token} {tag : StartTag} {name indent : String} {text : List Char}
  {tokens more sent : List Token} {s last : Stage} {b : Resource.Block} {g : Grid}

/-! ## Putting tokens together -/

theorem RawFramed.append (h : RawFramed false tokens) (hmore : RawFramed unclosed more) :
    RawFramed unclosed (tokens ++ more) := by
  induction h with
  | nil => exact hmore
  | cons hraw _ ih => exact .cons hraw ih
  | @element tag text name tokens hopens hname htext _ ih =>
    rw [List.cons_append, List.append_assoc]
    exact .element hopens hname htext ih
  | last hunclosed => cases hunclosed

namespace Sendable

theorem nil : Sendable unclosed [] := ⟨List.forall_mem_nil _, .nil⟩

theorem cons (ht : t.Writable) (hraw : t.rawAfter false = false) (h : Sendable unclosed tokens) :
    Sendable unclosed (t :: tokens) :=
  ⟨List.forall_mem_cons.2 ⟨ht, h.writable⟩, .cons hraw h.rawFramed⟩

theorem append (h : Sendable false tokens) (hmore : Sendable unclosed more) :
    Sendable unclosed (tokens ++ more) :=
  ⟨List.forall_mem_append.2 ⟨h.writable, hmore.writable⟩, h.rawFramed.append hmore.rawFramed⟩

theorem writable_rawText (ht : (Token.startTag tag).Writable) (hw : ∀ t ∈ tokens, t.Writable) :
    ∀ t ∈ Token.startTag tag :: (textTokens false text ++ tokens), t.Writable := by
  refine List.forall_mem_cons.2 ⟨ht, List.forall_mem_append.2 ⟨?_, hw⟩⟩
  intro t ht
  rcases textTokens_false_cases text with ⟨-, htokens⟩ | ⟨s, -, -, htokens⟩
  · rw [htokens] at ht
    cases ht
  · rw [htokens] at ht
    cases List.mem_singleton.1 ht
    trivial

theorem element (ht : (Token.startTag tag).Writable) (hopens : opensRawText tag = true)
    (hname : lower name.toList = lower tag.name.toList)
    (htext : ¬ HoldsEndTag tag.name.toList text) (h : Sendable unclosed (.endTag name :: tokens)) :
    Sendable unclosed (.startTag tag :: (textTokens false text ++ .endTag name :: tokens)) :=
  ⟨writable_rawText ht h.writable, .element hopens hname htext h.rawFramed⟩

end Sendable

/-! ## Names -/

theorem isTagName_element : IsTagName Grid.element :=
  isTagName_of_cons rfl (by decide) (by decide)

theorem isTagName_script : IsTagName "script" := isTagName_of_cons rfl (by decide) (by decide)

theorem isTagName_link : IsTagName "link" := isTagName_of_cons rfl (by decide) (by decide)

theorem nameReadable_of_name {a : Attribute} (hname : a.name ∈ ["class", "src", "href", "rel"]) :
    a.NameReadable := by
  have hnames : ∀ name ∈ ["class", "src", "href", "rel"],
      name ≠ "" ∧ name.toList.all isAttributeNameChar = true := by decide
  obtain ⟨hne, hchars⟩ := hnames _ hname
  exact Attribute.nameReadable_of_chars hne (List.all_eq_true.1 hchars)

/-! ## Resource blocks -/

namespace Resource

theorem sendable_include (kind : Kind) (url : String) : Sendable false (kind.tokens url) := by
  cases kind with
  | scripts =>
    have hend : Sendable false [.endTag "script"] := .cons isTagName_script rfl .nil
    have htag : (Token.startTag ⟨"script", [⟨"src", some url⟩], false⟩).Writable :=
      ⟨isTagName_script, List.forall_mem_singleton.2 (nameReadable_of_name (by simp))⟩
    have hraw : isRawText "script" = true := by decide
    have hempty : ¬ HoldsEndTag "script".toList [] := by
      rintro ⟨n, c, -, -, hinside⟩
      simp at hinside
    exact .element htag (by rw [opensRawText, hraw]; rfl) rfl hempty hend
  | stylesheets =>
    have hraw : isRawText "link" = false := by decide
    refine .cons ⟨isTagName_link, ?_⟩ (by rw [Token.rawAfter, opensRawText, hraw]; rfl) .nil
    intro a ha
    rcases List.mem_cons.1 ha with rfl | ha
    · exact nameReadable_of_name (by simp)
    · cases List.mem_singleton.1 ha
      exact nameReadable_of_name (by simp)

theorem sendable_pieces (kind : Kind) (pieces : List Piece) :
    Sendable false (pieces.flatMap (Piece.tokens kind)) := by
  induction pieces with
  | nil => exact .nil
  | cons piece pieces ih =>
    refine .append ?_ ih
    cases piece with
    | text s => exact .cons trivial rfl .nil
    | resource url => exact sendable_include kind _

theorem comment_mem_mapFirstText {f : String → String} {content : String}
    {children : List Child} :
    Child.comment content ∈ Child.mapFirstText f children ↔ .comment content ∈ children := by
  fun_induction Child.mapFirstText f children with
  | case1 => exact Iff.rfl
  | case2 s rest => simp
  | case3 s rest ih => simp [ih]

theorem comment_mem_trimChildren {content : String} {children : List Child} :
    Child.comment content ∈ trimChildren children ↔ .comment content ∈ children := by
  rw [trimChildren, Child.mapLastText, List.mem_reverse, comment_mem_mapFirstText,
    List.mem_reverse, comment_mem_mapFirstText]

/-- The comments of the block do not hold their own end, and it stands behind blanks. -/
structure Block.Sound (b : Block) : Prop where
  indent : AllBlank b.indent.toList
  comments : ∀ content, .comment content ∈ b.children → Commentable content.toList

theorem sendable_children {kind : Kind} {indent : List Char} {children : List Child}
    (hindent : AllBlank indent)
    (h : ∀ content, .comment content ∈ children → Commentable content.toList) :
    Sendable false (childrenTokens kind indent children) := by
  induction children with
  | nil => exact .nil
  | cons child rest ih =>
    refine .append ?_ (ih fun content hmem => h content (List.mem_cons_of_mem _ hmem))
    cases child with
    | text s => exact sendable_pieces kind _
    | comment s =>
      refine .cons ?_ rfl .nil
      have hcomment := commentable_expandComment kind hindent (h s List.mem_cons_self)
      have hchars := String.toList_ofList (l := expandComment kind indent s.toList)
      rw [← hchars] at hcomment
      exact hcomment

theorem Block.Sound.sendable (h : b.Sound) : Sendable false b.tokens :=
  sendable_children h.indent fun content hmem => h.comments content (comment_mem_trimChildren.1 hmem)

theorem Block.Sound.add {child : Child} (h : b.Sound)
    (hchild : ∀ content, child = .comment content → Commentable content.toList) :
    (b.add child).Sound := by
  unfold Block.add
  split
  · refine ⟨h.indent, ?_⟩
    intro content hmem
    rcases List.mem_append.1 hmem with hmem | hmem
    · exact h.comments content hmem
    · exact hchild content (List.mem_singleton.1 hmem).symm
  · exact h

def Sound : Option Block → Prop
  | none => True
  | some b => b.Sound

theorem sound_step {block : Option Block} (hblock : Sound block) (hindent : AllBlank indent.toList)
    (ht : t.Writable) (hraw : t.rawAfter false = false ∨ block ≠ none) :
    Sound (step indent block t).1 ∧ Sendable false (step indent block t).2.tokens := by
  cases block with
  | none =>
    have hraw : t.rawAfter false = false := hraw.resolve_right (absurd rfl)
    change Sound (outside indent t).1 ∧ Sendable false (outside indent t).2.tokens
    unfold outside
    split
    · split
      · split
        · exact ⟨trivial, .nil⟩
        · exact ⟨⟨hindent, by rintro content ⟨⟩⟩, .nil⟩
      · exact ⟨trivial, .cons ht hraw .nil⟩
    · exact ⟨trivial, .cons ht hraw .nil⟩
  | some b =>
    have hb : b.Sound := hblock
    change Sound (b.step t).1 ∧ Sendable false (b.step t).2.tokens
    cases t with
    | startTag tag =>
      refine ⟨?_, .nil⟩
      change (if opensElement tag then { b with nested := b.nested.push tag.name } else b).Sound
      split
      · exact ⟨hb.indent, hb.comments⟩
      · exact hb
    | endTag name =>
      rw [Block.step, Block.close]
      split
      · next b' hclose =>
        refine ⟨?_, .nil⟩
        split at hclose
        · cases hclose
          exact ⟨hb.indent, hb.comments⟩
        · split at hclose
          · cases hclose
          · cases hclose
            exact hb
      · exact ⟨trivial, hb.sendable⟩
    | text s => exact ⟨hb.add (by rintro content ⟨⟩), .nil⟩
    | comment s =>
      refine ⟨hb.add ?_, .nil⟩
      rintro content ⟨⟩
      exact ht
    | declaration s => exact ⟨hb, .nil⟩

end Resource

theorem Resource.outside_rawText (indent : String) (h : opensRawText tag = true) :
    outside indent (.startTag tag) = (none, { tokens := [.startTag tag] }) := by
  have hkind : Kind.ofTagName? tag.name = none := by
    rw [opensRawText, Bool.and_eq_true] at h
    unfold Kind.ofTagName?
    split
    · next hjs =>
      rw [hjs] at h
      exact absurd h.2 (by decide)
    · split
      · next hcss =>
        rw [hcss] at h
        exact absurd h.2 (by decide)
      · rfl
  rw [outside, hkind]

/-! ## Grid tags -/

theorem mem_setClass {value : String} {attributes : List Attribute} {a : Attribute}
    (h : a ∈ StartTag.setClass value attributes) : a ∈ attributes ∨ a.name = "class" := by
  induction attributes with
  | nil =>
    cases List.mem_singleton.1 h
    exact .inr rfl
  | cons b rest ih =>
    rw [StartTag.setClass] at h
    split at h
    · rcases List.mem_cons.1 h with rfl | h
      · exact .inr rfl
      · exact .inl (List.mem_cons_of_mem _ h)
    · rcases List.mem_cons.1 h with rfl | h
      · exact .inl List.mem_cons_self
      · exact (ih h).imp_left (List.mem_cons_of_mem _)

/-- Every attribute of the first tag is one of the second, or holds classes. -/
def StartTag.Adds (new tag : StartTag) : Prop :=
  ∀ a ∈ new.attributes, a ∈ tag.attributes ∨ a.name = "class"

theorem StartTag.adds_withClasses (tag : StartTag) (classes : List String) :
    (tag.withClasses classes).Adds tag := fun _ => mem_setClass

theorem StartTag.adds_appendClasses (tag : StartTag) (classes : List String) :
    (tag.appendClasses classes).Adds tag := by
  unfold StartTag.appendClasses
  split
  · exact fun _ ha => .inl ha
  · exact tag.adds_withClasses _

theorem StartTag.adds_prependClasses (tag : StartTag) (classes : List String) :
    (tag.prependClasses classes).Adds tag := by
  unfold StartTag.prependClasses
  split
  · exact fun _ ha => .inl ha
  · exact tag.adds_withClasses _

namespace Grid

theorem adds_expandVisibility (tag : StartTag) : (expandVisibility tag).Adds tag := by
  intro a ha
  exact (StartTag.adds_appendClasses _ _ a ha).imp_left fun h => (ClassName.mem_convert.1 h).1

theorem adds_expandTag (tag : StartTag) : (expandTag tag).Adds tag := by
  intro a ha
  unfold expandTag at ha
  split at ha
  · exact (StartTag.adds_prependClasses _ _ a ha).imp_left fun h => (ClassName.mem_convert.1 h).1
  · split at ha
    · exact adds_expandVisibility tag a ha
    · rcases adds_expandVisibility _ a ha with ha | hclass
      · exact StartTag.adds_appendClasses ⟨element, tag.attributes, false⟩ _ a ha
      · exact .inr hclass

theorem isTagName_written (h : IsTagName name) : IsTagName (written name) := by
  unfold written
  split
  · exact isTagName_element
  · exact h

theorem writable_expandTag (h : (Token.startTag tag).Writable) :
    (Token.startTag (expandTag tag)).Writable := by
  constructor
  · rw [expandTag_name]
    exact isTagName_written h.1
  · intro a ha
    rcases adds_expandTag tag a ha with ha | hclass
    · exact h.2 a ha
    · exact nameReadable_of_name (by simp [hclass])

theorem opensRawText_expandTag (tag : StartTag) :
    opensRawText (expandTag tag) = opensRawText tag := by
  have helement : isRawText element = false := by decide
  rw [opensRawText, opensRawText, expandTag_name, expandTag_selfClosing, written]
  cases hgrid : isGrid tag.name with
  | true => rw [if_pos rfl, helement, isRawText_of_isGrid hgrid, Bool.and_false, Bool.and_false]
  | false => simp

theorem sendable_end (h : IsTagName name) (hmore : Sendable unclosed more) :
    Sendable unclosed (.endTag name :: more) := .cons h rfl hmore

theorem sendable_impliedColumn (hmore : Sendable unclosed more) :
    Sendable unclosed (impliedColumn :: more) := by
  refine .cons ⟨isTagName_element, ?_⟩ (by decide) hmore
  exact List.forall_mem_singleton.2 (nameReadable_of_name (by simp))

theorem sendable_closing (tag : StartTag) : Sendable false (closing tag) := by
  have hend : Sendable false [.endTag element] := sendable_end isTagName_element .nil
  unfold closing
  split
  · split
    · exact sendable_impliedColumn (sendable_end isTagName_element hend)
    · exact hend
  · exact .nil

theorem sendable_expandStart (ht : (Token.startTag tag).Writable)
    (hraw : opensRawText tag = false) : Sendable false (expandStart tag) :=
  .cons (writable_expandTag ht) ((opensRawText_expandTag tag).trans hraw) (sendable_closing tag)

/-! ## The grid -/

theorem settle_sendable (h : Sendable false g.held) :
    Sendable false g.settle.1.held ∧ Sendable false g.settle.2.tokens := by
  unfold Grid.settle
  split
  · exact ⟨.nil, sendable_impliedColumn h⟩
  · exact ⟨h, .nil⟩

theorem sendable_closeColumn (name : String) (rows : List Row) :
    Sendable false (closeColumn name rows) := by
  unfold closeColumn
  split
  · exact sendable_end isTagName_element .nil
  · exact .nil

theorem step_sendable (h : Sendable false g.held) (ht : t.Writable)
    (hraw : t.rawAfter false = false) :
    Sendable false (g.step t).1.held ∧ Sendable false (g.step t).2.tokens := by
  obtain ⟨hheld, hsettle⟩ := settle_sendable h
  have hself : Sendable false [t] := .cons ht hraw .nil
  cases t with
  | startTag tag =>
    have hstart := sendable_expandStart ht hraw
    rw [Grid.step]
    split
    · exact ⟨.nil, h.append hstart⟩
    · exact ⟨hheld, hsettle.append hstart⟩
  | endTag name =>
    exact ⟨hheld, (hsettle.append (sendable_closeColumn _ _)).append
      (sendable_end (isTagName_written ht) .nil)⟩
  | text s =>
    rw [Grid.step]
    split
    · exact ⟨h.append hself, .nil⟩
    · exact ⟨hheld, hsettle.append hself⟩
  | comment s =>
    rw [Grid.step]
    split
    · exact ⟨h.append hself, .nil⟩
    · exact ⟨h, hself⟩
  | declaration s => exact ⟨hheld, hsettle.append hself⟩

/-- A raw text element is none of the grid, and is content of its row. -/
theorem step_rawText (g : Grid) (h : opensRawText tag = true) :
    (g.step (.startTag tag)).1 = g.settle.1 ∧
      (g.step (.startTag tag)).2.tokens = g.settle.2.tokens ++ [.startTag (expandTag tag)] := by
  rw [opensRawText, Bool.and_eq_true] at h
  have hgrid := isGrid_of_isRawText h.2
  have hcolumn : isColumn tag.name = false := by
    rw [isGrid, Bool.or_eq_false_iff] at hgrid
    exact hgrid.1
  have hstart : expandStart tag = [.startTag (expandTag tag)] := by
    rw [expandStart, closing, if_neg (by rw [hgrid]; simp)]
  have hrows : rowsAfter tag g.settle.1.rows = g.settle.1.rows :=
    if_neg fun hrow => ne_rowName_of_isRawText h.2 hrow.1
  rw [Grid.step, if_neg (by rw [hcolumn]; decide), ← hstart]
  refine ⟨?_, rfl⟩
  change { g.settle.1 with rows := rowsAfter tag g.settle.1.rows } = g.settle.1
  rw [hrows]

end Grid

/-! ## All stages -/

/-- What a stage keeps can be sent in time. -/
def Stage.Sound : Stage → Prop
  | .resources block => Resource.Sound block
  | .grid g => Sendable false g.held
  | .idle => True

/-- The stage lets texts and most end tags through: no block is open, and no row waits. -/
def Stage.Passes : Stage → Prop
  | .resources block => block = none
  | .grid g => g.rows.head? ≠ some .waiting
  | .idle => True

theorem Stage.Sound.step (hs : s.Sound) (hindent : AllBlank indent.toList) (ht : t.Writable)
    (hraw : t.rawAfter false = false) :
    (s.step indent t).1.Sound ∧ Sendable false (s.step indent t).2.tokens := by
  cases s with
  | resources block => exact Resource.sound_step hs hindent ht (.inl hraw)
  | grid g => exact Grid.step_sendable hs ht hraw
  | idle => exact ⟨trivial, .cons ht hraw .nil⟩

theorem Stage.Passes.stepText (hs : s.Passes) (indent content : String) :
    (s.step indent (.text content)).1 = s ∧
      (s.step indent (.text content)).2.tokens = [.text content] := by
  cases s with
  | resources block =>
    cases hs
    exact ⟨rfl, rfl⟩
  | grid g =>
    have hwaiting : g.isWaiting = false := by
      rw [Grid.isWaiting, beq_eq_false_iff_ne]
      exact hs
    have hstep : g.step (.text content) = g.content (.text content) := by
      rw [Grid.step, hwaiting, if_neg (by simp)]
    rw [Stage.step, hstep, Grid.content, Grid.settle_of_not_waiting hs]
    exact ⟨rfl, rfl⟩
  | idle => exact ⟨rfl, rfl⟩

theorem Stage.Passes.stepEndTag (hs : s.Passes) (hname : isRawText name = true) (indent : String) :
    (s.step indent (.endTag name)).2.tokens = [.endTag name] := by
  cases s with
  | resources block =>
    cases hs
    rfl
  | grid g =>
    have hclose : Grid.closeColumn name g.rows = [] :=
      if_neg fun hrow => Grid.ne_rowName_of_isRawText hname hrow.1
    change (g.content (.endTag name)).2.tokens = _
    rw [Grid.content, Grid.settle_of_not_waiting hs]
    change [] ++ Grid.closeColumn name g.rows ++ [Grid.expandEnd name] = _
    rw [hclose, Grid.expandEnd, Grid.isGrid_of_isRawText hname]
    rfl
  | idle => rfl

/-- The start tag of a raw text element is sent behind others, and the stage lets its text through,
or it stands in a block and is dropped. -/
theorem Stage.Sound.stepRawText (hs : s.Sound) (ht : (Token.startTag tag).Writable)
    (hopens : opensRawText tag = true) (hindent : AllBlank indent.toList) :
    (s.step indent (.startTag tag)).1.Sound ∧
      ((∃ b, (s.step indent (.startTag tag)).1 = .resources (some b)) ∧
          (s.step indent (.startTag tag)).2.tokens = [] ∨
        (s.step indent (.startTag tag)).1.Passes ∧
          ∃ front new, (s.step indent (.startTag tag)).2.tokens = front ++ [.startTag new] ∧
            Sendable false front ∧ (Token.startTag new).Writable ∧ new.name = tag.name ∧
            opensRawText new = true) := by
  cases s with
  | resources block =>
    cases block with
    | none =>
      rw [Stage.step, Resource.step, Resource.outside_rawText indent hopens]
      exact ⟨trivial, .inr ⟨rfl, [], tag, rfl, .nil, ht, rfl, hopens⟩⟩
    | some b =>
      have hsound : Resource.Sound (some b) := hs
      exact ⟨(Resource.sound_step hsound hindent ht (.inr (by simp))).1, .inl ⟨⟨_, rfl⟩, rfl⟩⟩
  | grid g =>
    obtain ⟨hstate, htokens⟩ := g.step_rawText hopens
    obtain ⟨hheld, hsettle⟩ := Grid.settle_sendable hs
    have hname : (Grid.expandTag tag).name = tag.name := by
      have hraw := isRawText_of_opensRawText hopens
      rw [String.ofList_toList] at hraw
      rw [Grid.expandTag_name, Grid.written, Grid.isGrid_of_isRawText hraw]
      rfl
    change Stage.Sound (.grid (g.step (.startTag tag)).1) ∧
      (_ ∨ Stage.Passes (.grid (g.step (.startTag tag)).1) ∧ _)
    rw [hstate]
    refine ⟨hheld, .inr ⟨Grid.settle_not_waiting g, _, _, htokens, hsettle, ?_, hname, ?_⟩⟩
    · exact Grid.writable_expandTag ht
    · exact (Grid.opensRawText_expandTag tag).trans hopens
  | idle => exact ⟨trivial, .inr ⟨trivial, [], tag, rfl, .nil, ht, rfl, hopens⟩⟩

theorem Stage.runs_block_text (hruns : (Stage.resources (some b)).Runs (textTokens false text ++ more)
    last sent) (hb : b.Sound) :
    ∃ b' : Resource.Block, b'.Sound ∧ (Stage.resources (some b')).Runs more last sent := by
  rcases textTokens_false_cases text with ⟨-, htokens⟩ | ⟨s, -, -, htokens⟩
  · rw [htokens] at hruns
    exact ⟨b, hb, hruns⟩
  · rw [htokens] at hruns
    cases hruns with
    | cons _ hruns => exact ⟨b.add (.text s), hb.add (by rintro content ⟨⟩), hruns⟩

theorem Stage.runs_passes_text (hruns : s.Runs (textTokens false text ++ more) last sent)
    (hs : s.Passes) :
    ∃ rest, sent = textTokens false text ++ rest ∧ s.Runs more last rest := by
  rcases textTokens_false_cases text with ⟨-, htokens⟩ | ⟨content, -, -, htokens⟩
  · rw [htokens] at hruns ⊢
    exact ⟨sent, rfl, hruns⟩
  · rw [htokens] at hruns ⊢
    cases hruns with
    | cons _ hruns =>
      obtain ⟨hstate, hsent⟩ := hs.stepText _ content
      rw [hstate] at hruns
      rw [hsent]
      exact ⟨_, rfl, hruns⟩

theorem Stage.runs_sendable (hruns : s.Runs tokens last sent) (hs : s.Sound)
    (h : Sendable true tokens) : Sendable true sent := by
  obtain ⟨hw, hframed⟩ := h
  -- A raw text element is one step, so that no stage is left in the middle of one.
  induction hframed generalizing s sent with
  | nil =>
    cases hruns
    exact .nil
  | @cons t tokens hraw _ ih =>
    obtain ⟨ht, hw'⟩ := List.forall_mem_cons.1 hw
    cases hruns with
    | cons hindent hruns =>
      obtain ⟨hs', hreply⟩ := hs.step hindent ht hraw
      exact hreply.append (ih hruns hs' hw')
  | @element tag text name tokens hopens hname htext _ ih =>
    obtain ⟨ht, hw'⟩ := List.forall_mem_cons.1 hw
    have hw'' := (List.forall_mem_append.1 hw').2
    cases hruns with
    | cons hindent hruns =>
      obtain ⟨hs', ⟨⟨b, hb⟩, hdropped⟩ | ⟨hpasses, front, new, htokens, hfront, hnew, hsame,
        hopens'⟩⟩ := hs.stepRawText ht hopens hindent
      · rw [hb] at hruns hs'
        obtain ⟨b', hb', hruns⟩ := Stage.runs_block_text hruns hs'
        rw [hdropped]
        exact ih hruns hb' hw''
      · obtain ⟨rest, rfl, hpassed⟩ := Stage.runs_passes_text hruns hpasses
        have hrest := ih hpassed hs' hw''
        have hraw : isRawText name = true := by
          have htag := isRawText_of_opensRawText hopens
          rwa [isRawText, String.toList_ofList, ← hname] at htag
        cases hpassed with
        | cons _ _ =>
          rw [hpasses.stepEndTag hraw] at hrest ⊢
          rw [htokens, List.append_assoc]
          rw [← hsame] at hname htext
          exact hfront.append (.element hnew hopens' hname htext hrest)
  | @last tag text hunclosed hopens htext =>
    obtain ⟨ht, -⟩ := List.forall_mem_cons.1 hw
    cases hruns with
    | cons hindent hruns =>
      obtain ⟨hs', ⟨⟨b, hb⟩, hdropped⟩ | ⟨hpasses, front, new, htokens, hfront, hnew, hsame,
        hopens'⟩⟩ := hs.stepRawText ht hopens hindent
      · rw [hb] at hruns hs'
        obtain ⟨b', hb', hruns⟩ := Stage.runs_block_text hruns hs'
        rw [hdropped]
        cases hruns
        exact .nil
      · obtain ⟨rest, rfl, hpassed⟩ := Stage.runs_passes_text hruns hpasses
        cases hpassed
        rw [htokens, List.append_assoc]
        rw [← hsame] at htext
        exact hfront.append ⟨Sendable.writable_rawText hnew (List.forall_mem_nil _),
          .last hunclosed hopens' htext⟩

theorem Options.sound_stages (o : Options) : ∀ s ∈ o.stages, s.Sound := by
  intro s hs
  rw [Options.stages, List.mem_append] at hs
  rcases hs with hs | hs
  · split at hs
    · rw [List.mem_singleton.1 hs]
      trivial
    · cases hs
  · split at hs
    · rw [List.mem_singleton.1 hs]
      exact .nil
    · cases hs

theorem sendable_run (o : Options) (h : Sendable true tokens) :
    Sendable true (Expansion.run { stages := o.stages } tokens).2.output := by
  refine Expansion.run_keeps (List.forall_mem_nil _) ?_ h
  intro s hs tokens last sent hruns h
  exact Stage.runs_sendable hruns (o.sound_stages s hs) h

end GridMarkup
