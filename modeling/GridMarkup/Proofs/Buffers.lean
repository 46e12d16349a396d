import GridMarkup.Proofs.Drafts
import GridMarkup.Stage

/-!
# The buffers of resource blocks

The stage of the resource blocks can be kept in three fields: whether a block is open, the tokens
that it has collected, and the nested elements that are open. The last two are there outside of
blocks too, and only the end of a block empties them. Behind any calls these fields hold what the
stage holds, and they give the same answers.
-/

namespace GridMarkup

namespace Resource

open Text

inductive Place where
  | outside
  | inside (kind : Kind) (indent : String)
  deriving DecidableEq, Repr

structure Buffers where
  place : Place := .outside
  content : List Token := []
  nested : OpenElements := {}
  deriving DecidableEq, Repr

namespace Buffers

/-! ## The end of a block -/

def isText : Token → Bool
  | .text _ => true
  | _ => false

def firstText? (content : List Token) : Option Nat := content.findIdx? isText

def lastText? (content : List Token) : Option Nat :=
  (content.reverse.findIdx? isText).map (content.length - 1 - ·)

/-- What the token with number `i` becomes. The first text loses the blanks behind the start tag of
the block, and the last one those in front of the end tag. -/
def convertAt (kind : Kind) (indent : List Char) (content : List Token) (i : Nat) :
    Token → List Token
  | .text s =>
    let text := s.toList
    let text := if firstText? content = some i then trimStart text else text
    let text := if lastText? content = some i then trimEnd text else text
    (draft indent (i + 1 < content.length) text).flatMap (Piece.tokens kind)
  | .comment s => [.comment (String.ofList (expandComment kind indent s.toList))]
  | t => [t]

def convertTokens (kind : Kind) (indent : List Char) (content : List Token) : List Token :=
  (content.mapIdx (convertAt kind indent content)).flatten

/-- Ends the block that is open, if one is. -/
def convert (e : Buffers) : Buffers × Reply :=
  match e.place with
  | .outside => (e, {})
  | .inside kind indent =>
    ({ e with place := .outside, content := [], nested := {} },
      { tokens := convertTokens kind indent.toList e.content
        notices := [.expanding kind e.content.length] })

/-! ## Calls -/

/-- The start tag of a block leaves both buffers as they are. -/
def onStartTag (indent : String) (tag : StartTag) (e : Buffers) : Buffers × Reply :=
  match e.place with
  | .inside .. =>
    (if Element.opensElement tag then { e with nested := e.nested.push tag.name } else e, {})
  | .outside =>
    match Kind.ofTagName? tag.name with
    | some kind => (if tag.selfClosing then e else { e with place := .inside kind indent }, {})
    | none => (e, { tokens := [.startTag tag] })

def onEndTag (name : String) (e : Buffers) : Buffers × Reply :=
  match e.place with
  | .outside => (e, { tokens := [.endTag name] })
  | .inside kind _ =>
    if e.nested.contains name then ({ e with nested := e.nested.close name }, {})
    else if name = kind.tagName then e.convert
    else (e, {})

/-- A text or a comment goes to the content of the block, unless it stands in a nested element. -/
def onContent (t : Token) (e : Buffers) : Buffers × Reply :=
  match e.place with
  | .outside => (e, { tokens := [t] })
  | .inside .. => (if e.nested.isEmpty then { e with content := e.content ++ [t] } else e, {})

def onDeclaration (content : String) (e : Buffers) : Buffers × Reply :=
  match e.place with
  | .outside => (e, { tokens := [.declaration content] })
  | .inside .. => (e, {})

/-- Empties both buffers wherever it is. -/
def finish (e : Buffers) : Buffers × Reply :=
  ({ e with place := .outside, content := [], nested := {} },
    match e.place with
    | .outside => {}
    | .inside kind _ => { notices := [.blockNeverClosed kind e.content.length] })

def handle (indent : String) (e : Buffers) : Event → Buffers × Reply
  | .token (.startTag tag) => e.onStartTag indent tag
  | .token (.endTag name) => e.onEndTag name
  | .token (.text s) => e.onContent (.text s)
  | .token (.comment s) => e.onContent (.comment s)
  | .token (.declaration s) => e.onDeclaration s
  | .finish => e.finish

/-- The buffers behind calls, from the start on. -/
def behind (calls : List (String × Event)) : Buffers :=
  calls.foldl (fun e call => (e.handle call.1 call.2).1) {}

end Buffers

/-! ## The same end of a block -/

def Child.token : Child → Token
  | .text s => .text s
  | .comment s => .comment s

def Child.isText (child : Child) : Bool := Buffers.isText child.token

def Child.mapText (f : String → String) : Child → Child
  | .text s => .text (f s)
  | .comment s => .comment s

theorem Child.mapFirstText_eq (f : String → String) (children : List Child) :
    mapFirstText f children = children.mapIdx fun i child =>
      if children.findIdx? isText = some i then child.mapText f else child := by
  fun_induction mapFirstText f children with
  | case1 => rfl
  | case2 s rest =>
    have hrest : rest.mapIdx (fun _ child => child) = rest :=
      List.ext_getElem List.length_mapIdx fun i _ _ => List.getElem_mapIdx
    simpa [List.findIdx?_cons, isText, Buffers.isText, token, mapText] using hrest.symm
  | case3 s rest ih =>
    have hfirst : (Child.comment s :: rest).findIdx? isText =
        (rest.findIdx? isText).map (· + 1) := List.findIdx?_cons
    rw [ih, hfirst, List.mapIdx_cons]
    simp [mapText]

theorem Child.map_isText_mapFirstText (f : String → String) (children : List Child) :
    (mapFirstText f children).map isText = children.map isText := by
  fun_induction mapFirstText f children with
  | case1 => rfl
  | case2 s rest => rfl
  | case3 s rest ih => rw [List.map_cons, ih, List.map_cons]

/-- The last text of a list, told by its place from the front. -/
theorem Child.mapLastText_eq (f : String → String) (children : List Child) :
    mapLastText f children = children.mapIdx fun i child =>
      if (children.reverse.findIdx? isText).map (children.length - 1 - ·) = some i then
        child.mapText f
      else child := by
  rw [mapLastText, mapFirstText_eq, List.mapIdx_reverse, List.reverse_reverse,
    List.mapIdx_eq_mapIdx_iff]
  intro i hi
  have hiff : children.reverse.findIdx? isText = some (children.length - 1 - i) ↔
      (children.reverse.findIdx? isText).map (children.length - 1 - ·) = some i := by
    cases hlast : children.reverse.findIdx? isText with
    | none => simp
    | some j =>
      have hj : j < children.length := by
        have hlt := (List.findIdx?_eq_some_iff_findIdx_eq.1 hlast).1
        rwa [List.length_reverse] at hlt
      rw [Option.map_some, Option.some.injEq, Option.some.injEq]
      omega
  simp only [hiff]

theorem trimChildren_eq (children : List Child) :
    trimChildren children = children.mapIdx fun i child =>
      let child := if children.findIdx? Child.isText = some i then
        child.mapText fun s => String.ofList (trimStart s.toList) else child
      if (children.reverse.findIdx? Child.isText).map (children.length - 1 - ·) = some i then
        child.mapText fun s => String.ofList (trimEnd s.toList)
      else child := by
  have hsame (f : String → String) :
      (Child.mapFirstText f children).reverse.findIdx? Child.isText =
        children.reverse.findIdx? Child.isText := by
    have hmap := congrArg (fun kinds => kinds.reverse.findIdx? id)
      (Child.map_isText_mapFirstText f children)
    simpa [← List.map_reverse, List.findIdx?_map] using hmap
  rw [trimChildren, Child.mapLastText_eq, hsame, Child.mapFirstText_eq, List.length_mapIdx,
    List.mapIdx_mapIdx]
  rfl

theorem childrenTokens_eq (kind : Kind) (indent : List Char) (children : List Child) :
    childrenTokens kind indent children =
      (children.mapIdx fun i child =>
        childTokens kind indent (i + 1 < children.length) child).flatten := by
  induction children with
  | nil => rfl
  | cons child rest ih =>
    rw [childrenTokens, ih, List.mapIdx_cons]
    cases rest <;> simp

/-- The tokens that are collected become what the children of the block become. -/
theorem convertTokens_children (kind : Kind) (indent : List Char) (children : List Child) :
    Buffers.convertTokens kind indent (children.map Child.token) =
      childrenTokens kind indent (trimChildren children) := by
  have hfirst : Buffers.firstText? (children.map Child.token) =
      children.findIdx? Child.isText := by
    rw [Buffers.firstText?, List.findIdx?_map]
    rfl
  have hlast : Buffers.lastText? (children.map Child.token) =
      (children.reverse.findIdx? Child.isText).map (children.length - 1 - ·) := by
    rw [Buffers.lastText?, ← List.map_reverse, List.findIdx?_map, List.length_map]
    rfl
  rw [childrenTokens_eq, trimChildren_eq, List.length_mapIdx, List.mapIdx_mapIdx]
  refine congrArg List.flatten (List.ext_getElem (by simp) ?_)
  intro i _ hi
  rw [List.length_mapIdx] at hi
  simp only [List.getElem_mapIdx, List.getElem_map, Function.comp_apply]
  cases children[i] with
  | text s =>
    simp only [Child.token, Buffers.convertAt, hfirst, hlast, List.length_map, draft_eq_layout]
    split <;> split <;> simp [Child.mapText, childTokens]
  | comment s =>
    simp only [Child.token, Buffers.convertAt, Child.mapText, ite_self]
    rfl

/-! ## The same answers -/

/-- The buffers that hold what a block holds. Both are empty outside of blocks. -/
def Buffers.ofBlock : Option Block → Buffers
  | none => {}
  | some b =>
    { place := .inside b.kind b.indent, content := b.children.map Child.token, nested := b.nested }

/-- The answer to an event, with the block behind it. -/
def handle (indent : String) (block : Option Block) : Event → Option Block × Reply
  | .token t => step indent block t
  | .finish => (none, finish block)

/-- The block that is open behind calls, from the start on. -/
def behind (calls : List (String × Event)) : Option Block :=
  calls.foldl (fun block call => (handle call.1 block call.2).1) none

theorem Buffers.onStartTag_outside (indent : String) (tag : StartTag) :
    (ofBlock none).onStartTag indent tag =
      (ofBlock (outside indent (.startTag tag)).1, (outside indent (.startTag tag)).2) := by
  rw [outside]
  change (match Kind.ofTagName? tag.name with | some kind => _ | none => _) = _
  cases Kind.ofTagName? tag.name with
  | none => rfl
  | some kind => cases tag.selfClosing <;> rfl

theorem Buffers.onStartTag_inside (indent : String) (tag : StartTag) (b : Block) :
    (ofBlock (some b)).onStartTag indent tag =
      (ofBlock (b.step (.startTag tag)).1, (b.step (.startTag tag)).2) := by
  rw [Block.step]
  change (if Element.opensElement tag then _ else _, _) = _
  split <;> rfl

theorem Buffers.onContent_ofBlock (b : Block) (child : Child) :
    (ofBlock (some b)).onContent child.token = (ofBlock (some (b.add child)), {}) := by
  have hnested : (ofBlock (some b)).nested = b.nested := rfl
  unfold Block.add
  change (if _ then _ else _, _) = _
  rw [hnested]
  split
  · simp [ofBlock]
  · rfl

theorem Buffers.onEndTag_ofBlock (indent name : String) (b : Block) :
    (ofBlock (some b)).onEndTag name =
      (ofBlock (step indent (some b) (.endTag name)).1,
        (step indent (some b) (.endTag name)).2) := by
  rw [step, Block.step, Block.close]
  change (if b.nested.contains name then _ else _) = _
  split
  · rfl
  · split
    · have htokens := convertTokens_children b.kind b.indent.toList b.children
      simp only [ofBlock, convert, htokens, List.length_map]
      rfl
    · rfl

/-- A call of the buffers is a call of the stage. -/
theorem Buffers.handle_ofBlock (indent : String) (block : Option Block) (event : Event) :
    (ofBlock block).handle indent event =
      (ofBlock (Resource.handle indent block event).1,
        (Resource.handle indent block event).2) := by
  cases event with
  | finish =>
    cases block with
    | none => rfl
    | some b => simp [handle, finish, ofBlock, Resource.handle, Resource.finish]
  | token t =>
    cases block with
    | none =>
      cases t with
      | startTag tag => exact onStartTag_outside indent tag
      | _ => rfl
    | some b =>
      cases t with
      | startTag tag => exact onStartTag_inside indent tag b
      | endTag name => exact onEndTag_ofBlock indent name b
      | text s => exact onContent_ofBlock b (.text s)
      | comment s => exact onContent_ofBlock b (.comment s)
      | declaration s => rfl

end Resource

theorem Stage.handle_resources (indent : String) (block : Option Resource.Block) (event : Event) :
    (Stage.resources block).handle indent event =
      (.resources (Resource.handle indent block event).1,
        (Resource.handle indent block event).2) := by
  cases event <;> rfl

namespace Resource

variable (calls : List (String × Event))

theorem behind_concat (call : String × Event) :
    behind (calls ++ [call]) = (handle call.1 (behind calls) call.2).1 := by
  unfold behind
  rw [List.foldl_append]
  rfl

theorem stage_behind :
    calls.foldl (fun s call => (s.handle call.1 call.2).1) (.resources none) =
      Stage.resources (behind calls) := by
  induction calls using List.reverseRecOn with
  | nil => rfl
  | append_singleton calls call ih =>
    rw [List.foldl_append, ih, List.foldl_cons, List.foldl_nil, Stage.handle_resources,
      behind_concat]

theorem Buffers.behind_concat (call : String × Event) :
    behind (calls ++ [call]) = ((behind calls).handle call.1 call.2).1 := by
  unfold behind
  rw [List.foldl_append]
  rfl

/-- Behind any calls the buffers hold what the stage holds. -/
theorem Buffers.behind_eq : Buffers.behind calls = ofBlock (Resource.behind calls) := by
  induction calls using List.reverseRecOn with
  | nil => rfl
  | append_singleton calls call ih =>
    rw [behind_concat, ih, handle_ofBlock, Resource.behind_concat]

end Resource

end GridMarkup
