import GridMarkup.Element
import GridMarkup.OpenElements
import GridMarkup.Reply
import GridMarkup.Resource.Conditional

/-!
# Resource blocks

A block collects its direct texts and comments until its own end tag arrives while no nested element
of that name is open. Then every line with an address becomes an include. Nested elements are left
out with all they hold, and nothing comes out of a block before its end.
-/

namespace GridMarkup.Resource

open Text

inductive Child where
  | text (content : String)
  | comment (content : String)
  deriving DecidableEq, Repr

/-- A block that is open, with the indentation in front of its start tag. -/
structure Block where
  kind : Kind
  indent : String
  children : List Child := []
  nested : OpenElements := {}
  deriving DecidableEq, Repr

/-! ## Expanding the children -/

def Child.mapFirstText (f : String → String) : List Child → List Child
  | [] => []
  | .text s :: rest => .text (f s) :: rest
  | .comment s :: rest => .comment s :: mapFirstText f rest

def Child.mapLastText (f : String → String) (children : List Child) : List Child :=
  (mapFirstText f children.reverse).reverse

/-- The blanks at both ends of a block belong to its tags. -/
def trimChildren (children : List Child) : List Child :=
  Child.mapLastText (fun s => String.ofList (trimEnd s.toList))
    (Child.mapFirstText (fun s => String.ofList (trimStart s.toList)) children)

def Piece.tokens (kind : Kind) : Piece → List Token
  | .text s => [.text (String.ofList s)]
  | .resource url => kind.tokens (String.ofList url)

def childTokens (kind : Kind) (indent : List Char) (followed : Bool) : Child → List Token
  | .text s => (layout indent followed s.toList).flatMap (Piece.tokens kind)
  | .comment s => [.comment (String.ofList (expandComment kind indent s.toList))]

def childrenTokens (kind : Kind) (indent : List Char) : List Child → List Token
  | [] => []
  | child :: rest =>
    childTokens kind indent (!rest.isEmpty) child ++ childrenTokens kind indent rest

/-- The tokens that take the place of a whole block. -/
def Block.tokens (b : Block) : List Token :=
  childrenTokens b.kind b.indent.toList (trimChildren b.children)

/-! ## One token at a time -/

/-- A direct text or comment is collected, one of a nested element is not. -/
def Block.add (b : Block) (child : Child) : Block :=
  if b.nested.isEmpty then { b with children := b.children ++ [child] } else b

/-- The block after an end tag, none if that closes it. -/
def Block.close (b : Block) (name : String) : Option Block :=
  if b.nested.contains name then some { b with nested := b.nested.close name }
  else if name = b.kind.tagName then none
  else some b

def Block.step (b : Block) : Token → Option Block × Reply
  | .startTag tag =>
    (some (if Element.opensElement tag then { b with nested := b.nested.push tag.name } else b), {})
  | .endTag name =>
    match b.close name with
    | some b => (some b, {})
    | none => (none, { tokens := b.tokens, notices := [.expanding b.kind b.children.length] })
  | .text content => (some (b.add (.text content)), {})
  | .comment content => (some (b.add (.comment content)), {})
  | .declaration _ => (some b, {})

/-- A token outside of all blocks. A block that closes itself has nothing to expand. -/
def outside (indent : String) : Token → Option Block × Reply
  | .startTag tag =>
    match Kind.ofTagName? tag.name with
    | some kind => (if tag.selfClosing then none else some { kind, indent }, {})
    | none => (none, { tokens := [.startTag tag] })
  | t => (none, { tokens := [t] })

/-- One token with the block that is open, if one is. -/
def step (indent : String) : Option Block → Token → Option Block × Reply
  | none, t => outside indent t
  | some b, t => b.step t

/-- A block that is still open at the end is dropped. -/
def finish : Option Block → Reply
  | none => {}
  | some b => { notices := [.blockNeverClosed b.kind b.children.length] }

end GridMarkup.Resource
