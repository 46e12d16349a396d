import GridMarkup.Proofs.Addresses
import GridMarkup.Proofs.Buffers
import GridMarkup.Proofs.Stages
import Mathlib.Data.List.DropRight

/-!
# Whole blocks

A block that is read from its start tag to its end tag sends nothing before the end. Then each of
its direct texts becomes the includes of the addresses that it lists, each direct comment stays one
comment, and all of them keep their order. The end tag ends the block unless a nested element of the
same name is open.
-/

namespace GridMarkup.Resource

open Text Element

/-! ## What a block takes for its own -/

/-- The names of the nested elements that are open behind a token, innermost first. An end tag
closes the innermost one of its name with all that was opened in it. -/
def nestedAfter (names : List String) : Token → List String
  | .startTag tag => if opensElement tag then tag.name :: names else names
  | .endTag name => if name ∈ names then (names.dropWhile (· != name)).tail else names
  | _ => names

/-- The child of a block that a token is. -/
def child? : Token → Option Child
  | .text s => some (.text s)
  | .comment s => some (.comment s)
  | _ => none

/-- The texts and comments that stand in no nested element. -/
def direct (names : List String) : List Token → List Child
  | [] => []
  | t :: tokens =>
    (if names.isEmpty then (child? t).toList else []) ++ direct (nestedAfter names t) tokens

/-- An end tag of the block's own name always closes a nested element. -/
def StaysOpen (kind : Kind) (names : List String) : List Token → Prop
  | [] => True
  | t :: tokens =>
    (t = .endTag kind.tagName → kind.tagName ∈ names) ∧ StaysOpen kind (nestedAfter names t) tokens

instance StaysOpen.decidable (kind : Kind) :
    ∀ (names : List String) (tokens : List Token), Decidable (StaysOpen kind names tokens)
  | _, [] => inferInstanceAs (Decidable True)
  | names, t :: tokens =>
    have := StaysOpen.decidable kind (nestedAfter names t) tokens
    inferInstanceAs (Decidable ((_ → _) ∧ _))

variable {kind : Kind} {indent name : String} {names : List String} {t : Token} {b : Block}
  {tokens : List Token} {xs : List (String × Token)}

/-! ## One token at a time -/

theorem names_close (e : OpenElements) (name : String) :
    (e.close name).names = nestedAfter e.names (.endTag name) := by
  unfold OpenElements.close nestedAfter
  by_cases hmem : name ∈ e.names <;> simp [OpenElements.contains, hmem]

theorem Block.add_eq (b : Block) (child : Child) :
    b.add child =
      { b with children := b.children ++ if b.nested.names.isEmpty then [child] else [] } := by
  unfold Block.add OpenElements.isEmpty
  split <;> simp

/-- A token that does not end the block is taken in, and nothing is sent for it. -/
theorem Block.step_within (b : Block)
    (h : t = .endTag b.kind.tagName → b.kind.tagName ∈ b.nested.names) :
    b.step t =
      (some { b with
        children := b.children ++ if b.nested.names.isEmpty then (child? t).toList else []
        nested := ⟨nestedAfter b.nested.names t⟩ }, {}) := by
  cases t with
  | startTag tag =>
    rw [Block.step, nestedAfter]
    split <;> simp [child?, OpenElements.push]
  | endTag name =>
    have hclose : b.close name = some { b with nested := b.nested.close name } := by
      unfold Block.close
      by_cases hmem : name ∈ b.nested.names
      · rw [if_pos (by simpa [OpenElements.contains] using hmem)]
      · have hname : ¬ name = b.kind.tagName := by
          rintro rfl
          exact hmem (h rfl)
        have hnot : ¬ b.nested.contains name = true := by simpa [OpenElements.contains] using hmem
        rw [if_neg hnot, if_neg hname, OpenElements.close, if_neg hnot]
    have hnested : b.nested.close name = ⟨nestedAfter b.nested.names (.endTag name)⟩ :=
      congrArg OpenElements.mk (names_close b.nested name)
    rw [Block.step, hclose, hnested]
    simp [child?]
  | text s => rw [Block.step, Block.add_eq]; rfl
  | comment s => rw [Block.step, Block.add_eq]; rfl
  | declaration s => simp [Block.step, child?, nestedAfter]

/-- While a block stays open, its direct texts and comments are collected and nothing is sent. -/
theorem expandAll_within (b : Block) (h : StaysOpen b.kind b.nested.names (xs.map Prod.snd)) :
    expandAll (some b) xs =
      (some { b with
        children := b.children ++ direct b.nested.names (xs.map Prod.snd)
        nested := ⟨(xs.map Prod.snd).foldl nestedAfter b.nested.names⟩ }, []) := by
  induction xs generalizing b with
  | nil => simp [expandAll, direct]
  | cons x xs ih =>
    obtain ⟨hx, hxs⟩ := h
    have hstep : step x.1 (some b) x.2 = b.step x.2 := rfl
    rw [expandAll, hstep, b.step_within hx]
    dsimp only
    rw [ih _ hxs]
    simp [direct]

theorem step_endTag (indent : String) (b : Block) :
    step indent (some b) (.endTag b.kind.tagName) =
      if b.kind.tagName ∈ b.nested.names then
        (some { b with nested := b.nested.close b.kind.tagName }, {})
      else (none, { tokens := b.tokens, notices := [.expanding b.kind b.children.length] }) := by
  have hstep : step indent (some b) (.endTag b.kind.tagName) =
      b.step (.endTag b.kind.tagName) := rfl
  rw [hstep, Block.step, Block.close]
  by_cases hmem : b.kind.tagName ∈ b.nested.names <;> simp [OpenElements.contains, hmem]

/-! ## What children become -/

/-- The addresses that a child lists. Those in a comment stay there. -/
def Child.urls : Child → List (List Char)
  | .text s => addresses s.toList
  | .comment _ => []

/-- A text becomes the includes of its addresses, a comment one comment. -/
def Child.Becomes (kind : Kind) (indent : List Char) : Child → List Token → Prop
  | .text s, tokens => Lists kind (addresses s.toList) tokens
  | .comment s, tokens => tokens = [.comment (String.ofList (expandComment kind indent s.toList))]

/-- The child without the blanks at its ends. -/
def Child.bare : Child → Child
  | .text s => .text (String.ofList (trim s.toList))
  | .comment s => .comment s

/-- The address of an include: the value of its first attribute. -/
def includedUrl? : Token → Option String
  | .startTag tag => tag.attributes.head?.bind (·.value)
  | _ => none

theorem Child.becomes_bare (kind : Kind) (indent : List Char) (child : Child) :
    child.bare.Becomes kind indent = child.Becomes kind indent := by
  cases child with
  | text s =>
    funext tokens
    simp only [Child.bare, Child.Becomes, String.toList_ofList, trim, addresses_trimEnd,
      addresses_trimStart]
  | comment s => rfl

theorem Child.map_bare_mapFirstText {f : String → String}
    (hf : ∀ s, trim (f s).toList = trim s.toList) (children : List Child) :
    (mapFirstText f children).map Child.bare = children.map Child.bare := by
  fun_induction Child.mapFirstText f children with
  | case1 => rfl
  | case2 s rest => simp only [List.map_cons, Child.bare, hf]
  | case3 s rest ih => rw [List.map_cons, ih, List.map_cons]

theorem map_bare_trimChildren (children : List Child) :
    (trimChildren children).map Child.bare = children.map Child.bare := by
  have hstart (s : String) : trim (String.ofList (trimStart s.toList)).toList = trim s.toList := by
    have hstart : trimStart (trimStart s.toList) = trimStart s.toList :=
      List.dropWhile_idempotent ..
    rw [String.toList_ofList, trim, hstart, trim]
  have hend (s : String) : trim (String.ofList (trimEnd s.toList)).toList = trim s.toList := by
    rw [String.toList_ofList]
    conv_rhs => rw [← trimEnd_append_trailing s.toList]
    rw [trim_append_blank _ (allBlank_trailing _)]
  rw [trimChildren, Child.mapLastText, List.map_reverse, Child.map_bare_mapFirstText hend,
    List.map_reverse, List.reverse_reverse, Child.map_bare_mapFirstText hstart]

theorem becomes_childrenTokens {indent : List Char} (hindent : AllBlank indent)
    (children : List Child) :
    ∃ parts, childrenTokens kind indent children = parts.flatten ∧
      List.Forall₂ (Child.Becomes kind indent) children parts := by
  induction children with
  | nil => exact ⟨[], rfl, .nil⟩
  | cons child rest ih =>
    obtain ⟨parts, hparts, hrest⟩ := ih
    refine ⟨childTokens kind indent (!rest.isEmpty) child :: parts, ?_, .cons ?_ hrest⟩
    · rw [childrenTokens, hparts, List.flatten_cons]
    · cases child with
      | text s => exact lists_layout hindent _ _
      | comment s => rfl

/-- A whole block becomes what its children become, one after the other. -/
theorem Block.becomes (b : Block) (hindent : AllBlank b.indent.toList) :
    ∃ parts, b.tokens = parts.flatten ∧
      List.Forall₂ (Child.Becomes b.kind b.indent.toList) b.children parts := by
  obtain ⟨parts, hparts, hbecomes⟩ := becomes_childrenTokens hindent (trimChildren b.children)
  refine ⟨parts, hparts, ?_⟩
  have hbare (children : List Child) :
      List.Forall₂ (Child.Becomes b.kind b.indent.toList) (children.map Child.bare) parts ↔
        List.Forall₂ (Child.Becomes b.kind b.indent.toList) children parts := by
    simp only [List.forall₂_map_left_iff, Child.becomes_bare]
  rw [← hbare, ← map_bare_trimChildren, hbare]
  exact hbecomes

theorem Lists.includedUrls {urls : List (List Char)} (h : Lists kind urls tokens) :
    tokens.filterMap includedUrl? = urls.map String.ofList := by
  induction h with
  | nil => rfl
  | blank s _ _ ih => exact ih
  | @address urls tokens url _ ih =>
    have hend : (Token.endTag "script" :: tokens).filterMap includedUrl? =
        tokens.filterMap includedUrl? := rfl
    cases kind <;> simp [Kind.tokens, includedUrl?, hend, ih]

theorem Child.Becomes.includedUrls {indent : List Char} {child : Child}
    (h : child.Becomes kind indent tokens) :
    tokens.filterMap includedUrl? = child.urls.map String.ofList := by
  cases child with
  | text s => exact Lists.includedUrls h
  | comment s =>
    have htokens : tokens = _ := h
    rw [htokens]
    rfl

theorem includedUrls_flatten {indent : List Char} {children : List Child}
    {parts : List (List Token)} (h : List.Forall₂ (Child.Becomes kind indent) children parts) :
    parts.flatten.filterMap includedUrl? = (children.flatMap Child.urls).map String.ofList := by
  induction h with
  | nil => rfl
  | cons hchild _ ih =>
    rw [List.flatten_cons, List.filterMap_append, hchild.includedUrls, ih, List.flatMap_cons,
      List.map_append]

/-! ## Whole blocks -/

/-- The call that brings a token. -/
def call (x : String × Token) : String × Event := (x.1, .token x.2)

theorem behind_tokens (xs : List (String × Token)) :
    behind (xs.map call) = (expandAll none xs).1 := by
  have hrun (block : Option Block) :
      (xs.map call).foldl (fun block call => (handle call.1 block call.2).1) block =
        (expandAll block xs).1 := by
    induction xs generalizing block with
    | nil => rfl
    | cons x xs ih => exact ih (step x.1 block x.2).1
  exact hrun none

/-- Where a block ends, the buffers are as they were before its start tag. -/
theorem buffers_behind_end {xs : List (String × Token)} {b : Block} {last name : String}
    (hopen : (expandAll none xs).1 = some b)
    (hends : (step last (some b) (.endTag name)).1 = none) :
    Buffers.behind (List.map call (xs ++ [(last, .endTag name)])) = {} := by
  rw [Buffers.behind_eq, List.map_append, List.map_cons, List.map_nil, behind_concat, behind_tokens,
    hopen]
  change Buffers.ofBlock (step last (some b) (.endTag name)).1 = {}
  rw [hends]
  rfl

/-- A block sends nothing before its end tag. That one sends an include for every address of the
direct texts, and the direct comments, and leaves the buffers empty, unless a nested element takes
it for its own. -/
theorem expandAll_block (kind : Kind) (attributes : List Attribute) (indent last : String)
    (hindent : AllBlank indent.toList) (body : List (String × Token))
    (hbody : StaysOpen kind [] (body.map Prod.snd)) :
    ∃ b, expandAll none ((indent, .startTag ⟨kind.tagName, attributes, false⟩) :: body) =
        (some b, []) ∧
      let children := direct [] (body.map Prod.snd)
      let answer := step last (some b) (.endTag kind.tagName)
      if kind.tagName ∈ (body.map Prod.snd).foldl nestedAfter [] then
        answer.1.isSome = true ∧ answer.2.tokens = []
      else
        answer.1 = none ∧
          Buffers.behind (List.map call
            ((indent, .startTag ⟨kind.tagName, attributes, false⟩) :: body ++
              [(last, .endTag kind.tagName)])) = {} ∧
          (∃ parts, answer.2.tokens = parts.flatten ∧
            List.Forall₂ (Child.Becomes kind indent.toList) children parts) ∧
          answer.2.tokens.filterMap includedUrl? =
            (children.flatMap Child.urls).map String.ofList := by
  have hstart : step indent none (.startTag ⟨kind.tagName, attributes, false⟩) =
      (some { kind, indent }, {}) := by
    cases kind <;> rfl
  let b : Block :=
    { kind, indent, children := direct [] (body.map Prod.snd),
      nested := ⟨(body.map Prod.snd).foldl nestedAfter []⟩ }
  have hrun : expandAll (some { kind, indent }) body = (some b, []) :=
    expandAll_within { kind, indent } hbody
  have hopen : expandAll none ((indent, .startTag ⟨kind.tagName, attributes, false⟩) :: body) =
      (some b, []) := by
    rw [expandAll, hstart]
    dsimp only
    rw [hrun]
    rfl
  refine ⟨b, hopen, ?_⟩
  have hanswer := step_endTag last b
  dsimp only [b] at hanswer ⊢
  rw [hanswer]
  split
  · exact ⟨rfl, rfl⟩
  · next hends =>
    obtain ⟨parts, hparts, hbecomes⟩ := b.becomes hindent
    refine ⟨rfl, ?_, ⟨parts, hparts, hbecomes⟩, ?_⟩
    · refine buffers_behind_end (congrArg Prod.fst hopen) ?_
      rw [hanswer, if_neg hends]
    · rw [← includedUrls_flatten hbecomes, ← hparts]

/-- A block with a nested element of its own name, a comment and a blank line. -/
def stylesheetsBody : List (String × Token) :=
  [("", .text "\n    a.css\n\n    b.css"), ("", .startTag ⟨"css", [], false⟩), ("", .text "c.css"),
    ("", .endTag "css"), ("", .comment "print"), ("  ", .text "\n    d.css\n  ")]

theorem expandAll_block_stylesheets :
    AllBlank "  ".toList ∧ StaysOpen .stylesheets [] (stylesheetsBody.map Prod.snd) ∧
      ∃ b, expandAll none (("  ", .startTag ⟨"css", [], false⟩) :: stylesheetsBody) = (some b, []) ∧
        (step "  " (some b) (.endTag "css")).1 = none ∧
        (step "  " (some b) (.endTag "css")).2.tokens.filterMap includedUrl? =
          ["a.css", "b.css", "d.css"] := by
  have hindent : AllBlank "  ".toList := List.all_eq_true.1 (by decide)
  have hbody : StaysOpen .stylesheets [] (stylesheetsBody.map Prod.snd) := by decide
  obtain ⟨b, hrun, hanswer⟩ :=
    expandAll_block .stylesheets [] "  " "  " hindent stylesheetsBody hbody
  rw [if_neg (by decide)] at hanswer
  obtain ⟨hends, -, -, hurls⟩ := hanswer
  exact ⟨hindent, hbody, b, hrun, hends, hurls.trans (by decide)⟩

/-- The end tag behind an open element of the block's own name closes that element: the block goes
on, and nothing has been sent. -/
theorem nested_block_takes_end :
    StaysOpen .scripts [] [.text "a.js", .startTag ⟨"js", [], false⟩] ∧
      (expandAll none [("", .startTag ⟨"js", [], false⟩), ("", .text "a.js"),
        ("", .startTag ⟨"js", [], false⟩), ("", .endTag "js")]).1 ≠ none ∧
      (expandAll none [("", .startTag ⟨"js", [], false⟩), ("", .text "a.js"),
        ("", .startTag ⟨"js", [], false⟩), ("", .endTag "js")]).2 = [] := by
  decide

end GridMarkup.Resource
