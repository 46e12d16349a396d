import GridMarkup.Proofs.Blocks
import GridMarkup.Proofs.Decoding.Reading
import GridMarkup.Proofs.Sent
import GridMarkup.Proofs.Stages
import Mathlib.Algebra.GroupWithZero.Nat

/-!
# Resource blocks with references decoded

Decoding can change how many lines of a block hold an address: a reference can stand for a line feed
or for a blank. A block that lists as many addresses either way becomes as many includes.
-/

namespace GridMarkup

open Text Element

variable {kind : Resource.Kind} {n m : Nat} {tokens more raw decoded : List Token}

/-! ## Lines with an address -/

/-- How many lines of a text are not blank. -/
def Text.filledLines (s : List Char) : Nat := (lines s).countP isFilled

theorem Text.filledLines_eq (s : List Char) : filledLines s = (addresses s).length := by
  rw [filledLines, addresses, List.length_map, List.countP_eq_length_filter]

namespace Resource

/-- How many lines of a child hold an address. Those of comments stay in their comment. -/
def Child.addresses : Child → Nat
  | .text s => filledLines s.toList
  | .comment _ => 0

/-- How many addresses a block lists. -/
def Block.addresses (b : Block) : Nat := (b.children.map Child.addresses).sum

/-! ## Includes -/

/-- Tokens that hold so many includes, with nothing but comments and blank texts between them. -/
inductive Includes (kind : Kind) : Nat → List Token → Prop where
  | nil : Includes kind 0 []
  | quiet {n : Nat} {t : Token} {tokens : List Token} (ht : t.isQuiet blank = true)
      (h : Includes kind n tokens) : Includes kind n (t :: tokens)
  | address {n : Nat} {tokens : List Token} (url : String) (h : Includes kind n tokens) :
      Includes kind (n + 1) (kind.tokens url ++ tokens)

theorem Includes.append (h : Includes kind n tokens) (hmore : Includes kind m more) :
    Includes kind (n + m) (tokens ++ more) := by
  induction h with
  | nil => simpa using hmore
  | quiet ht _ ih => exact .quiet ht ih
  | address url _ ih =>
    rw [List.append_assoc, Nat.add_right_comm]
    exact .address url ih

theorem Lists.includes {urls : List (List Char)} (h : Lists kind urls tokens) :
    Includes kind urls.length tokens := by
  induction h with
  | nil => exact .nil
  | blank s hs _ ih =>
    refine .quiet ?_ ih
    rw [Token.isQuiet, Text.blank, String.toList_ofList]
    exact List.all_eq_true.2 hs
  | address url _ ih => exact .address _ ih

theorem Child.Becomes.includes {indent : List Char} {child : Child}
    (h : child.Becomes kind indent tokens) : Includes kind child.addresses tokens := by
  cases child with
  | text s =>
    rw [Child.addresses, filledLines_eq]
    exact Lists.includes h
  | comment s =>
    have htokens : tokens = _ := h
    rw [htokens]
    exact .quiet rfl .nil

theorem includes_flatten {indent : List Char} {children : List Child} {parts : List (List Token)}
    (h : List.Forall₂ (Child.Becomes kind indent) children parts) :
    Includes kind (children.map Child.addresses).sum parts.flatten := by
  induction h with
  | nil => exact .nil
  | cons hchild _ ih =>
    rw [List.map_cons, List.sum_cons, List.flatten_cons]
    exact hchild.includes.append ih

/-- A block becomes one include for each address that it lists. -/
theorem Block.includes {b : Block} (hindent : AllBlank b.indent.toList) :
    Includes b.kind b.addresses b.tokens := by
  obtain ⟨parts, htokens, hbecomes⟩ := b.becomes hindent
  rw [htokens]
  exact includes_flatten hbecomes

end Resource

/-! ## What comes out of the blocks -/

/-- The tokens that go into the grid, as they are spelled and with references decoded: the same
tags, and the same texts in two spellings. Comments and blank texts come and go. -/
inductive Alike : List Token → List Token → Prop where
  | nil : Alike [] []
  | startTag {tag tag' : StartTag} {raw decoded : List Token} (hname : tag'.name = tag.name)
      (hcloses : tag'.selfClosing = tag.selfClosing) (h : Alike raw decoded) :
      Alike (.startTag tag :: raw) (.startTag tag' :: decoded)
  | rawText {tag tag' : StartTag} (s : String) {raw decoded : List Token}
      (hname : tag'.name = tag.name) (hcloses : tag'.selfClosing = tag.selfClosing)
      (hopens : opensRawText tag = true) (h : Alike raw decoded) :
      Alike (.startTag tag :: .text s :: raw) (.startTag tag' :: .text s :: decoded)
  | endTag (name : String) {raw decoded : List Token} (h : Alike raw decoded) :
      Alike (.endTag name :: raw) (.endTag name :: decoded)
  | text (s : String) {raw decoded : List Token} (h : Alike raw decoded) :
      Alike (.text s :: raw) (.text (decodeString s) :: decoded)
  | declaration (s : String) {raw decoded : List Token} (h : Alike raw decoded) :
      Alike (.declaration s :: raw) (.declaration s :: decoded)
  | quiet {t : Token} {raw decoded : List Token} (ht : t.isQuiet blank = true)
      (h : Alike raw decoded) : Alike (t :: raw) decoded
  | quietDecoded {t : Token} {raw decoded : List Token} (ht : t.isQuiet blank = true)
      (h : Alike raw decoded) : Alike raw (t :: decoded)

theorem Alike.cons (t : Token) (h : Alike raw decoded) :
    Alike (t :: raw) (t.decoded :: decoded) := by
  cases t with
  | startTag tag => exact .startTag rfl rfl h
  | endTag name => exact .endTag name h
  | text s => exact .text s h
  | comment s => exact .quiet rfl (.quietDecoded rfl h)
  | declaration s => exact .declaration s h

theorem Respelled.alike (h : Respelled raw decoded) : Alike raw decoded := by
  induction h with
  | nil => exact .nil
  | cons t _ ih => exact ih.cons t
  | rawText s hopens _ ih => exact .rawText s rfl rfl hopens ih

namespace Resource

theorem alike_include (kind : Kind) (url url' : String) (h : Alike raw decoded) :
    Alike (kind.tokens url ++ raw) (kind.tokens url' ++ decoded) := by
  cases kind with
  | scripts => exact .startTag rfl rfl (.endTag _ h)
  | stylesheets => exact .startTag rfl rfl h

theorem Includes.alike_none (hmore : Includes kind 0 more) (h : Alike raw decoded) :
    Alike raw (more ++ decoded) := by
  generalize hn : 0 = n at hmore
  induction hmore with
  | nil => exact h
  | quiet ht _ ih => exact .quietDecoded ht (ih hn)
  | address => cases hn

theorem Includes.alike_address {url : String} (hmore : Includes kind (n + 1) more)
    (h : ∀ rest, Includes kind n rest → Alike raw (rest ++ decoded)) :
    Alike (kind.tokens url ++ raw) (more ++ decoded) := by
  generalize hm : n + 1 = m at hmore
  induction hmore with
  | nil => cases hm
  | quiet ht _ ih => exact .quietDecoded ht (ih hm)
  | address url' hrest =>
    cases hm
    rw [List.append_assoc]
    exact alike_include kind url url' (h _ hrest)

/-- As many includes are alike, whatever quiet tokens stand between them. -/
theorem Includes.alike (htokens : Includes kind n tokens) (hmore : Includes kind n more)
    (h : Alike raw decoded) : Alike (tokens ++ raw) (more ++ decoded) := by
  induction htokens generalizing more with
  | nil => exact hmore.alike_none h
  | quiet ht _ ih => exact .quiet ht (ih hmore)
  | address url _ ih =>
    rw [List.append_assoc]
    exact hmore.alike_address fun rest hrest => ih hrest

/-! ## Runs of the blocks -/

/-- What the block that a step closes lists, if it closes one. -/
def closing : Option Block → Option Block → List Nat
  | some b, none => [b.addresses]
  | _, _ => []

/-- The numbers of addresses that the closed blocks list. -/
def listings (block : Option Block) : List (String × Token) → List Nat
  | [] => []
  | (indent, t) :: rest =>
    let next := (step indent block t).1
    closing block next ++ listings next rest

/-- Blocks that take the same tokens for theirs, each behind blanks. -/
structure Block.Alike (b b' : Block) : Prop where
  kind : b'.kind = b.kind
  nested : b'.nested = b.nested
  indent : AllBlank b.indent.toList
  indentDecoded : AllBlank b'.indent.toList

variable {b b' : Block} {block block' : Option Block} {indent indent' : String}

theorem Block.Alike.add (h : b.Alike b') (child child' : Child) :
    (b.add child).Alike (b'.add child') := by
  unfold Block.add
  rw [h.nested]
  split
  · exact ⟨h.kind, rfl, h.indent, h.indentDecoded⟩
  · exact h

theorem Block.Alike.close (h : b.Alike b') (name : String) :
    Option.Rel Block.Alike (b.close name) (b'.close name) := by
  unfold Block.close
  rw [h.nested, h.kind]
  split
  · exact .some ⟨rfl, rfl, h.indent, h.indentDecoded⟩
  · split
    · exact .none
    · exact .some h

/-- Steps with the same token leave alike blocks. They send alike tokens, if a block that they close
lists as many addresses either way. -/
def StepsAlike (answer answer' : Option Block × Reply) (listed listed' : List Nat) : Prop :=
  Option.Rel Block.Alike answer.1 answer'.1 ∧
    (listed = listed' → ∀ raw decoded, GridMarkup.Alike raw decoded →
      GridMarkup.Alike (answer.2.tokens ++ raw) (answer'.2.tokens ++ decoded))

theorem Block.Alike.step (h : b.Alike b') (t : Token) :
    StepsAlike (b.step t) (b'.step t.decoded) (closing (some b) (b.step t).1)
      (closing (some b') (b'.step t.decoded).1) := by
  cases t with
  | startTag tag =>
    have hopens : opensElement tag.decoded = opensElement tag := rfl
    refine ⟨.some ?_, fun _ raw decoded hmore => hmore⟩
    rw [hopens]
    split
    · exact ⟨h.kind, congrArg (OpenElements.push · tag.name) h.nested, h.indent, h.indentDecoded⟩
    · exact h
  | endTag name =>
    have hclose := h.close name
    change StepsAlike (b.step (.endTag name)) (b'.step (.endTag name))
      (closing (some b) (b.step (.endTag name)).1) (closing (some b') (b'.step (.endTag name)).1)
    rw [Block.step, Block.step]
    generalize b.close name = closed, b'.close name = closed' at hclose
    cases hclose with
    | some hnext => exact ⟨.some hnext, fun _ raw decoded hmore => hmore⟩
    | none =>
      refine ⟨.none, fun hlisted raw decoded hmore => ?_⟩
      have hsame : b.addresses = b'.addresses := List.singleton_inj.1 hlisted
      have hincludes := Block.includes h.indentDecoded
      rw [h.kind, ← hsame] at hincludes
      exact (Block.includes h.indent).alike hincludes hmore
  | text s => exact ⟨.some (h.add _ _), fun _ raw decoded hmore => hmore⟩
  | comment s => exact ⟨.some (h.add _ _), fun _ raw decoded hmore => hmore⟩
  | declaration s => exact ⟨.some h, fun _ raw decoded hmore => hmore⟩

theorem outside_alike (hindent : AllBlank indent.toList) (hindent' : AllBlank indent'.toList)
    (t : Token) (listed listed' : List Nat) :
    StepsAlike (outside indent t) (outside indent' t.decoded) listed listed' := by
  cases t with
  | startTag tag =>
    change StepsAlike (outside indent (.startTag tag)) (outside indent' (.startTag tag.decoded)) _ _
    have hname : tag.decoded.name = tag.name := rfl
    have hcloses : tag.decoded.selfClosing = tag.selfClosing := rfl
    rw [outside, outside, hname, hcloses]
    cases Kind.ofTagName? tag.name with
    | none => exact ⟨.none, fun _ raw decoded hmore => .startTag rfl rfl hmore⟩
    | some kind =>
      refine ⟨?_, fun _ raw decoded hmore => hmore⟩
      simp only
      split
      · exact .none
      · exact .some ⟨rfl, rfl, hindent, hindent'⟩
  | endTag name => exact ⟨.none, fun _ raw decoded hmore => .endTag name hmore⟩
  | text s => exact ⟨.none, fun _ raw decoded hmore => .text s hmore⟩
  | comment s =>
    exact ⟨.none, fun _ raw decoded hmore => .quiet rfl (.quietDecoded rfl hmore)⟩
  | declaration s => exact ⟨.none, fun _ raw decoded hmore => .declaration s hmore⟩

theorem step_alike (hblock : Option.Rel Block.Alike block block')
    (hindent : AllBlank indent.toList) (hindent' : AllBlank indent'.toList) (t : Token) :
    StepsAlike (step indent block t) (step indent' block' t.decoded)
      (closing block (step indent block t).1)
      (closing block' (step indent' block' t.decoded).1) := by
  cases hblock with
  | none => exact outside_alike hindent hindent' t _ _
  | some h => exact h.step t

theorem closing_length {next next' : Option Block} (hblock : Option.Rel Block.Alike block block')
    (hnext : Option.Rel Block.Alike next next') :
    (closing block next).length = (closing block' next').length := by
  cases hblock <;> cases hnext <;> rfl

/-- A raw text element passes as a whole outside of blocks. -/
theorem expandAll_rawText_outside {tag : StartTag} (hopens : opensRawText tag = true) (s : String)
    (xs : List (String × Token)) :
    (expandAll none ((indent, .startTag tag) :: (indent', .text s) :: xs)).2 =
        .startTag tag :: .text s :: (expandAll none xs).2 ∧
      listings none ((indent, .startTag tag) :: (indent', .text s) :: xs) = listings none xs := by
  have hstart : step indent none (.startTag tag) = (none, { tokens := [.startTag tag] }) :=
    outside_rawText indent hopens
  simp only [expandAll, listings, hstart]
  exact ⟨rfl, rfl⟩

/-- A block leaves out what a raw text element holds. -/
theorem expandAll_rawText_inside {tag : StartTag} (hopens : opensElement tag = true) (s : String)
    (b : Block) (xs : List (String × Token)) :
    (expandAll (some b) ((indent, .startTag tag) :: (indent', .text s) :: xs)).2 =
        (expandAll (some { b with nested := b.nested.push tag.name }) xs).2 ∧
      listings (some b) ((indent, .startTag tag) :: (indent', .text s) :: xs) =
        listings (some { b with nested := b.nested.push tag.name }) xs := by
  have hstart : step indent (some b) (.startTag tag) =
      (some { b with nested := b.nested.push tag.name }, {}) := by
    change b.step (.startTag tag) = _
    rw [Block.step, if_pos hopens]
  simp only [expandAll, listings, hstart]
  exact ⟨rfl, rfl⟩

theorem opensElement_of_opensRawText {tag : StartTag} (h : opensRawText tag = true) :
    opensElement tag = true := by
  rw [opensRawText, Bool.and_eq_true, isRawText, List.contains_iff_mem] at h
  have hvoid : ∀ name ∈ rawTextNames, voidNames.contains name = false := by decide
  rw [opensElement, isVoid, h.1, hvoid _ h.2]
  rfl

/-- Blocks that list as many addresses either way make alike tokens of a source. -/
theorem alike_expandAll (h : Respelled raw decoded) (hblock : Option.Rel Block.Alike block block')
    (hindent : AllBlank indent.toList) (hindent' : AllBlank indent'.toList)
    (hlisted : listings block (Expansion.indented indent raw) =
      listings block' (Expansion.indented indent' decoded)) :
    Alike (expandAll block (Expansion.indented indent raw)).2
      (expandAll block' (Expansion.indented indent' decoded)).2 := by
  induction h generalizing block block' indent indent' with
  | nil => exact .nil
  | cons t _ ih =>
    have hafter := Expansion.allBlank_indentAfter hindent t
    have hafter' := Expansion.allBlank_indentAfter hindent' t.decoded
    obtain ⟨hnext, hsent⟩ := step_alike hblock hafter hafter' t
    obtain ⟨hclosing, hrest⟩ := List.append_inj hlisted (closing_length hblock hnext)
    exact hsent hclosing _ _ (ih hnext hafter hafter' hrest)
  | @rawText tag s raw decoded hopens _ ih =>
    have hafter := Expansion.allBlank_indentAfter hindent (.text s)
    have hafter' := Expansion.allBlank_indentAfter hindent' (.text s)
    have hdecoded : opensRawText tag.decoded = true := hopens
    have hinside := opensElement_of_opensRawText hopens
    have hinside' := opensElement_of_opensRawText hdecoded
    simp only [Expansion.indented] at hlisted ⊢
    cases hblock with
    | none =>
      rw [(expandAll_rawText_outside hopens s _).2,
        (expandAll_rawText_outside hdecoded s _).2] at hlisted
      rw [(expandAll_rawText_outside hopens s _).1, (expandAll_rawText_outside hdecoded s _).1]
      exact .rawText s rfl rfl hopens (ih .none hafter hafter' hlisted)
    | some h =>
      rw [(expandAll_rawText_inside hinside s _ _).2,
        (expandAll_rawText_inside hinside' s _ _).2] at hlisted
      rw [(expandAll_rawText_inside hinside s _ _).1, (expandAll_rawText_inside hinside' s _ _).1]
      refine ih (.some ?_) hafter hafter' hlisted
      exact ⟨h.kind, congrArg (OpenElements.push · tag.name) h.nested, h.indent, h.indentDecoded⟩

end Resource

/-- The numbers of addresses that the closed blocks of a document list, if blocks are on. -/
def Options.listings (o : Options) (tokens : List Token) : List Nat :=
  if o.resources then Resource.listings none (Expansion.indented "" tokens) else []

theorem Options.alike_included (o : Options) (h : Respelled raw decoded)
    (hlisted : o.listings raw = o.listings decoded) :
    Alike (o.included raw) (o.included decoded) := by
  unfold Options.listings at hlisted
  unfold Options.included
  by_cases hresources : o.resources = true
  · rw [if_pos hresources, if_pos hresources] at *
    have hindent : AllBlank "".toList := List.forall_mem_nil _
    exact Resource.alike_expandAll h .none hindent hindent hlisted
  · rw [if_neg hresources, if_neg hresources]
    exact h.alike

end GridMarkup
