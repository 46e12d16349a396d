import GridMarkup.Proofs.Grid
import GridMarkup.Proofs.Stages
import Mathlib.Data.List.DropRight

/-!
# Rows

The grid answers a token in one of three ways: it holds it, it lets a column stand beside what it
held, or it takes it for content. Only the innermost row can wait, and tokens are held only for a row
that waits. What is open around a row does not change how its content is expanded, so a row becomes
what its content becomes on its own, between the tags of the row and of its column.
-/

namespace GridMarkup

open Text (blank)

/-! ## Kinds of tokens -/

/-- The token leaves open whether the row gets an implied column: a quiet token, or a column that
closes itself. -/
def Token.isLead : Token → Bool
  | .startTag tag => Grid.isColumn tag.name && tag.selfClosing
  | t => t.isQuiet blank

/-- The number of open rows behind a token. -/
def Token.countRows (n : Nat) (t : Token) : Nat :=
  if Grid.startsRow t then n + 1 else if t = .endTag Grid.rowName then n - 1 else n

/-- The same, but none where the token closes a row and none is open. -/
def Token.depthAfter (n : Nat) (t : Token) : Option Nat :=
  if t = .endTag Grid.rowName ∧ n = 0 then none else some (t.countRows n)

/-- The start tags and end tags of rows match up. -/
def RowBalanced (tokens : List Token) : Prop := tokens.foldlM Token.depthAfter 0 = some 0

instance (tokens : List Token) : Decidable (RowBalanced tokens) :=
  inferInstanceAs (Decidable (_ = _))

variable {t : Token} {tokens body lead rest : List Token} {tag : StartTag} {n m : Nat}

theorem Token.lead_cases (h : t.isLead = true) :
    t.isQuiet blank = true ∨
      ∃ tag, t = .startTag tag ∧ Grid.isColumn tag.name = true ∧ tag.selfClosing = true := by
  cases t with
  | startTag tag =>
    rw [isLead, Bool.and_eq_true] at h
    exact .inr ⟨tag, rfl, h⟩
  | _ => exact .inl h

theorem Token.lead_of_quiet (h : t.isQuiet blank = true) : t.isLead = true := by
  cases t with
  | startTag tag => cases h
  | _ => exact h

theorem Token.isLead_eq (h : Grid.startsColumn t = false) : t.isLead = t.isQuiet blank := by
  cases t with
  | startTag tag =>
    change (Grid.isColumn tag.name && tag.selfClosing) = false
    rw [show Grid.isColumn tag.name = false from h, Bool.false_and]
  | _ => rfl

theorem Token.isLead_column (h : Grid.isColumn tag.name = true) :
    (Token.startTag tag).isLead = tag.selfClosing := by
  rw [isLead, h, Bool.true_and]

theorem Token.not_quiet (h : t.isLead = false) : ¬ t.isQuiet blank = true := by
  cases t with
  | startTag tag => rintro ⟨⟩
  | _ => exact Bool.not_eq_true _ ▸ h

/-- The token neither opens a row nor closes one. -/
def Token.keepsRows (t : Token) : Prop := Grid.startsRow t = false ∧ t ≠ .endTag Grid.rowName

theorem Token.keepsRows_of_quiet (h : t.isQuiet blank = true) : t.keepsRows := by
  cases t with
  | startTag tag => cases h
  | endTag name => cases h
  | _ => exact ⟨rfl, by rintro ⟨⟩⟩

theorem Token.keepsRows_of_column (h : Grid.isColumn tag.name = true) :
    (Token.startTag tag).keepsRows := by
  have hname : tag.name ≠ Grid.rowName := by
    intro hname
    rw [hname, Grid.isColumn_rowName] at h
    cases h
  exact ⟨by simp [Grid.startsRow, hname], by rintro ⟨⟩⟩

theorem Token.keepsRows_of_lead (h : t.isLead = true) : t.keepsRows := by
  rcases t.lead_cases h with hquiet | ⟨tag, rfl, hcolumn, -⟩
  · exact keepsRows_of_quiet hquiet
  · exact keepsRows_of_column hcolumn

theorem Token.countRows_keep (h : t.keepsRows) (n : Nat) : t.countRows n = n := by
  rw [countRows, h.1, if_neg Bool.false_ne_true, if_neg h.2]

theorem Token.depthAfter_keep (h : t.keepsRows) (n : Nat) : t.depthAfter n = some n := by
  rw [depthAfter, if_neg (fun hcloses => h.2 hcloses.1), countRows_keep h]

namespace Grid

variable {g : Grid} {rows outer : List Row}

/-! ## What the grid does with a token -/

/-- The rows behind content. -/
def rowsBehind (rows : List Row) : Token → List Row
  | .startTag tag => rowsAfter tag rows
  | .endTag name => if name = rowName then rows.drop 1 else rows
  | _ => rows

/-- The end of an implied column, in front of the end of its row. -/
def columnEnd (rows : List Row) : Token → List Token
  | .endTag name => closeColumn name rows
  | _ => []

theorem content_eq (g : Grid) (t : Token) :
    g.content t =
      ({ g.settle.1 with rows := rowsBehind g.settle.1.rows t },
        { g.settle.2 with
          tokens := g.settle.2.tokens ++ (columnEnd g.settle.1.rows t ++ expand t) }) := by
  cases t <;> simp [Grid.content, rowsBehind, columnEnd, expand]

theorem isWaiting_iff : g.isWaiting = true ↔ g.rows.head? = some .waiting := beq_iff_eq

theorem settle_eq_self (h : g.isWaiting = false) : g.settle = (g, {}) :=
  settle_of_not_waiting fun hhead => by rw [isWaiting_iff.2 hhead] at h; cases h

theorem fill_eq_self (h : g.isWaiting = false) : fill g.rows = g.rows := by
  unfold fill
  split
  · next outer hrows => rw [isWaiting, hrows] at h; cases h
  · rfl

/-- A token is held, it is a column, or it is content. -/
theorem step_cases (g : Grid) (t : Token) :
    (g.isWaiting = true ∧ t.isQuiet blank = true ∧ g.step t = g.hold t) ∨
      (∃ tag, t = .startTag tag ∧ isColumn tag.name = true ∧ g.step t = g.column tag) ∨
      ¬ (g.isWaiting = true ∧ t.isQuiet blank = true) ∧ startsColumn t = false ∧
        g.step t = g.content t := by
  cases t with
  | startTag tag =>
    by_cases hcolumn : isColumn tag.name = true
    · exact .inr (.inl ⟨tag, rfl, hcolumn, if_pos hcolumn⟩)
    · exact .inr (.inr ⟨by rintro ⟨-, ⟨⟩⟩, eq_false_of_ne_true hcolumn, if_neg hcolumn⟩)
  | endTag name => exact .inr (.inr ⟨by rintro ⟨-, ⟨⟩⟩, rfl, rfl⟩)
  | text s =>
    by_cases hheld : g.isWaiting = true ∧ s.toList.all Text.isBlank = true
    · exact .inl ⟨hheld.1, hheld.2, if_pos hheld⟩
    · exact .inr (.inr ⟨hheld, rfl, if_neg hheld⟩)
  | comment s =>
    by_cases hwaiting : g.isWaiting = true
    · exact .inl ⟨hwaiting, rfl, if_pos hwaiting⟩
    · refine .inr (.inr ⟨fun h => hwaiting h.1, rfl, ?_⟩)
      rw [Grid.step, if_neg hwaiting, content_eq, settle_eq_self (eq_false_of_ne_true hwaiting)]
      rfl
  | declaration s => exact .inr (.inr ⟨by rintro ⟨-, ⟨⟩⟩, rfl, rfl⟩)

theorem step_quiet (hwaiting : g.isWaiting = true) (h : t.isQuiet blank = true) :
    g.step t = g.hold t := by
  rcases step_cases g t with ⟨-, -, hstep⟩ | ⟨tag, rfl, -⟩ | ⟨hnot, -⟩
  · exact hstep
  · cases h
  · exact absurd ⟨hwaiting, h⟩ hnot

theorem step_content (hheld : ¬ (g.isWaiting = true ∧ t.isQuiet blank = true))
    (hcolumn : startsColumn t = false) : g.step t = g.content t := by
  rcases step_cases g t with ⟨hwaiting, hquiet, -⟩ | ⟨tag, rfl, htag, -⟩ | ⟨-, -, hstep⟩
  · exact absurd ⟨hwaiting, hquiet⟩ hheld
  · exact absurd (htag.symm.trans hcolumn) (by decide)
  · exact hstep

/-! ## States -/

/-- The states that the grid comes to, whatever it is given. -/
inductive Reachable : Grid → Prop where
  | fresh : Reachable {}
  | next {g next : Grid} {reply : Reply} (indent : String) (event : Event) (h : Reachable g)
      (hnext : (Stage.grid g).handle indent event = (.grid next, reply)) : Reachable next

/-- Only the innermost row can wait. Tokens are held while it does, and they are quiet. -/
structure Sound (g : Grid) : Prop where
  outer : Settled g.rows.tail
  waiting : g.held ≠ [] → g.isWaiting = true
  quiet : ∀ t ∈ g.held, t.isQuiet blank = true

theorem Sound.held_eq_nil (h : g.Sound) (hwaiting : g.isWaiting = false) : g.held = [] := by
  by_contra hheld
  rw [h.waiting hheld] at hwaiting
  cases hwaiting

/-- The innermost row waits, or none does and nothing is held. -/
theorem Sound.waiting_or_not (h : g.Sound) :
    (∃ outer, g.rows = .waiting :: outer ∧ Settled outer) ∨
      g.held = [] ∧ g.isWaiting = false ∧ Settled g.rows := by
  have houter := h.outer
  by_cases hwaiting : g.isWaiting = true
  · obtain ⟨outer, hrows⟩ := List.head?_eq_some_iff.1 (isWaiting_iff.1 hwaiting)
    rw [hrows] at houter
    exact .inl ⟨outer, hrows, houter⟩
  · have hnot := eq_false_of_ne_true hwaiting
    refine .inr ⟨h.held_eq_nil hnot, hnot, ?_⟩
    rw [isWaiting_iff] at hwaiting
    cases hrows : g.rows with
    | nil => exact List.forall_mem_nil _
    | cons row outer =>
      rw [hrows] at houter hwaiting
      exact List.forall_mem_cons.2 ⟨fun hrow => hwaiting (congrArg some hrow), houter⟩

/-- Behind the settled rows nothing waits and nothing is held. -/
theorem Sound.settle (h : g.Sound) :
    g.settle.1.held = [] ∧ Settled g.settle.1.rows := by
  rcases h.waiting_or_not with ⟨outer, hrows, houter⟩ | ⟨hheld, hnot, hrows⟩
  · rw [Grid.settle, hrows]
    exact ⟨rfl, List.forall_mem_cons.2 ⟨by decide, houter⟩⟩
  · rw [settle_eq_self hnot]
    exact ⟨hheld, hrows⟩

theorem rowsBehind_opens (h : startsRow t = true) (rows : List Row) :
    rowsBehind rows t = .waiting :: rows := by
  cases t with
  | startTag tag =>
    have hopens : tag.name = rowName ∧ tag.selfClosing = false := by
      simpa [startsRow] using h
    simp [rowsBehind, rowsAfter, hopens]
  | _ => cases h

theorem rowsBehind_subset (h : startsRow t = false) (rows : List Row) : rowsBehind rows t ⊆ rows := by
  cases t with
  | startTag tag =>
    have hopens : ¬ (tag.name = rowName ∧ ¬ tag.selfClosing) := by
      simpa [startsRow] using h
    rw [rowsBehind, rowsAfter, if_neg hopens]
    exact List.Subset.refl rows
  | endTag name =>
    rw [rowsBehind]
    split
    · exact List.drop_subset 1 rows
    · exact List.Subset.refl rows
  | _ => exact List.Subset.refl rows

theorem rowsBehind_tail (h : Settled rows) (t : Token) :
    Settled (rowsBehind rows t).tail := by
  intro row hrow
  cases hopens : startsRow t with
  | true =>
    rw [rowsBehind_opens hopens] at hrow
    exact h row hrow
  | false => exact h row (rowsBehind_subset hopens rows (List.mem_of_mem_tail hrow))

theorem sound_step (h : g.Sound) (t : Token) : (g.step t).1.Sound := by
  rcases step_cases g t with ⟨hwaiting, hquiet, hstep⟩ | ⟨tag, rfl, -, hstep⟩ | ⟨-, -, hstep⟩
  · rw [hstep]
    exact ⟨h.outer, fun _ => hwaiting,
      List.forall_mem_append.2 ⟨h.quiet, List.forall_mem_singleton.2 hquiet⟩⟩
  · rw [hstep]
    refine ⟨?_, fun hheld => absurd rfl hheld, List.forall_mem_nil _⟩
    change Settled (if tag.selfClosing then g.rows else fill g.rows).tail
    split
    · exact h.outer
    · rw [fill_tail]
      exact h.outer
  · obtain ⟨hheld, hrows⟩ := h.settle
    rw [hstep, content_eq]
    refine ⟨rowsBehind_tail hrows t, fun hne => absurd hheld hne, ?_⟩
    dsimp only
    rw [hheld]
    exact List.forall_mem_nil _

theorem sound_fresh : Sound {} :=
  ⟨List.forall_mem_nil _, fun h => absurd rfl h, List.forall_mem_nil _⟩

theorem Reachable.sound (h : g.Reachable) : g.Sound := by
  induction h with
  | fresh => exact sound_fresh
  | next _ event _ hnext ih =>
    cases event with
    | token t =>
      cases hnext
      exact sound_step ih t
    | finish =>
      cases hnext
      exact sound_fresh

theorem sound_expandAll (h : g.Sound) (tokens : List Token) : (g.expandAll tokens).1.Sound := by
  induction tokens generalizing g with
  | nil => exact h
  | cons t tokens ih => exact ih (sound_step h t)

/-! ## Rows around a row -/

/-- The same grid inside of other rows. -/
def inside (g : Grid) (outer : List Row) : Grid := ⟨g.rows ++ outer, g.held⟩

theorem head?_inside (houter : outer.head? ≠ some .waiting) :
    (rows ++ outer).head? = some .waiting ↔ rows.head? = some .waiting := by
  cases rows with
  | nil => exact iff_of_false houter (by rintro ⟨⟩)
  | cons row rows => exact Iff.rfl

theorem isWaiting_inside (g : Grid) (houter : outer.head? ≠ some .waiting) :
    (g.inside outer).isWaiting = g.isWaiting := by
  rw [Bool.eq_iff_iff, isWaiting_iff, isWaiting_iff]
  exact head?_inside houter

theorem fill_inside (rows : List Row) (houter : outer.head? ≠ some .waiting) :
    fill (rows ++ outer) = fill rows ++ outer := by
  cases rows with
  | nil =>
    cases outer with
    | nil => rfl
    | cons row outer =>
      cases row with
      | waiting => exact absurd rfl houter
      | filled => rfl
      | implied => rfl
  | cons row rows => cases row <;> rfl

theorem settle_inside (g : Grid) (houter : outer.head? ≠ some .waiting) :
    (g.inside outer).settle.1 = g.settle.1.inside outer ∧
      (g.inside outer).settle.2.tokens = g.settle.2.tokens := by
  by_cases hwaiting : g.rows.head? = some .waiting
  · obtain ⟨inner, hrows⟩ := List.head?_eq_some_iff.1 hwaiting
    simp [Grid.settle, inside, hrows]
  · rw [settle_of_not_waiting hwaiting,
      settle_of_not_waiting (fun h => hwaiting ((head?_inside houter).1 h))]
    exact ⟨rfl, rfl⟩

theorem length_settle (g : Grid) : g.settle.1.rows.length = g.rows.length := by
  unfold Grid.settle
  split
  · next outer hrows => rw [hrows]; rfl
  · rfl

theorem length_fill (rows : List Row) : (fill rows).length = rows.length := by
  unfold fill
  split <;> rfl

theorem length_rowsBehind (rows : List Row) (t : Token) :
    (rowsBehind rows t).length = t.countRows rows.length := by
  cases t with
  | startTag tag =>
    rw [rowsBehind, rowsAfter]
    by_cases hopens : tag.name = rowName ∧ tag.selfClosing = false <;>
      simp [hopens, Token.countRows, startsRow]
  | endTag name =>
    by_cases hname : name = rowName <;> simp [rowsBehind, Token.countRows, startsRow, hname]
  | _ => rfl

/-- The grid counts the rows that are open. -/
theorem length_step (g : Grid) (t : Token) :
    (g.step t).1.rows.length = t.countRows g.rows.length := by
  rcases step_cases g t with ⟨-, hquiet, hstep⟩ | ⟨tag, rfl, hcolumn, hstep⟩ | ⟨-, -, hstep⟩
  · rw [hstep, Token.countRows_keep (Token.keepsRows_of_quiet hquiet)]
    rfl
  · rw [hstep, Token.countRows_keep (Token.keepsRows_of_column hcolumn)]
    change (if tag.selfClosing then g.rows else fill g.rows).length = _
    split
    · rfl
    · exact length_fill g.rows
  · rw [hstep, content_eq, ← length_settle g]
    exact length_rowsBehind g.settle.1.rows t

theorem depthAfter_eq_some (h : t.depthAfter n = some m) :
    ¬ (t = .endTag rowName ∧ n = 0) ∧ t.countRows n = m := by
  unfold Token.depthAfter at h
  split at h
  · cases h
  · next hopen => exact ⟨hopen, Option.some.inj h⟩

theorem rowsBehind_inside (h : ¬ (t = .endTag rowName ∧ rows.length = 0)) (outer : List Row) :
    rowsBehind (rows ++ outer) t = rowsBehind rows t ++ outer ∧
      columnEnd (rows ++ outer) t = columnEnd rows t := by
  cases t with
  | startTag tag =>
    refine ⟨?_, rfl⟩
    rw [rowsBehind, rowsBehind, rowsAfter, rowsAfter]
    split <;> rfl
  | endTag name =>
    by_cases hname : name = rowName
    · subst hname
      have hne : rows ≠ [] := fun hnil => h ⟨rfl, List.length_eq_zero_iff.2 hnil⟩
      obtain ⟨row, rest, rfl⟩ := List.exists_cons_of_ne_nil hne
      exact ⟨rfl, rfl⟩
    · simp [rowsBehind, columnEnd, closeColumn, hname]
  | _ => exact ⟨rfl, rfl⟩

/-- Rows around the open ones change nothing, unless a token closes one of them. -/
theorem step_inside (g : Grid) (houter : outer.head? ≠ some .waiting)
    (h : ¬ (t = .endTag rowName ∧ g.rows.length = 0)) :
    ((g.inside outer).step t).1 = (g.step t).1.inside outer ∧
      ((g.inside outer).step t).2.tokens = (g.step t).2.tokens := by
  have hwaiting := isWaiting_inside g houter
  rcases step_cases g t with ⟨hw, hquiet, hstep⟩ | ⟨tag, rfl, hcolumn, hstep⟩ |
      ⟨hheld, hcolumn, hstep⟩
  · rw [hstep, step_quiet (hwaiting.trans hw) hquiet]
    exact ⟨rfl, rfl⟩
  · have hinside : (g.inside outer).step (.startTag tag) = (g.inside outer).column tag :=
      if_pos hcolumn
    rw [hstep, hinside]
    refine ⟨?_, rfl⟩
    simp only [Grid.column, inside, fill_inside _ houter]
    split <;> rfl
  · obtain ⟨hsettled, hsent⟩ := settle_inside g houter
    rw [← length_settle] at h
    obtain ⟨hrows, hend⟩ := rowsBehind_inside h outer
    rw [hstep, step_content (by rwa [hwaiting]) hcolumn, content_eq, content_eq, hsettled, hsent]
    exact ⟨congrArg (Grid.mk · _) hrows, by rw [inside, hend]⟩

theorem expandAll_inside (houter : outer.head? ≠ some .waiting)
    (h : tokens.foldlM Token.depthAfter g.rows.length = some n) :
    (g.inside outer).expandAll tokens =
        ((g.expandAll tokens).1.inside outer, (g.expandAll tokens).2) ∧
      (g.expandAll tokens).1.rows.length = n := by
  induction tokens generalizing g with
  | nil => exact ⟨rfl, Option.some.inj h⟩
  | cons t tokens ih =>
    rw [List.foldlM_cons] at h
    obtain ⟨m, ht, htokens⟩ := Option.bind_eq_some_iff.1 h
    obtain ⟨hopen, rfl⟩ := depthAfter_eq_some ht
    rw [← length_step] at htokens
    obtain ⟨hmore, hlength⟩ := ih htokens
    obtain ⟨hnext, hsent⟩ := step_inside g houter hopen
    refine ⟨?_, hlength⟩
    simp only [Grid.expandAll, hnext, hsent, hmore]

/-- Where the rows match up, a row goes through them as it was. -/
theorem expandAll_balanced (houter : outer.head? ≠ some .waiting) (h : RowBalanced body) :
    (⟨outer, []⟩ : Grid).expandAll body = (⟨outer, []⟩, (expandAll {} body).2) ∧
      (expandAll {} body).1 = {} := by
  obtain ⟨hinside, hlength⟩ := expandAll_inside (g := {}) houter h
  have hsound := sound_expandAll sound_fresh body
  have hfresh : (expandAll {} body).1 = {} := by
    have hrows := List.length_eq_zero_iff.1 hlength
    have hheld := hsound.held_eq_nil (by rw [isWaiting, hrows]; rfl)
    generalize (expandAll {} body).1 = last at hrows hheld
    cases last
    cases hrows
    cases hheld
    rfl
  rw [hfresh] at hinside
  exact ⟨hinside, hfresh⟩

/-! ## The start of a row -/

theorem step_fresh (h : t.isLead = true) : ({} : Grid).step t = ({}, { tokens := expand t }) := by
  rcases t.lead_cases h with hquiet | ⟨tag, rfl, hcolumn, hcloses⟩
  · cases t with
    | startTag tag => cases hquiet
    | endTag name => cases hquiet
    | _ => rfl
  · rw [Grid.step, if_pos hcolumn, Grid.column, hcloses]
    rfl

theorem expandAll_fresh (h : ∀ t ∈ lead, t.isLead = true) :
    expandAll {} lead = ({}, lead.flatMap expand) := by
  induction lead with
  | nil => rfl
  | cons t lead ih =>
    obtain ⟨ht, hlead⟩ := List.forall_mem_cons.1 h
    rw [Grid.expandAll, step_fresh ht]
    dsimp only
    rw [ih hlead, List.flatMap_cons]

theorem expand_quiet (h : t.isQuiet blank = true) : expand t = [t] := by
  cases t with
  | startTag tag => cases h
  | endTag name => cases h
  | _ => rfl

theorem flatMap_expand_quiet (h : ∀ t ∈ tokens, t.isQuiet blank = true) :
    tokens.flatMap expand = tokens := by
  have hsame : ∀ t ∈ tokens, expand t = [t] := fun t ht => expand_quiet (h t ht)
  rw [List.flatMap_congr hsame, List.flatMap_singleton']

theorem flatMap_expand_eq (tokens : List Token) :
    tokens.flatMap expand = (tokens.rdropWhile (Token.isQuiet blank)).flatMap expand ++
      tokens.rtakeWhile (Token.isQuiet blank) := by
  conv_lhs => rw [← List.rdropWhile_append_rtakeWhile (p := Token.isQuiet blank) (l := tokens)]
  rw [List.flatMap_append, flatMap_expand_quiet fun t ht => List.mem_rtakeWhile_imp ht]

/-- At the start of a row, what stands behind the last column is held, and the rest is sent. -/
theorem expandAll_lead (h : ∀ t ∈ lead, t.isLead = true) :
    (⟨.waiting :: outer, []⟩ : Grid).expandAll lead =
      (⟨.waiting :: outer, lead.rtakeWhile (Token.isQuiet blank)⟩,
        (lead.rdropWhile (Token.isQuiet blank)).flatMap expand) := by
  induction lead using List.reverseRecOn with
  | nil => rfl
  | append_singleton lead t ih =>
    obtain ⟨hlead, ht⟩ := List.forall_mem_append.1 h
    rw [List.forall_mem_singleton] at ht
    rw [expandAll_append, ih hlead]
    rcases t.lead_cases ht with hquiet | ⟨tag, rfl, hcolumn, hcloses⟩
    · have hwaiting (held : List Token) : (⟨.waiting :: outer, held⟩ : Grid).isWaiting = true := rfl
      rw [List.rtakeWhile_concat_pos _ _ _ hquiet, List.rdropWhile_concat_pos _ _ _ hquiet]
      simp [Grid.expandAll, step_quiet (hwaiting _) hquiet, Grid.hold]
    · have hquiet : ¬ Token.isQuiet blank (.startTag tag) = true := by rintro ⟨⟩
      have hstep (g : Grid) : g.step (.startTag tag) = g.column tag := if_pos hcolumn
      rw [List.rtakeWhile_concat_neg _ _ _ hquiet, List.rdropWhile_concat_neg _ _ _ hquiet]
      simp [Grid.expandAll, hstep, Grid.column, hcloses, expand, flatMap_expand_eq lead]

/-- A column fills the row, and what was held stands in front of it. -/
theorem expandAll_column (hcolumn : isColumn tag.name = true) (hopens : tag.selfClosing = false) :
    g.expandAll (.startTag tag :: tokens) =
      (((⟨fill g.rows, []⟩ : Grid).expandAll tokens).1,
        g.held ++ expandStart tag ++ ((⟨fill g.rows, []⟩ : Grid).expandAll tokens).2) := by
  have hstep : g.step (.startTag tag) = g.column tag := if_pos hcolumn
  rw [Grid.expandAll, hstep, Grid.column, hopens]
  rfl

/-- Content other than a column gives the row its implied column, with what was held inside. -/
theorem expandAll_settles {held : List Token} (hlead : t.isLead = false)
    (hcolumn : startsColumn t = false) :
    (⟨.waiting :: outer, held⟩ : Grid).expandAll (t :: tokens) =
      (((⟨.implied :: outer, []⟩ : Grid).expandAll (t :: tokens)).1,
        impliedColumn :: held ++ ((⟨.implied :: outer, []⟩ : Grid).expandAll (t :: tokens)).2) := by
  have hcontent (g : Grid) : g.step t = g.content t :=
    step_content (fun h => Token.not_quiet hlead h.2) hcolumn
  simp only [Grid.expandAll, hcontent, content_eq, Grid.settle]
  simp

/-- The end of a row, with the end of its column if that was implied. -/
theorem step_endRow {row : Row} (hrow : row ≠ .waiting) :
    (⟨row :: outer, []⟩ : Grid).step (.endTag rowName) =
      (⟨outer, []⟩,
        { tokens := if row = .implied then [.endTag element, .endTag element]
            else [.endTag element] }) := by
  have hgrid : isGrid rowName = true := by decide
  cases row with
  | waiting => exact absurd rfl hrow
  | filled => simp [Grid.step, Grid.content, Grid.settle, closeColumn, expandEnd, hgrid]
  | implied => simp [Grid.step, Grid.content, Grid.settle, closeColumn, expandEnd, hgrid]

/-- The content of a row that does not wait, and the end of the row. -/
theorem expandAll_toEnd {row : Row} (hrow : row ≠ .waiting) (h : RowBalanced body) :
    (⟨row :: outer, []⟩ : Grid).expandAll (body ++ [.endTag rowName]) =
      (⟨outer, []⟩, (expandAll {} body).2 ++
        if row = .implied then [.endTag element, .endTag element] else [.endTag element]) := by
  have houter : (row :: outer).head? ≠ some .waiting := fun hhead => hrow (Option.some.inj hhead)
  rw [expandAll_append, (expandAll_balanced houter h).1]
  simp [Grid.expandAll, step_endRow hrow]

/-! ## Whole rows -/

theorem foldlM_lead (h : ∀ t ∈ lead, t.isLead = true) (n : Nat) :
    lead.foldlM Token.depthAfter n = some n := by
  induction lead with
  | nil => rfl
  | cons t lead ih =>
    obtain ⟨ht, hlead⟩ := List.forall_mem_cons.1 h
    rw [List.foldlM_cons, Token.depthAfter_keep (Token.keepsRows_of_lead ht)]
    exact ih hlead

theorem expandAll_held (h : ∀ t ∈ lead, t.isQuiet blank = true) (rest : List Token) :
    (expandAll {} (lead ++ rest)).2 = lead ++ (expandAll {} rest).2 := by
  have hlead : ∀ t ∈ lead, t.isLead = true := fun t ht => Token.lead_of_quiet (h t ht)
  rw [expandAll_append, expandAll_fresh hlead, flatMap_expand_quiet h]

/-- A row that waits is filled by a column, and what was held stands in front of the column. -/
theorem expandAll_filled (hlead : ∀ t ∈ lead, t.isLead = true) (hcolumn : isColumn tag.name = true)
    (hopens : tag.selfClosing = false) (hrest : RowBalanced (.startTag tag :: rest)) :
    (⟨.waiting :: outer, []⟩ : Grid).expandAll
        (lead ++ (.startTag tag :: rest ++ [.endTag rowName])) =
      (⟨outer, []⟩, (expandAll {} (lead ++ .startTag tag :: rest)).2 ++ [.endTag element]) := by
  rw [RowBalanced, List.foldlM_cons,
    Token.depthAfter_keep (Token.keepsRows_of_column hcolumn)] at hrest
  have hfresh : (expandAll {} (lead ++ .startTag tag :: rest)).2 =
      lead.flatMap expand ++ (expandStart tag ++ (expandAll {} rest).2) := by
    rw [expandAll_append, expandAll_fresh hlead, expandAll_column hcolumn hopens]
    rfl
  have hfill : fill (.waiting :: outer) = .filled :: outer := rfl
  rw [expandAll_append, expandAll_lead hlead, List.cons_append, expandAll_column hcolumn hopens,
    hfill, expandAll_toEnd (by decide) hrest, hfresh, flatMap_expand_eq lead]
  simp

/-- A row that waits gets its implied column from other content or from its end. What was held stands
inside of the column. -/
theorem expandAll_implied (hlead : ∀ t ∈ lead, t.isLead = true)
    (hdecides : ∀ t ∈ rest.head?, t.isLead = false)
    (hcontent : rest.head?.any startsColumn = false) (hrest : RowBalanced rest) :
    (⟨.waiting :: outer, []⟩ : Grid).expandAll (lead ++ (rest ++ [.endTag rowName])) =
      (⟨outer, []⟩,
        (expandAll {} (lead.rdropWhile (Token.isQuiet blank))).2 ++ impliedColumn ::
          (expandAll {} (lead.rtakeWhile (Token.isQuiet blank) ++ rest)).2 ++
            [.endTag element, .endTag element]) := by
  have hbefore : ∀ t ∈ lead.rdropWhile (Token.isQuiet blank), t.isLead = true :=
    fun t ht => hlead t ((List.rdropWhile_prefix _ _).subset ht)
  have hheld : ∀ t ∈ lead.rtakeWhile (Token.isQuiet blank), t.isQuiet blank = true :=
    fun t ht => List.mem_rtakeWhile_imp ht
  obtain ⟨t, more, hnext, ht, hcolumn⟩ : ∃ t more, rest ++ [.endTag rowName] = t :: more ∧
      t.isLead = false ∧ startsColumn t = false := by
    cases rest with
    | nil => exact ⟨_, _, rfl, rfl, rfl⟩
    | cons t more => exact ⟨t, _, rfl, hdecides t rfl, hcontent⟩
  rw [expandAll_append, expandAll_lead hlead, hnext, expandAll_settles ht hcolumn, ← hnext,
    expandAll_toEnd (by decide) hrest, expandAll_fresh hbefore, expandAll_held hheld]
  simp

/-- A row that waits becomes what its content becomes. The content is given in two parts: what leads
it, and the rest, from the token on that decides about the column. -/
theorem expandAll_waiting (hlead : ∀ t ∈ lead, t.isLead = true)
    (hdecides : ∀ t ∈ rest.head?, t.isLead = false) (hrest : RowBalanced rest) :
    (⟨.waiting :: outer, []⟩ : Grid).expandAll (lead ++ (rest ++ [.endTag rowName])) =
      (⟨outer, []⟩,
        if rest.head?.any startsColumn then
          (expandAll {} (lead ++ rest)).2 ++ [.endTag element]
        else
          (expandAll {} (lead.rdropWhile (Token.isQuiet blank))).2 ++ impliedColumn ::
            (expandAll {} (lead.rtakeWhile (Token.isQuiet blank) ++ rest)).2 ++
              [.endTag element, .endTag element]) := by
  cases hcolumn : rest.head?.any startsColumn with
  | true =>
    obtain ⟨tag, more, rfl⟩ : ∃ tag more, rest = .startTag tag :: more := by
      match rest, hcolumn with
      | .startTag tag :: more, _ => exact ⟨tag, more, rfl⟩
    have htag : isColumn tag.name = true := hcolumn
    have hopens := (Token.isLead_column htag).symm.trans (hdecides (.startTag tag) rfl)
    exact expandAll_filled hlead htag hopens hrest
  | false => exact expandAll_implied hlead hdecides hcolumn hrest

/-- A row becomes its own tag and what its content becomes on its own. Unless a column comes first,
the content stands in an implied column, apart from the columns that close themselves in front of it
and what stands before them. -/
theorem expandAll_row {g : Grid} {row : StartTag} (hg : g.Reachable)
    (hwaiting : g.isWaiting = false) (hname : row.name = rowName)
    (hopens : row.selfClosing = false) (hbody : RowBalanced body) :
    let lead := body.takeWhile Token.isLead
    let rest := body.dropWhile Token.isLead
    let before := lead.rdropWhile (Token.isQuiet blank)
    let held := lead.rtakeWhile (Token.isQuiet blank)
    let fresh (tokens : List Token) := (expandAll {} tokens).2
    g.expandAll (.startTag row :: (body ++ [.endTag rowName])) =
      (g, .startTag (expandTag row) ::
        if rest.head?.any startsColumn then fresh body ++ [.endTag element]
        else
          fresh before ++ impliedColumn :: fresh (held ++ rest) ++
            [.endTag element, .endTag element]) := by
  intro lead rest before held fresh
  have hlead : ∀ t ∈ lead, t.isLead = true := fun t ht => List.mem_takeWhile_imp ht
  have hrest : RowBalanced rest := by
    rw [RowBalanced, ← List.takeWhile_append_dropWhile (p := Token.isLead) (l := body),
      List.foldlM_append, foldlM_lead hlead] at hbody
    exact hbody
  -- The start tag opens a row that waits, and what leads its content leaves it waiting.
  have hstart : g.step (.startTag row) =
      (⟨.waiting :: g.rows, []⟩, { tokens := [.startTag (expandTag row)] }) := by
    have hcolumn : startsColumn (.startTag row) = false := by
      rw [startsColumn, hname, isColumn_rowName]
    rw [step_content (by rintro ⟨-, ⟨⟩⟩) hcolumn, content_eq, settle_eq_self hwaiting]
    simp [rowsBehind, rowsAfter, columnEnd, expand, expandStart, closing, hname, hopens,
      hg.sound.held_eq_nil hwaiting]
  have hdecides : ∀ t ∈ rest.head?, t.isLead = false := by
    intro t ht
    have hhead := List.head?_dropWhile_not Token.isLead body
    rw [Option.mem_def.1 ht] at hhead
    simpa using hhead
  have hsplit : body ++ [.endTag rowName] = lead ++ (rest ++ [.endTag rowName]) := by
    rw [← List.append_assoc, List.takeWhile_append_dropWhile]
  rw [Grid.expandAll, hstart, hsplit]
  dsimp only
  rw [expandAll_waiting hlead hdecides hrest, List.takeWhile_append_dropWhile]
  obtain ⟨rows, _⟩ := g
  cases hg.sound.held_eq_nil hwaiting
  rfl

/-- A column that closes itself, something held, an element and a row with a column. -/
def rowBody : List Token :=
  [.text "\n  ", .startTag ⟨"c2", [], true⟩, .comment "held", .startTag ⟨"b", [], false⟩,
    .startTag ⟨"r", [], false⟩, .text " ", .startTag ⟨"c", [], false⟩, .endTag "c", .endTag "r",
    .endTag "b"]

theorem expandAll_row_implied :
    Reachable ⟨[.filled], []⟩ ∧ RowBalanced rowBody ∧
      (⟨[.filled], []⟩ : Grid).expandAll
          (.startTag ⟨"r", [⟨"id", some "x"⟩], false⟩ :: (rowBody ++ [.endTag "r"])) =
        (⟨[.filled], []⟩,
          [.startTag ⟨"div", [⟨"id", some "x"⟩, ⟨"class", some "row"⟩], false⟩, .text "\n  ",
            .startTag ⟨"div", [⟨"class", some "col-md-2"⟩], false⟩, .endTag "div", impliedColumn,
            .comment "held", .startTag ⟨"b", [], false⟩,
            .startTag ⟨"div", [⟨"class", some "row"⟩], false⟩, .text " ",
            .startTag ⟨"div", [⟨"class", some "col-md-1"⟩], false⟩, .endTag "div", .endTag "div",
            .endTag "b", .endTag "div", .endTag "div"]) := by
  have hreachable : Reachable ⟨[.filled], []⟩ :=
    .next "" (.token (.startTag ⟨"c", [], false⟩))
      (.next "" (.token (.startTag ⟨"r", [], false⟩)) .fresh rfl) rfl
  have hbody : RowBalanced rowBody := by decide
  exact ⟨hreachable, hbody,
    (expandAll_row hreachable (by decide) (by decide) (by decide) hbody).trans (by decide)⟩

end Grid

end GridMarkup
