import GridMarkup.Proofs.Passes
import GridMarkup.Proofs.Search
import GridMarkup.Resource.Conditional

/-!
# The frame of a conditional comment

A conditional comment has a frame around its body: blanks and a condition in front, blanks and a
mark behind. There is at most one way to see a text so, and the reader finds it.
-/

namespace GridMarkup.Resource

open Text

/-- The parts of a conditional comment, without its marks. -/
structure Frame where
  lead : List Char
  condition : List Char
  body : List Char
  gap : List Char
  tail : List Char
  deriving DecidableEq, Repr

namespace Frame

def opening (f : Frame) : List Char := f.lead ++ "[if ".toList ++ f.condition ++ "]>".toList

def closing (f : Frame) : List Char := f.gap ++ "<![endif]".toList ++ f.tail

/-- The text has these parts. -/
structure Splits (f : Frame) (s : List Char) : Prop where
  source : s = f.opening ++ f.body ++ f.closing
  lead : AllBlank f.lead
  condition : ']' ∉ f.condition
  body : ∀ c ∈ f.body.getLast?, isBlank c = false
  gap : AllBlank f.gap
  tail : AllBlank f.tail

end Frame

variable {f g : Frame} {s t rest opening : List Char}

/-! ## Blanks at both ends -/

theorem allBlank_leadingBlanks (s : List Char) : AllBlank (leadingBlanks s) :=
  fun _ hc => List.mem_takeWhile_imp hc

theorem allBlank_trailing (s : List Char) : AllBlank (trailing isBlank s) := by
  intro c hc
  rw [trailing, List.mem_reverse] at hc
  exact List.mem_takeWhile_imp hc

theorem getLast?_trimEnd (s : List Char) : ∀ c ∈ (trimEnd s).getLast?, isBlank c = false := by
  intro c hc
  rw [trimEnd, List.getLast?_reverse] at hc
  have hhead := List.head?_dropWhile_not isBlank s.reverse
  rw [hc] at hhead
  exact hhead

theorem leadingBlanks_append (ht : AllBlank t) (hs : ∀ c ∈ s.head?, isBlank c = false) :
    leadingBlanks (t ++ s) = t ∧ trimStart (t ++ s) = s := by
  rw [leadingBlanks, trimStart, List.takeWhile_append_of_pos ht, List.dropWhile_append_of_pos ht]
  cases s with
  | nil => simp
  | cons c s => simp [hs c rfl]

theorem trimEnd_append (hs : ∀ c ∈ s.getLast?, isBlank c = false) (ht : AllBlank t) :
    trimEnd (s ++ t) = s ∧ trailing isBlank (s ++ t) = t := by
  have hreverse : AllBlank t.reverse := fun c hc => ht c (List.mem_reverse.1 hc)
  obtain ⟨hblanks, hrest⟩ := leadingBlanks_append hreverse (s := s.reverse) (by simpa using hs)
  unfold leadingBlanks at hblanks
  unfold trimStart at hrest
  rw [trimEnd, trailing, List.reverse_append, hblanks, hrest, List.reverse_reverse,
    List.reverse_reverse]
  exact ⟨rfl, rfl⟩

/-! ## Reading the frame -/

theorem stripEnd?_eq_some_iff {mark : List Char} : stripEnd? mark s = some t ↔ s = t ++ mark := by
  simp only [stripEnd?, Option.map_eq_some_iff, strip?_eq_some_iff]
  constructor
  · rintro ⟨r, hr, rfl⟩
    simpa using congrArg List.reverse hr
  · rintro rfl
    exact ⟨t.reverse, by simp, by simp⟩

namespace Frame

theorem Splits.start (h : f.Splits s) :
    leadingBlanks s = f.lead ∧
      trimStart s = "[if ".toList ++ (f.condition ++ ']' :: '>' :: (f.body ++ f.closing)) := by
  have hsource : s = f.lead ++
      ("[if ".toList ++ (f.condition ++ ']' :: '>' :: (f.body ++ f.closing))) := by
    rw [h.source]
    simp [opening]
  rw [hsource]
  refine leadingBlanks_append h.lead ?_
  rintro c ⟨⟩
  decide

theorem leadingBlanks_closing (h : f.Splits s) : leadingBlanks f.closing = f.gap := by
  rw [closing, List.append_assoc]
  refine (leadingBlanks_append h.gap ?_).1
  rintro c ⟨⟩
  decide

theorem Splits.conditionalOpening? (h : f.Splits s) :
    conditionalOpening? s = some (f.opening, f.body ++ f.closing) := by
  obtain ⟨hblanks, hstart⟩ := h.start
  have hcondition : ∀ c ∈ f.condition, (c != ']') = true := by
    intro c hc
    rw [bne_iff_ne]
    rintro rfl
    exact h.condition hc
  have hstop : (']' != ']') = false := by decide
  rw [Resource.conditionalOpening?, hblanks, hstart, strip?_append]
  dsimp only
  rw [takeWhile_append_stop hcondition hstop, dropWhile_append_stop hcondition hstop]
  rfl

theorem Splits.ofComment? (h : f.Splits s) :
    Conditional.ofComment? s = some ⟨f.opening, f.body, f.closing⟩ := by
  have hmark : ∀ c ∈ (f.body ++ f.gap ++ "<![endif]".toList).getLast?, isBlank c = false := by
    rw [List.getLast?_append]
    rintro c ⟨⟩
    decide
  have hrest : f.body ++ f.closing = f.body ++ f.gap ++ "<![endif]".toList ++ f.tail := by
    simp [closing]
  obtain ⟨hbody, hgap⟩ := trimEnd_append h.body h.gap
  obtain ⟨hinner, htail⟩ := trimEnd_append hmark h.tail
  rw [Conditional.ofComment?, h.conditionalOpening?]
  dsimp only
  rw [hrest, hinner, htail, stripEnd?_eq_some_iff.2 rfl, Option.map_some, hbody, hgap]
  rfl

end Frame

/-- Behind an opening stands the rest of the text. -/
theorem conditionalOpening?_eq_some (h : conditionalOpening? s = some (opening, rest)) :
    ∃ condition, ']' ∉ condition ∧ s = opening ++ rest ∧
      opening = leadingBlanks s ++ "[if ".toList ++ condition ++ "]>".toList := by
  unfold conditionalOpening? at h
  split at h
  · cases h
  · next after hif =>
    obtain ⟨tail, htail, heq⟩ := Option.map_eq_some_iff.1 h
    cases heq
    refine ⟨after.takeWhile (· != ']'), ?_, ?_, rfl⟩
    · intro hmem
      simpa using List.mem_takeWhile_imp hmem
    · have hstart := leadingBlanks_append_trimStart s
      rw [strip?_eq_some_iff.1 hif] at hstart
      have hafter := List.takeWhile_append_dropWhile (p := (· != ']')) (l := after)
      rw [strip?_eq_some_iff.1 htail] at hafter
      simp only [List.append_assoc]
      rw [hafter, hstart]

theorem exists_splits {c : Conditional} (h : Conditional.ofComment? s = some c) :
    ∃ f : Frame, f.Splits s ∧ c = ⟨f.opening, f.body, f.closing⟩ := by
  unfold Conditional.ofComment? at h
  split at h
  · cases h
  · next opening rest hopening =>
    obtain ⟨inner, hinner, rfl⟩ := Option.map_eq_some_iff.1 h
    obtain ⟨condition, hcondition, hs, rfl⟩ := conditionalOpening?_eq_some hopening
    refine ⟨⟨leadingBlanks s, condition, trimEnd inner, trailing isBlank inner,
      trailing isBlank rest⟩, ?_, rfl⟩
    have hrest : rest = trimEnd inner ++ (trailing isBlank inner ++ "<![endif]".toList ++
        trailing isBlank rest) := by
      conv_lhs =>
        rw [← trimEnd_append_trailing rest, stripEnd?_eq_some_iff.1 hinner,
          ← trimEnd_append_trailing inner]
      simp only [List.append_assoc]
    refine ⟨?_, allBlank_leadingBlanks s, hcondition, getLast?_trimEnd inner,
      allBlank_trailing inner, allBlank_trailing rest⟩
    rw [List.append_assoc]
    conv_lhs => rw [hs, hrest]
    rfl

/-- A text has at most one frame. -/
theorem Frame.Splits.unique (h : f.Splits s) (h' : g.Splits s) : f = g := by
  have hframe := h.ofComment?.symm.trans h'.ofComment?
  rw [Option.some_inj, Conditional.mk.injEq] at hframe
  obtain ⟨hopening, hbody, hclosing⟩ := hframe
  have hlead : f.lead = g.lead := h.start.1.symm.trans h'.start.1
  have hcondition : f.condition = g.condition := by
    rw [opening, opening, hlead] at hopening
    simpa using hopening
  have hgap : f.gap = g.gap := by
    rw [← leadingBlanks_closing h, hclosing, leadingBlanks_closing h']
  have htail : f.tail = g.tail := by
    rw [closing, closing, hgap] at hclosing
    exact List.append_cancel_left hclosing
  cases f
  cases g
  rw [Frame.mk.injEq]
  exact ⟨hlead, hcondition, hbody, hgap, htail⟩

end GridMarkup.Resource
