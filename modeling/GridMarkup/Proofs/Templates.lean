import GridMarkup.Proofs.Rules
import Mathlib.Data.List.TakeWhile

/-!
# Templates

The rules as a table of patterns and templates. In a template the name of a group stands in braces
where a name of a class has what the group captured. A compound rule fills its template twice: first
from each part of the list, and then from the attribute's name. The classes of a rule are the names
that its entry in the table makes.
-/

namespace GridMarkup

/-! ## Replacing -/

namespace Text

/-- Puts a value in the place of each mark. The first `skip` characters belong to a mark that was
replaced before. -/
def replaceFrom (mark value : List Char) : Nat → List Char → List Char
  | _, [] => []
  | skip + 1, _ :: s => replaceFrom mark value skip s
  | 0, c :: s =>
    if startsWith mark (c :: s) then value ++ replaceFrom mark value (mark.length - 1) s
    else c :: replaceFrom mark value 0 s

variable {mark value s : List Char}

theorem replaceFrom_skip (front rest : List Char) :
    replaceFrom mark value front.length (front ++ rest) = replaceFrom mark value 0 rest := by
  induction front with
  | nil => rfl
  | cons c front ih => exact ih

theorem replaceFrom_mark {c : Char} (rest : List Char) :
    replaceFrom (c :: mark) value 0 (c :: mark ++ rest) =
      value ++ replaceFrom (c :: mark) value 0 rest := by
  have hstarts : startsWith (c :: mark) (c :: (mark ++ rest)) = true :=
    startsWith_iff.2 (List.prefix_append (c :: mark) rest)
  rw [List.cons_append, replaceFrom, if_pos hstarts]
  exact congrArg (value ++ ·) (replaceFrom_skip mark rest)

/-- Nothing is replaced where no mark can start. -/
theorem replaceFrom_append {c : Char} (hs : c ∉ s) (rest : List Char) :
    replaceFrom (c :: mark) value 0 (s ++ rest) = s ++ replaceFrom (c :: mark) value 0 rest := by
  induction s with
  | nil => rfl
  | cons d s ih =>
    obtain ⟨hd, hs⟩ := not_or.1 (List.mem_cons.not.1 hs)
    have hstarts : ¬ startsWith (c :: mark) (d :: (s ++ rest)) = true := by
      rw [startsWith_iff, List.cons_prefix_cons]
      exact fun h => hd h.1
    rw [List.cons_append, replaceFrom, if_neg hstarts, ih hs, List.cons_append]

/-- Texts end at the same place if it is the first of its character in both. -/
theorem append_cons_inj {c : Char} {rest rest' s' : List Char} (hs : c ∉ s) (hs' : c ∉ s')
    (h : s ++ c :: rest = s' ++ c :: rest') : s = s' := by
  have hfront {s rest : List Char} (hs : c ∉ s) : (s ++ c :: rest).takeWhile (· != c) = s :=
    takeWhile_append_stop (fun d hd => bne_iff_ne.2 fun heq => hs (heq ▸ hd)) (bne_self_eq_false c)
  rw [← hfront hs, h, hfront hs']

theorem trim_of_unblank (h : ∀ c ∈ s, isBlank c = false) : trim s = s := by
  have hdrop : ∀ s : List Char, (∀ c ∈ s, isBlank c = false) → s.dropWhile isBlank = s := by
    intro s hs
    cases s with
    | nil => rfl
    | cons c s => rw [List.dropWhile_cons_of_neg (by simp [hs c List.mem_cons_self])]
  have hreverse : ∀ c ∈ s.reverse, isBlank c = false := fun c hc => h c (List.mem_reverse.1 hc)
  rw [trim, trimStart, hdrop s h, trimEnd, hdrop _ hreverse, List.reverse_reverse]

end Text

namespace ClassName

open Text

/-! ## Patterns -/

/-- What the groups of a pattern captured, in their order. -/
abbrev Captures := List (List Char)

/-- A word is passed over. One of some words, or a run without blanks, is captured. -/
inductive Piece where
  | word (text : String)
  | oneOf (words : List String)
  | run

/-- A pattern is for a whole text. The first of some words is taken that lets the rest fit. A run is
taken whole: it is the last piece, so giving some of it back would not help. -/
def matches? : List Piece → List Char → Option Captures
  | [], s => if s = [] then some [] else none
  | .word text :: pattern, s => (strip? text.toList s).bind (matches? pattern)
  | .oneOf words :: pattern, s => words.findSome? fun word =>
    ((strip? word.toList s).bind (matches? pattern)).map (word.toList :: ·)
  | .run :: pattern, s =>
    let front := s.takeWhile fun c => !isBlank c
    if front = [] then none
    else (matches? pattern (s.dropWhile fun c => !isBlank c)).map (front :: ·)

/-! ## Entries -/

def placeholder (group : String) : List Char := '\x7b' :: (group.toList ++ ['\x7d'])

/-- Puts one value after the other in the place of its name. -/
def fillIn (values : List (String × List Char)) (template : List Char) : List Char :=
  values.foldl (fun s (group, value) => replaceFrom (placeholder group) value 0 s) template

/-- Puts what each group captured in the place of its name. -/
def render (template : List Char) (groups : List String) (captures : Captures) : List Char :=
  fillIn (groups.zip captures) template

/-- The pattern for each part of a list. -/
structure Modifier where
  pattern : List Piece
  groups : List String

/-- A rule as the table has it. It is compound if there is a pattern for the parts of a list. -/
structure Entry where
  pattern : List Piece
  groups : List String
  modifier : Option Modifier := none
  template : String

/-- The group that captures a list. -/
def partsGroup : String := "parts"

/-- The template for the groups of the whole name: once, or for each part that the modifier
knows. -/
def Entry.drafts? (e : Entry) (captures : Captures) : Option (List (List Char)) :=
  match e.modifier with
  | none => some [e.template.toList]
  | some m => ((e.groups.zip captures).lookup partsGroup).map fun parts =>
    ((splitWhere (· == '-') (trim parts)).filterMap (matches? m.pattern)).map
      (render e.template.toList m.groups)

/-- The class names that an attribute of this name stands for. -/
def Entry.names? (e : Entry) (name : List Char) : Option (List String) :=
  (matches? e.pattern name).bind fun captures =>
    (e.drafts? captures).map (·.map fun s => String.ofList (render s e.groups captures))

/-! ## The table -/

def screens : Piece := .oneOf (Screen.all.map Screen.text)

def displays : Piece := .oneOf (Display.all.map Display.text)

def shifts : Piece := .oneOf (Shift.all.map Shift.text)

/-- The numbers from `low` to twelve. -/
def numbers (low : Nat) : Piece := .oneOf ((List.range' low (13 - low)).map toString)

def Rule.entry : Rule → Entry
  | .visible =>
    { pattern := [.word "visible-", displays]
      groups := ["cssDisplay"]
      template := "visible-md-{cssDisplay}" }
  | .visibleOn =>
    { pattern := [.word "visible-", displays, .word ":", .run]
      groups := ["cssDisplay", partsGroup]
      modifier := some { pattern := [screens], groups := ["screenSize"] }
      template := "visible-{screenSize}-{cssDisplay}" }
  | .hidden => { pattern := [.word "hidden"], groups := [], template := "hidden-md" }
  | .hiddenOn =>
    { pattern := [.word "hidden", .word ":", .run]
      groups := [partsGroup]
      modifier := some { pattern := [screens], groups := ["screenSize"] }
      template := "hidden-{screenSize}" }
  | .size =>
    { pattern := [screens, numbers 1]
      groups := ["screenSize", "size"]
      template := "col-{screenSize}-{size}" }
  | .sizeOn =>
    { pattern := [.word "size", .word ":", .run]
      groups := [partsGroup]
      modifier := some { pattern := [screens, numbers 1], groups := ["screenSize", "size"] }
      template := "col-{screenSize}-{size}" }
  | .shift =>
    { pattern := [shifts, numbers 0]
      groups := ["name", "size"]
      template := "col-md-{name}-{size}" }
  | .shiftOn =>
    { pattern := [shifts, .word ":", .run]
      groups := ["name", partsGroup]
      modifier := some { pattern := [screens, numbers 0], groups := ["screenSize", "size"] }
      template := "col-{screenSize}-{name}-{size}" }

theorem Rule.isCompound_eq (rule : Rule) : rule.isCompound = rule.entry.modifier.isSome := by
  cases rule <;> rfl

/-! ## What fits a pattern -/

/-- The text consists of the pieces of the pattern, with these captures. -/
def Fits : List Piece → List Char → Captures → Prop
  | [], s, captures => s = [] ∧ captures = []
  | .word text :: pattern, s, captures =>
    ∃ rest, s = text.toList ++ rest ∧ Fits pattern rest captures
  | .oneOf words :: pattern, s, captures => ∃ word ∈ words, ∃ rest later,
    s = word.toList ++ rest ∧ captures = word.toList :: later ∧ Fits pattern rest later
  | .run :: pattern, s, captures => ∃ later, (s.takeWhile fun c => !isBlank c) ≠ [] ∧
    captures = (s.takeWhile fun c => !isBlank c) :: later ∧
      Fits pattern (s.dropWhile fun c => !isBlank c) later

variable {pattern front : List Piece} {s name : List Char} {captures : Captures}

theorem fits_of_matches? (h : matches? pattern s = some captures) : Fits pattern s captures := by
  induction pattern generalizing s captures with
  | nil =>
    unfold matches? at h
    split at h
    · next hs =>
      cases h
      exact ⟨hs, rfl⟩
    · cases h
  | cons piece pattern ih =>
    cases piece with
    | word text =>
      obtain ⟨rest, hrest, h⟩ := Option.bind_eq_some_iff.1 h
      exact ⟨rest, strip?_eq_some_iff.1 hrest, ih h⟩
    | oneOf words =>
      obtain ⟨word, hword, h⟩ := List.exists_of_findSome?_eq_some h
      obtain ⟨later, hlater, rfl⟩ := Option.map_eq_some_iff.1 h
      obtain ⟨rest, hrest, hlater⟩ := Option.bind_eq_some_iff.1 hlater
      exact ⟨word, hword, rest, later, strip?_eq_some_iff.1 hrest, rfl, ih hlater⟩
    | run =>
      simp only [matches?] at h
      split at h
      · cases h
      · next hfront =>
        obtain ⟨later, hlater, rfl⟩ := Option.map_eq_some_iff.1 h
        exact ⟨later, hfront, rfl, ih hlater⟩

theorem matches?_isSome (h : Fits pattern s captures) : (matches? pattern s).isSome := by
  induction pattern generalizing s captures with
  | nil => simp [matches?, h.1]
  | cons piece pattern ih =>
    cases piece with
    | word text =>
      obtain ⟨rest, rfl, h⟩ := h
      rw [matches?, strip?_append]
      exact ih h
    | oneOf words =>
      obtain ⟨word, hword, rest, later, rfl, -, h⟩ := h
      rw [matches?, List.findSome?_isSome_iff]
      refine ⟨word, hword, ?_⟩
      rw [strip?_append, Option.isSome_map]
      exact ih h
    | run =>
      obtain ⟨later, hfront, -, h⟩ := h
      simp only [matches?]
      rw [if_neg hfront, Option.isSome_map]
      exact ih h

/-- Where a text fits in one way, it is told by what fits. -/
theorem matches?_eq {found : Option Captures}
    (h : ∀ captures, Fits pattern s captures ↔ found = some captures) :
    matches? pattern s = found := by
  cases hmatch : matches? pattern s with
  | some captures => exact ((h captures).1 (fits_of_matches? hmatch)).symm
  | none =>
    cases found with
    | none => rfl
    | some captures =>
      have hsome := matches?_isSome ((h captures).2 rfl)
      rw [hmatch] at hsome
      cases hsome

theorem fits_append (hfront : ∀ piece ∈ front, piece ≠ .run) :
    Fits (front ++ pattern) s captures ↔ ∃ before after first later, s = before ++ after ∧
      captures = first ++ later ∧ Fits front before first ∧ Fits pattern after later := by
  induction front generalizing s captures with
  | nil =>
    constructor
    · exact fun h => ⟨[], s, [], captures, rfl, rfl, ⟨rfl, rfl⟩, h⟩
    · rintro ⟨_, after, _, later, rfl, rfl, ⟨rfl, rfl⟩, h⟩
      exact h
  | cons piece front ih =>
    obtain ⟨hpiece, hrest⟩ := List.forall_mem_cons.1 hfront
    cases piece with
    | word text =>
      constructor
      · rintro ⟨_, rfl, h⟩
        obtain ⟨before, after, first, later, rfl, rfl, hbefore, hafter⟩ := (ih hrest).1 h
        exact ⟨text.toList ++ before, after, first, later, by simp, rfl, ⟨_, rfl, hbefore⟩, hafter⟩
      · rintro ⟨_, after, first, later, rfl, rfl, ⟨before, rfl, hbefore⟩, hafter⟩
        refine ⟨before ++ after, List.append_assoc .., (ih hrest).2 ?_⟩
        exact ⟨before, after, first, later, rfl, rfl, hbefore, hafter⟩
    | oneOf words =>
      constructor
      · rintro ⟨word, hword, _, _, rfl, rfl, h⟩
        obtain ⟨before, after, first, later, rfl, rfl, hbefore, hafter⟩ := (ih hrest).1 h
        exact ⟨word.toList ++ before, after, word.toList :: first, later, by simp, rfl,
          ⟨word, hword, _, _, rfl, rfl, hbefore⟩, hafter⟩
      · rintro ⟨_, after, _, later, rfl, rfl, ⟨word, hword, before, first, rfl, rfl, hbefore⟩,
          hafter⟩
        refine ⟨word, hword, before ++ after, first ++ later, List.append_assoc .., rfl,
          (ih hrest).2 ?_⟩
        exact ⟨before, after, first, later, rfl, rfl, hbefore, hafter⟩
    | run => exact absurd rfl hpiece

/-! ## What the rules' patterns fit -/

theorem fits_fixed {word : String} :
    Fits [.word word] s captures ↔ ∃ y, fixed? word s = some y ∧ captures = [] := by
  simp only [fixed?_eq_some_iff, exists_const]
  constructor
  · rintro ⟨_, rfl, rfl, rfl⟩
    exact ⟨List.append_nil _, rfl⟩
  · rintro ⟨rfl, rfl⟩
    exact ⟨[], (List.append_nil _).symm, rfl, rfl⟩

/-- A word in front, then what the rest of the pattern fits. -/
theorem fits_oneOf {α : Type} {text : α → String} {all : List α} :
    Fits (.oneOf (all.map text) :: pattern) s captures ↔ ∃ x ∈ all, ∃ rest later,
      s = (text x).toList ++ rest ∧ captures = (text x).toList :: later ∧
        Fits pattern rest later := by
  constructor
  · rintro ⟨word, hword, h⟩
    obtain ⟨x, hx, rfl⟩ := List.mem_map.1 hword
    exact ⟨x, hx, h⟩
  · rintro ⟨x, hx, h⟩
    exact ⟨text x, List.mem_map_of_mem hx, h⟩

theorem fits_oneOf_nil {α : Type} {text : α → String} {all : List α} :
    Fits [.oneOf (all.map text)] s captures ↔
      ∃ x ∈ all, s = (text x).toList ∧ captures = [(text x).toList] := by
  rw [fits_oneOf]
  constructor
  · rintro ⟨x, hx, _, _, rfl, rfl, rfl, rfl⟩
    exact ⟨x, hx, List.append_nil _, rfl⟩
  · rintro ⟨x, hx, rfl, rfl⟩
    exact ⟨x, hx, [], [], (List.append_nil _).symm, rfl, rfl, rfl⟩

theorem fits_display :
    Fits [.word "visible-", displays] s captures ↔
      ∃ d, display? s = some d ∧ captures = [d.text.toList] := by
  have hall (d : Display) : d ∈ Display.all := by cases d <;> decide
  constructor
  · rintro ⟨rest, rfl, h⟩
    obtain ⟨d, -, rfl, rfl⟩ := fits_oneOf_nil.1 h
    exact ⟨d, display?_eq_some_iff.2 String.toList_append.symm, rfl⟩
  · rintro ⟨d, hd, rfl⟩
    rw [display?_eq_some_iff, String.toList_append] at hd
    exact ⟨d.text.toList, hd, fits_oneOf_nil.2 ⟨d, hall d, rfl, rfl⟩⟩

theorem fits_shift :
    Fits [shifts] s captures ↔
      ∃ p, word? Shift.text Shift.all s = some p ∧ captures = [p.text.toList] := by
  have hall (p : Shift) : p ∈ Shift.all := by cases p <;> decide
  simp only [shifts, fits_oneOf_nil, shift?_eq_some_iff, hall, true_and]

theorem matches?_screen (s : List Char) :
    matches? [screens] s = (word? Screen.text Screen.all s).map fun x => [x.text.toList] := by
  have hall (x : Screen) : x ∈ Screen.all := by cases x <;> decide
  refine matches?_eq fun captures => ?_
  simp only [screens, fits_oneOf_nil, Option.map_eq_some_iff, screen?_eq_some_iff, hall, true_and,
    eq_comm (a := captures)]

/-- One of some words that do not start with each other, and a number behind it. -/
theorem matches?_number {α : Type} {text : α → String} {all : List α}
    (htext : ∀ x ∈ all, ∀ y ∈ all, (text x).toList <+: (text y).toList → x = y)
    {size? : List Char → Option Nat} {low : Nat} (hsize : Reads size? low) (s : List Char) :
    matches? [.oneOf (all.map text), numbers low] s =
      ((leadingWord? text all s).bind fun x => (size? x.2).map (x.1, ·)).map fun x =>
        [(text x.1).toList, (toString x.2).toList] := by
  have hnumber {n : Nat} : n ∈ List.range' low (13 - low) ↔ low ≤ n ∧ n ≤ 12 := by
    rw [List.mem_range'_1]
    omega
  refine matches?_eq fun captures => ?_
  simp only [Option.bind_eq_some_iff, Option.map_eq_some_iff]
  constructor
  · intro h
    obtain ⟨x, hx, rest, _, rfl, rfl, hrest⟩ := fits_oneOf.1 h
    obtain ⟨n, hn, rfl, rfl⟩ := fits_oneOf_nil.1 hrest
    exact ⟨_, ⟨_, (leadingWord?_eq_some_iff htext).2 ⟨hx, rfl⟩, n,
      (hsize _ n).2 ⟨hnumber.1 hn, rfl⟩, rfl⟩, rfl⟩
  · rintro ⟨_, ⟨⟨x, rest⟩, hlead, n, hrest, rfl⟩, rfl⟩
    obtain ⟨hx, rfl⟩ := (leadingWord?_eq_some_iff htext).1 hlead
    obtain ⟨hn, rfl⟩ := (hsize rest n).1 hrest
    exact fits_oneOf.2 ⟨x, hx, _, _, rfl, rfl, fits_oneOf_nil.2 ⟨n, hnumber.2 hn, rfl, rfl⟩⟩

theorem matches?_sized {size? : List Char → Option Nat} {low : Nat} (hsize : Reads size? low)
    (s : List Char) :
    matches? [screens, numbers low] s =
      (sized? size? s).map fun x => [x.1.text.toList, (toString x.2).toList] := by
  rw [screens, matches?_number (by decide) hsize, sized?]
  cases leadingWord? Screen.text Screen.all s <;> rfl

/-! ## Lists -/

theorem fits_list :
    Fits [.word ":", .run] s captures ↔ ∃ list, s = ':' :: list ∧
      (list ≠ [] ∧ ∀ c ∈ list, isBlank c = false) ∧ captures = [list] := by
  have hwhole {list : List Char} : (list.dropWhile fun c => !isBlank c) = [] ↔
      ∀ c ∈ list, isBlank c = false := by simp [List.dropWhile_eq_nil_iff]
  have hfront {list : List Char} (h : ∀ c ∈ list, isBlank c = false) :
      (list.takeWhile fun c => !isBlank c) = list :=
    List.takeWhile_eq_self_iff.2 fun c hc => by rw [h c hc]; rfl
  constructor
  · rintro ⟨list, rfl, _, hne, rfl, hrest, rfl⟩
    rw [hfront (hwhole.1 hrest)] at hne ⊢
    exact ⟨list, rfl, ⟨hne, hwhole.1 hrest⟩, rfl⟩
  · rintro ⟨list, rfl, ⟨hne, hblank⟩, rfl⟩
    refine ⟨list, rfl, [], ?_, ?_, hwhole.2 hblank, rfl⟩
    · rwa [hfront hblank]
    · rw [hfront hblank]

/-- A front without a colon ends at the first one, and the list is behind it. -/
theorem matches?_list {β : Type} {front? : List Char → Option β} {word : β → String}
    {found : β → Captures} (hrun : ∀ piece ∈ front, piece ≠ .run)
    (hword : ∀ s y, front? s = some y ↔ s = (word y).toList)
    (hcolon : ∀ y, ':' ∉ (word y).toList)
    (hfits : ∀ s captures, Fits front s captures ↔ ∃ y, front? s = some y ∧ captures = found y)
    (name : List Char) :
    matches? (front ++ [.word ":", .run]) name =
      (front? (head name)).bind fun y => (list? name).map fun list => found y ++ [list] := by
  refine matches?_eq fun captures => ?_
  simp only [fits_append hrun, hfits, fits_list, Option.bind_eq_some_iff, Option.map_eq_some_iff]
  constructor
  · rintro ⟨before, _, _, _, rfl, rfl, ⟨y, hy, rfl⟩, list, rfl, hproper, rfl⟩
    obtain rfl := (hword before y).1 hy
    obtain ⟨hhead, hlist⟩ := (list?_eq_some_iff (hcolon y)).2 ⟨rfl, hproper⟩
    exact ⟨y, by rw [hhead, hy], list, hlist, rfl⟩
  · rintro ⟨y, hy, list, hlist, rfl⟩
    obtain ⟨hname, hproper⟩ := (list?_eq_some_iff (hcolon y)).1 ⟨(hword _ y).1 hy, hlist⟩
    exact ⟨_, _, _, _, hname, rfl, ⟨y, (hword _ y).2 rfl, rfl⟩, list, rfl, hproper, rfl⟩

/-! ## Rendering -/

/-- A template as it is read: words, and holes for what groups capture. -/
inductive Slot where
  | word (s : List Char)
  | hole (group : String)
  deriving DecidableEq

namespace Slot

def spell : Slot → List Char
  | .word s => s
  | .hole group => placeholder group

/-- The braces are around the names of groups only. -/
def Plain : Slot → Prop
  | .word s => '\x7b' ∉ s
  | .hole group => '\x7b' ∉ group.toList ∧ '\x7d' ∉ group.toList

instance (slot : Slot) : Decidable slot.Plain := by
  cases slot <;> unfold Plain <;> infer_instance

def fill (group : String) (value : List Char) : Slot → Slot
  | .word s => .word s
  | .hole group' => if group' = group then .word value else .hole group'

end Slot

variable {group : String} {value : List Char} {slots : List Slot}

/-- Another name in braces stays as it is. -/
theorem replaceFrom_other {group' : String} (hgroup : '\x7d' ∉ group.toList)
    (hplain : (Slot.hole group').Plain) (hne : group' ≠ group) (rest : List Char) :
    replaceFrom (placeholder group) value 0 (placeholder group' ++ rest) =
      placeholder group' ++ replaceFrom (placeholder group) value 0 rest := by
  have hstarts : ¬ startsWith (placeholder group) (placeholder group' ++ rest) = true := by
    rw [startsWith_iff]
    rintro ⟨after, hafter⟩
    simp only [placeholder, List.cons_append, List.append_assoc, List.cons.injEq, true_and,
      List.nil_append] at hafter
    exact hne (String.toList_inj.1 (append_cons_inj hplain.2 hgroup hafter.symm))
  have hbody : '\x7b' ∉ group'.toList ++ ['\x7d'] := by simpa using hplain.1
  change (if startsWith (placeholder group) (placeholder group' ++ rest) = true then _
    else '\x7b' :: replaceFrom (placeholder group) value 0 (group'.toList ++ ['\x7d'] ++ rest)) = _
  rw [if_neg hstarts, placeholder, replaceFrom_append hbody]
  rfl

/-- Replacing the name of a group in braces fills its holes, and changes nothing else. -/
theorem replaceFrom_spell (hgroup : '\x7d' ∉ group.toList) (hslots : ∀ slot ∈ slots, slot.Plain) :
    replaceFrom (placeholder group) value 0 (slots.flatMap Slot.spell) =
      (slots.map (Slot.fill group value)).flatMap Slot.spell := by
  induction slots with
  | nil => rfl
  | cons slot slots ih =>
    obtain ⟨hslot, hrest⟩ := List.forall_mem_cons.1 hslots
    rw [List.flatMap_cons, List.map_cons, List.flatMap_cons, ← ih hrest]
    cases slot with
    | word s => exact replaceFrom_append hslot _
    | hole group' =>
      by_cases hsame : group' = group
      · rw [Slot.fill, if_pos hsame, hsame]
        exact replaceFrom_mark _
      · rw [Slot.fill, if_neg hsame]
        exact replaceFrom_other hgroup hslot hsame _

theorem plain_fill {slot : Slot} (hslot : slot.Plain)
    (hvalue : slot = .hole group → '\x7b' ∉ value) : (slot.fill group value).Plain := by
  cases slot with
  | word s => exact hslot
  | hole group' =>
    by_cases hsame : group' = group
    · rw [Slot.fill, if_pos hsame]
      exact hvalue (congrArg Slot.hole hsame)
    · rwa [Slot.fill, if_neg hsame]

theorem eq_of_fill {slot : Slot} {group' : String} (h : slot.fill group value = .hole group') :
    slot = .hole group' := by
  cases slot with
  | word s => cases h
  | hole other =>
    rw [Slot.fill] at h
    split at h
    · cases h
    · exact h

/-- A slot with one value after the other filled in. -/
def Slot.filled (values : List (String × List Char)) (slot : Slot) : Slot :=
  values.foldl (fun slot (group, value) => slot.fill group value) slot

/-- Values are filled into the holes, where none brings a brace into one. -/
theorem fillIn_spell {values : List (String × List Char)} (hslots : ∀ slot ∈ slots, slot.Plain)
    (hvalues : ∀ x ∈ values, '\x7d' ∉ x.1.toList ∧ (.hole x.1 ∈ slots → '\x7b' ∉ x.2)) :
    fillIn values (slots.flatMap Slot.spell) =
      (slots.map (Slot.filled values)).flatMap Slot.spell := by
  induction values generalizing slots with
  | nil => exact congrArg (List.flatMap Slot.spell) (List.map_id slots).symm
  | cons x values ih =>
    obtain ⟨⟨hgroup, hvalue⟩, hlater⟩ := List.forall_mem_cons.1 hvalues
    have hfilled : ∀ slot ∈ slots.map (Slot.fill x.1 x.2), slot.Plain := by
      refine List.forall_mem_map.2 fun slot hslot => plain_fill (hslots slot hslot) ?_
      rintro rfl
      exact hvalue hslot
    have hrest := ih hfilled fun y hy => ⟨(hlater y hy).1, fun hhole => by
      obtain ⟨slot, hslot, heq⟩ := List.mem_map.1 hhole
      exact (hlater y hy).2 (eq_of_fill heq ▸ hslot)⟩
    rw [List.map_map, ← replaceFrom_spell hgroup hslots] at hrest
    exact hrest

/-- Rendering twice is filling in both groups' values, those of the first time first. -/
theorem render_render (template : List Char) (groups groups' : List String)
    (captures captures' : Captures) :
    render (render template groups captures) groups' captures' =
      fillIn (groups.zip captures ++ groups'.zip captures') template :=
  List.foldl_append.symm

/-- A template fills in to the text of a class. -/
theorem fillIn_template {template : String} {values : List (String × List Char)} {c : ClassName}
    (slots : List Slot) (hspell : template.toList = slots.flatMap Slot.spell)
    (hslots : ∀ slot ∈ slots, slot.Plain)
    (hvalues : ∀ x ∈ values, '\x7d' ∉ x.1.toList ∧ (.hole x.1 ∈ slots → '\x7b' ∉ x.2))
    (htext : (slots.map (Slot.filled values)).flatMap Slot.spell = c.text.toList) :
    fillIn values template.toList = c.text.toList := by
  rw [hspell, fillIn_spell hslots hvalues, htext]

theorem Unbroken.brace_not_mem {s : String} (h : Unbroken s) : '\x7b' ∉ s.toList := by
  intro hc
  exact absurd (h '\x7b' hc) (by decide)

/-! ## Entries and rules -/

section Entries

variable {e : Entry} {m : Modifier} {α β : Type} {front? : List Char → Option β}
  {part? : List Char → Option α}

/-- The entry of a simple name gives one class. -/
theorem names?_simple {found? : Option β} (found : β → Captures) {className : β → ClassName}
    (hmodifier : e.modifier = none) (hmatch : matches? e.pattern name = found?.map found)
    (hrender : ∀ y, fillIn (e.groups.zip (found y)) e.template.toList = (className y).text.toList) :
    e.names? name = (found?.map fun y => [className y]).map (·.map text) := by
  unfold Entry.names? Entry.drafts?
  rw [hmatch, hmodifier]
  cases found? with
  | none => rfl
  | some y => simp [render, hrender]

theorem matches?_front (found : β → Captures)
    (hfits : ∀ s captures, Fits pattern s captures ↔ ∃ y, front? s = some y ∧ captures = found y)
    (s : List Char) : matches? pattern s = (front? s).map found := by
  refine matches?_eq fun captures => ?_
  simp only [hfits, Option.map_eq_some_iff, eq_comm]

theorem unblank_of_list? {list : List Char} (h : list? name = some list) :
    ∀ c ∈ list, isBlank c = false := by
  obtain ⟨-, hproper⟩ := Option.filter_eq_some_iff.1 h
  rw [Bool.not_eq_true', Bool.or_eq_false_iff, List.any_eq_false] at hproper
  simpa using hproper.2

/-- The entry of a compound name gives a class for each part that the modifier knows. The list as a
whole is in no template. -/
theorem names?_compound (found : β → Captures) {part : α → Captures} {className : β → α → ClassName}
    (hmodifier : e.modifier = some m)
    (hmatch : matches? e.pattern name =
      (front? (head name)).bind fun y => (list? name).map fun list => found y ++ [list])
    (hparts : ∀ y list, (e.groups.zip (found y ++ [list])).lookup partsGroup = some list)
    (hpart : ∀ s, matches? m.pattern s = (part? s).map part)
    (hrender : ∀ y list x, fillIn (m.groups.zip (part x) ++ e.groups.zip (found y ++ [list]))
      e.template.toList = (className y x).text.toList) :
    e.names? name = ((front? (head name)).bind fun y => (parts? name).map fun parts =>
      (parts.filterMap part?).map (className y)).map (·.map text) := by
  unfold Entry.names? Entry.drafts?
  rw [hmatch, hmodifier, parts?_eq]
  cases front? (head name) with
  | none => rfl
  | some y =>
    cases hlist : list? name with
    | none => rfl
    | some list =>
      have hknown (parts : List (List Char)) :
          parts.filterMap (matches? m.pattern) = (parts.filterMap part?).map part := by
        rw [funext hpart, List.map_filterMap]
      have hword (x : α) :
          String.ofList (render (render e.template.toList m.groups (part x)) e.groups
            (found y ++ [list])) = (className y x).text := by
        rw [render_render, hrender, String.ofList_toList]
      have htrim : trim list = list := trim_of_unblank (unblank_of_list? hlist)
      simp only [Option.bind_some, Option.map_some, hparts, htrim, hknown, List.map_map,
        Function.comp_def, hword]

end Entries

/-- The classes of a rule are the names that its entry makes. -/
theorem names?_entry (rule : Rule) (name : List Char) :
    rule.entry.names? name = (rule.classes? name).map (·.map text) := by
  have hscreen (s : Screen) := (unbroken_screen s).brace_not_mem
  have hdisplay (d : Display) := (unbroken_display d).brace_not_mem
  have hshift (p : Shift) := (unbroken_shift p).brace_not_mem
  have hnumber (n : Nat) : '\x7b' ∉ Nat.toDigits 10 n := by
    simpa using (unbroken_toString n).brace_not_mem
  cases rule with
  | visible =>
    refine names?_simple (fun d : Display => [d.text.toList]) rfl
      (matches?_front _ (fun _ _ => fits_display) name) fun d => ?_
    refine fillIn_template [.word "visible-md-".toList, .hole "cssDisplay"] (by decide)
      (by decide) ?_ ?_
    · simp [Rule.entry, hdisplay]
    · simp [Rule.entry, Slot.filled, Slot.fill, Slot.spell, text, Screen.text]
  | visibleOn =>
    have hcolon (d : Display) : ':' ∉ ("visible-" ++ d.text).toList := by cases d <;> decide
    refine names?_compound (fun d : Display => [d.text.toList]) rfl
      (matches?_list (by simp [displays]) (fun _ _ => display?_eq_some_iff) hcolon
        (fun _ _ => fits_display) name) (fun _ _ => rfl) matches?_screen fun d list s => ?_
    refine fillIn_template
      [.word "visible-".toList, .hole "screenSize", .word "-".toList, .hole "cssDisplay"]
      (by decide) (by decide) ?_ ?_
    · simp [Rule.entry, partsGroup, hscreen, hdisplay]
    · simp [Rule.entry, Slot.filled, Slot.fill, Slot.spell, text]
  | hidden =>
    have hclasses : Rule.hidden.classes? name =
        (fixed? "hidden" name).map fun _ => [ClassName.hidden .md] := by
      rw [Rule.classes?, ite_eq_bind "hidden", Option.map_eq_bind]
      rfl
    rw [hclasses]
    exact names?_simple (fun _ => []) rfl (matches?_front _ (fun _ _ => fits_fixed) name)
      fun _ => rfl
  | hiddenOn =>
    rw [Rule.classes?, ite_eq_bind "hidden"]
    refine names?_compound (fun _ => []) rfl
      (matches?_list (by simp) (fun _ _ => fixed?_eq_some_iff) (fun _ => by decide)
        (fun _ _ => fits_fixed) name) (fun _ _ => rfl) matches?_screen fun _ list s => ?_
    refine fillIn_template [.word "hidden-".toList, .hole "screenSize"] (by decide)
      (by decide) ?_ ?_
    · simp [Rule.entry, partsGroup, hscreen]
    · simp [Rule.entry, Slot.filled, Slot.fill, Slot.spell, text]
  | size =>
    refine names?_simple _ rfl (matches?_sized reads_width? name) fun x => ?_
    refine fillIn_template [.word "col-".toList, .hole "screenSize", .word "-".toList, .hole "size"]
      (by decide) (by decide) ?_ ?_
    · simp [Rule.entry, hscreen, hnumber]
    · simp [Rule.entry, Slot.filled, Slot.fill, Slot.spell, text]
  | sizeOn =>
    rw [Rule.classes?, ite_eq_bind "size"]
    refine names?_compound (fun _ => []) rfl
      (matches?_list (by simp) (fun _ _ => fixed?_eq_some_iff) (fun _ => by decide)
        (fun _ _ => fits_fixed) name) (fun _ _ => rfl) (matches?_sized reads_width?)
      fun _ list x => ?_
    refine fillIn_template [.word "col-".toList, .hole "screenSize", .word "-".toList, .hole "size"]
      (by decide) (by decide) ?_ ?_
    · simp [Rule.entry, partsGroup, hscreen, hnumber]
    · simp [Rule.entry, Slot.filled, Slot.fill, Slot.spell, text]
  | shift =>
    have hclasses : Rule.shift.classes? name =
        ((leadingWord? Shift.text Shift.all name).bind fun x => (number? x.2).map (x.1, ·)).map
          fun x => [ClassName.shift .md x.1 x.2] := by
      rw [Rule.classes?, Option.map_bind]
      simp only [Function.comp_def, Option.map_map]
    rw [hclasses]
    refine names?_simple _ rfl (matches?_number (by decide) reads_number? name) fun x => ?_
    refine fillIn_template [.word "col-md-".toList, .hole "name", .word "-".toList, .hole "size"]
      (by decide) (by decide) ?_ ?_
    · simp [Rule.entry, hshift, hnumber]
    · simp [Rule.entry, Slot.filled, Slot.fill, Slot.spell, text, Screen.text]
  | shiftOn =>
    refine names?_compound (fun p : Shift => [p.text.toList]) rfl
      (matches?_list (by simp [shifts]) (fun _ _ => shift?_eq_some_iff)
        (fun p => (unbroken_shift p).colon_not_mem) (fun _ _ => fits_shift) name) (fun _ _ => rfl)
      (matches?_sized reads_number?) fun p list x => ?_
    refine fillIn_template [.word "col-".toList, .hole "screenSize", .word "-".toList, .hole "name",
      .word "-".toList, .hole "size"] (by decide) (by decide) ?_ ?_
    · simp [Rule.entry, partsGroup, hscreen, hshift, hnumber]
    · simp [Rule.entry, Slot.filled, Slot.fill, Slot.spell, text]

/-! ## Sets of rules -/

/-- The names that the first entry makes that is about the attribute. -/
def classNames? (entries : List Entry) (name : String) : Option (List String) :=
  entries.findSome? (·.names? name.toList)

theorem classNames?_eq (rules : List Rule) (name : String) :
    classNames? (rules.map Rule.entry) name = (classesOf? rules name).map (·.map text) := by
  unfold classNames? classesOf?
  rw [List.findSome?_map, List.map_findSome?]
  exact congrArg (List.findSome? · rules) (funext fun rule => names?_entry rule name.toList)

/-- A set of rules knows exactly the names of its grammar and gives their classes, which are the
names that the table makes of its templates. At most one rule is about a name, so the order of the
rules does not matter, and every class is a word of the vocabulary with nothing but letters, digits
and dashes in it. -/
theorem classesOf?_words (rules : List Rule) (name : String) :
    classNames? (rules.map Rule.entry) name = (classesOf? rules name).map (·.map text) ∧
    (∀ words, (classesOf? rules name).map (·.map text) = some words ↔
      ∃ rule ∈ rules, rule.Means name words) ∧
    (∀ rule rule' : Rule, (rule.classes? name.toList).isSome → (rule'.classes? name.toList).isSome →
      rule = rule') ∧
    (∀ order : List Rule, order.Perm rules → classesOf? order name = classesOf? rules name) ∧
    ∀ classes, classesOf? rules name = some classes → ∀ c ∈ classes,
      IsWord c.text ∧ c.text ≠ "" ∧ Unbroken c.text := by
  refine ⟨classNames?_eq rules name, fun words => ?_, fun _ _ => Rule.eq_of_classes?,
    fun order horder => ?_, ?_⟩
  · simp only [← Rule.words_eq_some_iff, Option.map_eq_some_iff, classesOf?_eq_some_iff]
    constructor
    · rintro ⟨classes, ⟨rule, hrule, hclasses⟩, hwords⟩
      exact ⟨rule, hrule, classes, hclasses, hwords⟩
    · rintro ⟨rule, hrule, classes, hclasses, hwords⟩
      exact ⟨classes, ⟨rule, hrule, hclasses⟩, hwords⟩
  · ext classes
    simp only [classesOf?_eq_some_iff, horder.mem_iff]
  · intro classes h c hc
    obtain ⟨rule, -, hclasses⟩ := classesOf?_eq_some_iff.1 h
    have hword := (Rule.means_of_classes? hclasses).isWord (List.mem_map_of_mem hc)
    exact ⟨hword, hword.unbroken⟩

/-- A list with a width twice, one too wide, one with a leading zero and an empty part. -/
theorem classesOf?_words_sizes :
    Rule.sizeOn.Means "size:md8-xx9-lg13-xs08--md8" ["col-md-8", "col-md-8"] ∧
      classesOf? Rule.column.reverse "size:md8-xx9-lg13-xs08--md8" =
        some [.column .md 8, .column .md 8] ∧
      classNames? (Rule.column.map Rule.entry) "size:md8-xx9-lg13-xs08--md8" =
        some ["col-md-8", "col-md-8"] ∧
      IsWord "col-md-8" := by
  have hclasses : classesOf? Rule.column "size:md8-xx9-lg13-xs08--md8" =
      some [.column .md 8, .column .md 8] := by decide +kernel
  obtain ⟨hmade, hwords, hrule, horder, hall⟩ :=
    classesOf?_words Rule.column "size:md8-xx9-lg13-xs08--md8"
  obtain ⟨rule, -, hmeans⟩ := (hwords ["col-md-8", "col-md-8"]).1 (by rw [hclasses]; rfl)
  refine ⟨?_, (horder _ (List.reverse_perm _)).trans hclasses, ?_, ?_⟩
  · have hsome : (rule.classes? "size:md8-xx9-lg13-xs08--md8".toList).isSome := by
      have hrule := (rule.words_eq_some_iff _ _).2 hmeans
      obtain ⟨classes, hrule, -⟩ := Option.map_eq_some_iff.1 hrule
      rw [hrule]
      rfl
    rwa [hrule rule .sizeOn hsome (by decide +kernel)] at hmeans
  · rw [hmade, hclasses]
    rfl
  · exact (hall _ hclasses (.column .md 8) (by simp)).1

end ClassName

end GridMarkup
