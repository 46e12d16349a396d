import GridMarkup.Proofs.Classes
import Mathlib.Data.String.Basic

/-!
# The names that stand for classes

The grammar of attribute names, with the words that each name stands for. The rules know exactly the
names of the grammar. No name belongs to two rules, so their order does not matter.
-/

namespace GridMarkup.ClassName

open Text

/-! ## The grammar -/

/-- The words of the parts of a list. A part without a word is dropped. -/
inductive Picks (Means : String → String → Prop) : List String → List String → Prop where
  | nil : Picks Means [] []
  | take {part word : String} {parts words : List String} (hpart : Means part word)
      (h : Picks Means parts words) : Picks Means (part :: parts) (word :: words)
  | drop {part : String} {parts words : List String} (hpart : ∀ word, ¬ Means part word)
      (h : Picks Means parts words) : Picks Means (part :: parts) words

/-- A list has no blanks in it, and dashes between its parts. -/
structure IsList (list : String) (parts : List String) : Prop where
  nonempty : list ≠ ""
  unblank : ∀ c ∈ list.toList, isBlank c = false
  split : parts = (list.toList.splitOn '-').map String.ofList

/-- The part is a screen. -/
def OfScreen (word : Screen → String) (part w : String) : Prop :=
  ∃ s : Screen, part = s.text ∧ w = word s

/-- The part is a screen with a number behind it, which is written without leading zeros. -/
def OfSize (low : Nat) (word : Screen → Nat → String) (part w : String) : Prop :=
  ∃ (s : Screen) (n : Nat), (low ≤ n ∧ n ≤ 12) ∧ part = s.text ++ toString n ∧ w = word s n

/-- The attribute name stands for these classes by this rule. -/
inductive Rule.Means : Rule → String → List String → Prop where
  | visible (d : Display) : Means .visible ("visible-" ++ d.text) ["visible-md-" ++ d.text]
  | visibleOn (d : Display) {list : String} {parts words : List String} (hlist : IsList list parts)
      (hwords : Picks (OfScreen fun s => "visible-" ++ s.text ++ "-" ++ d.text) parts words) :
      Means .visibleOn ("visible-" ++ d.text ++ ":" ++ list) words
  | hidden : Means .hidden "hidden" ["hidden-md"]
  | hiddenOn {list : String} {parts words : List String} (hlist : IsList list parts)
      (hwords : Picks (OfScreen fun s => "hidden-" ++ s.text) parts words) :
      Means .hiddenOn ("hidden:" ++ list) words
  | size (s : Screen) {n : Nat} (hn : 1 ≤ n ∧ n ≤ 12) :
      Means .size (s.text ++ toString n) ["col-" ++ s.text ++ "-" ++ toString n]
  | sizeOn {list : String} {parts words : List String} (hlist : IsList list parts)
      (hwords : Picks (OfSize 1 fun s n => "col-" ++ s.text ++ "-" ++ toString n) parts words) :
      Means .sizeOn ("size:" ++ list) words
  | shift (p : Shift) {n : Nat} (hn : n ≤ 12) :
      Means .shift (p.text ++ toString n) ["col-md-" ++ p.text ++ "-" ++ toString n]
  | shiftOn (p : Shift) {list : String} {parts words : List String} (hlist : IsList list parts)
      (hwords : Picks (OfSize 0 fun s n => "col-" ++ s.text ++ "-" ++ p.text ++ "-" ++ toString n)
        parts words) :
      Means .shiftOn (p.text ++ ":" ++ list) words

/-- The classes that names can stand for. -/
inductive IsWord : String → Prop where
  | visible (s : Screen) (d : Display) : IsWord ("visible-" ++ s.text ++ "-" ++ d.text)
  | hidden (s : Screen) : IsWord ("hidden-" ++ s.text)
  | column (s : Screen) {n : Nat} (hn : 1 ≤ n ∧ n ≤ 12) :
      IsWord ("col-" ++ s.text ++ "-" ++ toString n)
  | shift (s : Screen) (p : Shift) {n : Nat} (hn : n ≤ 12) :
      IsWord ("col-" ++ s.text ++ "-" ++ p.text ++ "-" ++ toString n)

/-! ## Words and numbers -/

section Words

variable {α : Type} {text : α → String} {all : List α} {s rest : List Char} {x : α}

theorem word?_eq_some_iff (htext : ∀ x ∈ all, ∀ y ∈ all, text x = text y → x = y) :
    word? text all s = some x ↔ x ∈ all ∧ s = (text x).toList := by
  have hfound {y : α} (h : word? text all s = some y) : y ∈ all ∧ s = (text y).toList := by
    rw [word?] at h
    exact ⟨List.mem_of_find?_eq_some h, (by simpa using List.find?_some h : _ = s).symm⟩
  refine ⟨hfound, fun ⟨hx, hs⟩ => ?_⟩
  have hsome : (word? text all s).isSome :=
    List.find?_isSome.2 ⟨x, hx, by rw [hs]; exact beq_self_eq_true _⟩
  obtain ⟨y, hy⟩ := Option.isSome_iff_exists.1 hsome
  obtain ⟨hmem, hs'⟩ := hfound hy
  rw [hy, htext y hmem x hx (String.toList_inj.1 (hs'.symm.trans hs))]

/-- Where no word starts with another, at most one of them stands in front. -/
theorem leadingWord?_eq_some_iff
    (htext : ∀ x ∈ all, ∀ y ∈ all, (text x).toList <+: (text y).toList → x = y) :
    leadingWord? text all s = some (x, rest) ↔ x ∈ all ∧ s = (text x).toList ++ rest := by
  have hfound {y : α} {rest' : List Char} (h : leadingWord? text all s = some (y, rest')) :
      y ∈ all ∧ s = (text y).toList ++ rest' := by
    obtain ⟨z, hz, hstrip⟩ := List.exists_of_findSome?_eq_some h
    obtain ⟨r, hr, heq⟩ := Option.map_eq_some_iff.1 hstrip
    cases heq
    exact ⟨hz, strip?_eq_some_iff.1 hr⟩
  refine ⟨hfound, fun ⟨hx, hs⟩ => ?_⟩
  have hsome : (leadingWord? text all s).isSome := by
    rw [leadingWord?, List.findSome?_isSome_iff]
    exact ⟨x, hx, by rw [strip?_eq_some_iff.2 hs]; rfl⟩
  obtain ⟨⟨y, rest'⟩, hy⟩ := Option.isSome_iff_exists.1 hsome
  obtain ⟨hmem, hs'⟩ := hfound hy
  have hsame : y = x := by
    rcases List.prefix_or_prefix_of_prefix (hs ▸ List.prefix_append _ rest)
      (hs' ▸ List.prefix_append _ rest') with hpre | hpre
    · exact (htext x hx y hmem hpre).symm
    · exact htext y hmem x hx hpre
  subst hsame
  rw [hy, List.append_cancel_left (hs.symm.trans hs')]

end Words

/-! ## Letters, digits and dashes -/

/-- The text has only letters, digits and dashes in it. -/
def Unbroken (s : String) : Prop := ∀ c ∈ s.toList, c.isAlphanum = true ∨ c = '-'

instance (s : String) : Decidable (Unbroken s) :=
  decidable_of_iff (s.toList.all fun c => c.isAlphanum || c == '-') (by simp [Unbroken])

theorem Unbroken.append {s t : String} (hs : Unbroken s) (ht : Unbroken t) : Unbroken (s ++ t) := by
  intro c hc
  rw [String.toList_append, List.mem_append] at hc
  exact hc.elim (hs c) (ht c)

theorem unbroken_toString (n : Nat) : Unbroken (toString n) := by
  intro c hc
  rw [Nat.toString_eq_repr, Nat.toList_repr] at hc
  have hdigit : c.isDigit = true := Nat.isDigit_of_mem_toDigits (by decide) (by decide) hc
  exact .inl (by simp [Char.isAlphanum, hdigit])

theorem unbroken_screen (s : Screen) : Unbroken s.text := by
  cases s <;> decide

theorem unbroken_display (d : Display) : Unbroken d.text := by
  cases d <;> decide

theorem unbroken_shift (p : Shift) : Unbroken p.text := by
  cases p <;> decide

theorem Unbroken.colon_not_mem {s : String} (h : Unbroken s) : ':' ∉ s.toList := by
  intro hc
  exact absurd (h ':' hc) (by decide)

theorem unbroken_text (c : ClassName) : c.text ≠ "" ∧ Unbroken c.text := by
  have hdash : Unbroken "-" := by decide
  have hcol : Unbroken "col-" := by decide
  have hvisible : Unbroken "visible-" := by decide
  have hhidden : Unbroken "hidden-" := by decide
  cases c with
  | visible s d =>
    exact ⟨by simp [text], ((hvisible.append (unbroken_screen s)).append hdash).append
      (unbroken_display d)⟩
  | hidden s => exact ⟨by simp [text], hhidden.append (unbroken_screen s)⟩
  | column s n =>
    exact ⟨by simp [text], ((hcol.append (unbroken_screen s)).append hdash).append
      (unbroken_toString n)⟩
  | shift s p n =>
    exact ⟨by simp [text], ((((hcol.append (unbroken_screen s)).append hdash).append
      (unbroken_shift p)).append hdash).append (unbroken_toString n)⟩

/-- The text of a class is one word. -/
theorem oneWord_text (c : ClassName) : OneWord c.text := by
  obtain ⟨hne, hunbroken⟩ := unbroken_text c
  refine ⟨hne, fun d hd => ?_⟩
  rcases hunbroken d hd with halphanum | rfl
  · exact isBlank_of_isAlphanum halphanum
  · decide

theorem oneWord_texts (classes : List ClassName) : ∀ w ∈ classes.map text, OneWord w :=
  List.forall_mem_map.2 fun c _ => oneWord_text c

/-! ## Screens, displays, shifts and numbers -/

theorem screen?_eq_some_iff {s : List Char} {x : Screen} :
    word? Screen.text Screen.all s = some x ↔ s = x.text.toList := by
  rw [word?_eq_some_iff (by decide)]
  cases x <;> simp [Screen.all]

theorem displayWord?_eq_some_iff {s : List Char} {x : Display} :
    word? Display.text Display.all s = some x ↔ s = x.text.toList := by
  rw [word?_eq_some_iff (by decide)]
  cases x <;> simp [Display.all]

theorem shift?_eq_some_iff {s : List Char} {x : Shift} :
    word? Shift.text Shift.all s = some x ↔ s = x.text.toList := by
  rw [word?_eq_some_iff (by decide)]
  cases x <;> simp [Shift.all]

theorem number?_eq_some_iff {s : List Char} {n : Nat} :
    number? s = some n ↔ n ≤ 12 ∧ s = (toString n).toList := by
  have hword : number? s = word? toString (List.range 13) s := by
    simp only [number?, word?, Nat.toString_eq_repr, Nat.toList_repr]
  rw [hword, word?_eq_some_iff (by decide), List.mem_range]
  exact and_congr_left' (by omega)

theorem width?_eq_some_iff {s : List Char} {n : Nat} :
    width? s = some n ↔ (1 ≤ n ∧ n ≤ 12) ∧ s = (toString n).toList := by
  rw [width?, Option.filter_eq_some_iff, number?_eq_some_iff, decide_eq_true_iff]
  exact ⟨fun ⟨⟨h, hs⟩, hpos⟩ => ⟨⟨hpos, h⟩, hs⟩, fun ⟨⟨hpos, h⟩, hs⟩ => ⟨⟨h, hs⟩, hpos⟩⟩

theorem display?_eq_some_iff {s : List Char} {d : Display} :
    display? s = some d ↔ s = ("visible-" ++ d.text).toList := by
  rw [display?, Option.bind_eq_some_iff, String.toList_append]
  constructor
  · rintro ⟨rest, hstrip, hd⟩
    rw [← displayWord?_eq_some_iff.1 hd]
    exact strip?_eq_some_iff.1 hstrip
  · exact fun h => ⟨d.text.toList, strip?_eq_some_iff.2 h, displayWord?_eq_some_iff.2 rfl⟩

theorem sized?_eq_some_iff {size? : List Char → Option Nat} {s : List Char} {x : Screen}
    {n : Nat} :
    sized? size? s = some (x, n) ↔ ∃ rest, s = x.text.toList ++ rest ∧ size? rest = some n := by
  have hlead {rest : List Char} : leadingWord? Screen.text Screen.all s = some (x, rest) ↔
      s = x.text.toList ++ rest := by
    rw [leadingWord?_eq_some_iff (by decide)]
    cases x <;> simp [Screen.all]
  constructor
  · intro h
    rw [sized?] at h
    split at h
    · cases h
    · next y rest hword =>
      obtain ⟨m, hm, heq⟩ := Option.map_eq_some_iff.1 h
      cases heq
      exact ⟨rest, hlead.1 hword, hm⟩
  · rintro ⟨rest, hs, hn⟩
    rw [sized?, hlead.2 hs]
    simp [hn]

/-! ## Lists -/

variable {parts : List (List Char)} {name words : List Char}

/-- What is behind the first colon, if it is a list without blanks. -/
def list? (name : List Char) : Option (List Char) :=
  (strip? [':'] (name.dropWhile (· != ':'))).filter fun list => !(list.isEmpty || list.any isBlank)

theorem parts?_eq (name : List Char) : parts? name = (list? name).map (splitWhere (· == '-')) := by
  unfold parts? list?
  cases strip? [':'] (name.dropWhile (· != ':')) with
  | none => rfl
  | some list =>
    rw [Option.filter_some]
    cases hlist : list.isEmpty || list.any isBlank with
    | true => simp [hlist]
    | false => simp [hlist]

theorem list?_eq_some_iff {front list : List Char} (hfront : ':' ∉ front) :
    head name = front ∧ list? name = some list ↔
      name = front ++ ':' :: list ∧ list ≠ [] ∧ ∀ c ∈ list, isBlank c = false := by
  have hchars : ∀ c ∈ front, (c != ':') = true := by
    intro c hc
    rw [bne_iff_ne]
    rintro rfl
    exact hfront hc
  constructor
  · rintro ⟨rfl, hlist⟩
    obtain ⟨hstrip, hproper⟩ := Option.filter_eq_some_iff.1 hlist
    refine ⟨?_, by simpa using hproper⟩
    rw [head]
    conv => lhs; rw [← List.takeWhile_append_dropWhile (p := (· != ':')) (l := name)]
    rw [strip?_eq_some_iff.1 hstrip, List.singleton_append]
  · rintro ⟨rfl, hproper⟩
    refine ⟨takeWhile_append_stop hchars (by decide), Option.filter_eq_some_iff.2 ⟨?_, ?_⟩⟩
    · rw [dropWhile_append_stop hchars (by decide), strip?_eq_some_iff, List.singleton_append]
    · simpa using hproper

/-- The list of a compound name stands behind its first colon. -/
theorem isList_iff {front : List Char} (hfront : ':' ∉ front) :
    head name = front ∧ parts? name = some parts ↔
      ∃ list, name = front ++ ':' :: list.toList ∧ IsList list (parts.map String.ofList) := by
  rw [parts?_eq]
  constructor
  · rintro ⟨hhead, hparts⟩
    obtain ⟨list, hlist, rfl⟩ := Option.map_eq_some_iff.1 hparts
    obtain ⟨hname, hne, hblank⟩ := (list?_eq_some_iff hfront).1 ⟨hhead, hlist⟩
    refine ⟨String.ofList list, ?_, ?_, ?_, ?_⟩
    · rw [String.toList_ofList, hname]
    · simpa using hne
    · rwa [String.toList_ofList]
    · rw [String.toList_ofList, splitWhere_eq_splitOnP, List.splitOn_eq_splitOnP]
  · rintro ⟨list, hname, hlist⟩
    have hne : list.toList ≠ [] := by simpa using hlist.nonempty
    obtain ⟨hhead, hlist'⟩ := (list?_eq_some_iff hfront).2 ⟨hname, hne, hlist.unblank⟩
    have hparts : splitWhere (· == '-') list.toList = parts := by
      have hmap := hlist.split
      rw [List.splitOn_eq_splitOnP, ← splitWhere_eq_splitOnP] at hmap
      exact (List.map_injective_iff.2 (fun _ _ => String.ofList_injective) hmap).symm
    exact ⟨hhead, by rw [hlist', Option.map_some, hparts]⟩

theorem picks_iff {α : Type} {Means : String → String → Prop} {part? : List Char → Option α}
    {word : α → String} {words : List String}
    (h : ∀ part w, Means (String.ofList part) w ↔ ∃ x, part? part = some x ∧ w = word x) :
    Picks Means (parts.map String.ofList) words ↔ words = (parts.filterMap part?).map word := by
  induction parts generalizing words with
  | nil =>
    constructor
    · rintro ⟨⟩
      rfl
    · rintro rfl
      exact .nil
  | cons part parts ih =>
    cases hpart : part? part with
    | none =>
      have hnone (w : String) : ¬ Means (String.ofList part) w := by
        rw [h, hpart]
        simp
      rw [List.filterMap_cons_none hpart, ← ih]
      constructor
      · rintro (_ | ⟨hmeans, _⟩ | ⟨_, hparts⟩)
        · exact absurd hmeans (hnone _)
        · exact hparts
      · exact .drop hnone
    | some x =>
      have hsome (w : String) : Means (String.ofList part) w ↔ w = word x := by
        rw [h, hpart]
        simp
      rw [List.filterMap_cons_some hpart, List.map_cons, List.map_cons]
      constructor
      · rintro (_ | ⟨hmeans, hparts⟩ | ⟨hnone, _⟩)
        · rw [(hsome _).1 hmeans, ih.1 hparts]
        · exact absurd ((hsome _).2 rfl) (hnone _)
      · rintro rfl
        exact .take ((hsome _).2 rfl) (ih.2 rfl)

theorem Picks.exists_of_mem {P : String → String → Prop} {parts words : List String} {word : String}
    (h : Picks P parts words) (hword : word ∈ words) : ∃ part, P part word := by
  induction h with
  | nil => cases hword
  | take hpart _ ih =>
    rcases List.mem_cons.1 hword with rfl | hword
    · exact ⟨_, hpart⟩
    · exact ih hword
  | drop _ _ ih => exact ih hword

/-- A compound name stands for one class for each part that the rule knows. -/
theorem compound_eq_some_iff {α β : Type} {front? : List Char → Option β} {front : β → String}
    {P : β → String → String → Prop} {part? : List Char → Option α}
    {className : β → α → ClassName}
    (hfront : ∀ s y, front? s = some y ↔ s = (front y).toList)
    (hcolon : ∀ y, ':' ∉ (front y).toList)
    (hpart : ∀ y part w,
      P y (String.ofList part) w ↔ ∃ x, part? part = some x ∧ w = (className y x).text)
    (name : String) (words : List String) :
    ((front? (head name.toList)).bind fun y => (parts? name.toList).map fun parts =>
        (parts.filterMap part?).map (className y)).map (·.map text) = some words ↔
      ∃ y list parts, name = front y ++ ":" ++ list ∧ IsList list parts ∧
        Picks (P y) parts words := by
  have hname {y : β} {list : String} :
      name.toList = (front y).toList ++ ':' :: list.toList ↔ name = front y ++ ":" ++ list := by
    rw [← String.toList_inj]
    simp
  constructor
  · intro h
    obtain ⟨classes, hclasses, rfl⟩ := Option.map_eq_some_iff.1 h
    obtain ⟨y, hy, hclasses⟩ := Option.bind_eq_some_iff.1 hclasses
    obtain ⟨parts, hparts, rfl⟩ := Option.map_eq_some_iff.1 hclasses
    obtain ⟨list, hlist, hsplit⟩ := (isList_iff (hcolon y)).1 ⟨(hfront _ _).1 hy, hparts⟩
    refine ⟨y, list, _, hname.1 hlist, hsplit, (picks_iff (hpart y)).2 ?_⟩
    rw [List.map_map]
    rfl
  · rintro ⟨y, list, parts, hlist, hsplit, hwords⟩
    obtain rfl := hsplit.split
    obtain ⟨hhead, hparts⟩ := (isList_iff (hcolon y)).2 ⟨list, hname.2 hlist, hsplit⟩
    rw [(hfront _ y).2 hhead, hparts, (picks_iff (hpart y)).1 hwords]
    simp

/-! ## Rules -/

theorem ofScreen_iff (word : Screen → String) (part : List Char) (w : String) :
    OfScreen word (String.ofList part) w ↔
      ∃ s, word? Screen.text Screen.all part = some s ∧ w = word s := by
  simp only [OfScreen, screen?_eq_some_iff, String.ofList_eq]

/-- The reader takes the numbers from `low` to twelve. -/
def Reads (size? : List Char → Option Nat) (low : Nat) : Prop :=
  ∀ s n, size? s = some n ↔ (low ≤ n ∧ n ≤ 12) ∧ s = (toString n).toList

theorem reads_number? : Reads number? 0 := fun s n => by simp [number?_eq_some_iff]

theorem reads_width? : Reads width? 1 := fun _ _ => width?_eq_some_iff

section Sizes

variable {size? : List Char → Option Nat} {low : Nat}

theorem sizedName_iff (hsize : Reads size? low) (name : String) (x : Screen × Nat) :
    sized? size? name.toList = some x ↔
      (low ≤ x.2 ∧ x.2 ≤ 12) ∧ name = x.1.text ++ toString x.2 := by
  rw [sized?_eq_some_iff, ← String.toList_inj, String.toList_append]
  constructor
  · rintro ⟨rest, hname, hrest⟩
    obtain ⟨hn, rfl⟩ := (hsize _ _).1 hrest
    exact ⟨hn, hname⟩
  · exact fun ⟨hn, hname⟩ => ⟨_, hname, (hsize _ _).2 ⟨hn, rfl⟩⟩

theorem ofSize_iff (hsize : Reads size? low) (word : Screen → Nat → String) (part : List Char)
    (w : String) :
    OfSize low word (String.ofList part) w ↔
      ∃ x, sized? size? part = some x ∧ w = word x.1 x.2 := by
  have hname := sizedName_iff hsize (String.ofList part)
  rw [String.toList_ofList] at hname
  simp only [OfSize, hname, Prod.exists, and_assoc]

end Sizes

/-- A front that is one fixed word. -/
def fixed? (word : String) (s : List Char) : Option Unit :=
  if s = word.toList then some () else none

theorem fixed?_eq_some_iff {word : String} {s : List Char} {x : Unit} :
    fixed? word s = some x ↔ s = word.toList := by simp [fixed?]

theorem ite_eq_bind {α : Type} (word : String) (s : List Char) (x : Option α) :
    (if s = word.toList then x else none) = (fixed? word s).bind fun _ => x := by
  unfold fixed?
  split <;> rfl

theorem shiftName_iff (name : String) (p : Shift) (n : Nat) :
    (∃ rest, leadingWord? Shift.text Shift.all name.toList = some (p, rest) ∧
        number? rest = some n) ↔ n ≤ 12 ∧ name = p.text ++ toString n := by
  have hlead {rest : List Char} : leadingWord? Shift.text Shift.all name.toList = some (p, rest) ↔
      name.toList = p.text.toList ++ rest := by
    rw [leadingWord?_eq_some_iff (by decide)]
    cases p <;> simp [Shift.all]
  simp only [hlead, number?_eq_some_iff, ← String.toList_inj, String.toList_append]
  exact ⟨fun ⟨_, hname, hn, hrest⟩ => ⟨hn, hrest ▸ hname⟩, fun ⟨hn, hname⟩ => ⟨_, hname, hn, rfl⟩⟩

namespace Rule

/-- The rules know the names of the grammar and give their words. -/
theorem words_eq_some_iff (rule : Rule) (name : String) (words : List String) :
    (rule.classes? name.toList).map (·.map text) = some words ↔ rule.Means name words := by
  cases rule with
  | visible =>
    constructor
    · intro h
      obtain ⟨classes, hclasses, rfl⟩ := Option.map_eq_some_iff.1 h
      obtain ⟨d, hd, rfl⟩ := Option.map_eq_some_iff.1 hclasses
      rw [display?_eq_some_iff, String.toList_inj] at hd
      rw [hd]
      exact .visible d
    · rintro ⟨d⟩
      rw [classes?, display?_eq_some_iff.2 rfl]
      rfl
  | visibleOn =>
    have hcolon (d : Display) : ':' ∉ ("visible-" ++ d.text).toList := by cases d <;> decide
    rw [classes?, compound_eq_some_iff (fun _ _ => display?_eq_some_iff) hcolon
      fun d => ofScreen_iff fun s => "visible-" ++ s.text ++ "-" ++ d.text]
    constructor
    · rintro ⟨d, list, parts, rfl, hlist, hwords⟩
      exact .visibleOn d hlist hwords
    · intro h
      cases h with
      | visibleOn d hlist hwords => exact ⟨d, _, _, rfl, hlist, hwords⟩
  | hidden =>
    constructor
    · intro h
      rw [classes?] at h
      split at h
      · next hname =>
        cases h
        rw [String.toList_inj.1 hname]
        exact .hidden
      · cases h
    · rintro ⟨⟩
      rfl
  | hiddenOn =>
    rw [classes?, ite_eq_bind "hidden", compound_eq_some_iff (fun _ _ => fixed?_eq_some_iff)
      (fun _ => by decide) fun _ => ofScreen_iff fun s => "hidden-" ++ s.text]
    constructor
    · rintro ⟨_, list, parts, rfl, hlist, hwords⟩
      exact .hiddenOn hlist hwords
    · intro h
      cases h with
      | hiddenOn hlist hwords => exact ⟨(), _, _, rfl, hlist, hwords⟩
  | size =>
    constructor
    · intro h
      obtain ⟨classes, hclasses, rfl⟩ := Option.map_eq_some_iff.1 h
      obtain ⟨⟨s, n⟩, hsized, rfl⟩ := Option.map_eq_some_iff.1 hclasses
      obtain ⟨hn, rfl⟩ := (sizedName_iff reads_width? _ _).1 hsized
      exact .size s hn
    · intro h
      cases h with
      | @size s n hn =>
        rw [classes?, (sizedName_iff reads_width? _ (s, n)).2 ⟨hn, rfl⟩]
        rfl
  | sizeOn =>
    rw [classes?, ite_eq_bind "size", compound_eq_some_iff (fun _ _ => fixed?_eq_some_iff)
      (fun _ => by decide) fun _ => ofSize_iff reads_width? fun s n =>
        "col-" ++ s.text ++ "-" ++ toString n]
    constructor
    · rintro ⟨_, list, parts, rfl, hlist, hwords⟩
      exact .sizeOn hlist hwords
    · intro h
      cases h with
      | sizeOn hlist hwords => exact ⟨(), _, _, rfl, hlist, hwords⟩
  | shift =>
    constructor
    · intro h
      obtain ⟨classes, hclasses, rfl⟩ := Option.map_eq_some_iff.1 h
      obtain ⟨⟨p, rest⟩, hp, hclasses⟩ := Option.bind_eq_some_iff.1 hclasses
      obtain ⟨n, hrest, rfl⟩ := Option.map_eq_some_iff.1 hclasses
      obtain ⟨hn, rfl⟩ := (shiftName_iff name p n).1 ⟨rest, hp, hrest⟩
      exact .shift p hn
    · intro h
      cases h with
      | @shift p n hn =>
        obtain ⟨rest, hp, hrest⟩ := (shiftName_iff (p.text ++ toString n) p n).2 ⟨hn, rfl⟩
        rw [classes?, hp]
        simp only [Option.bind_some, hrest]
        rfl
  | shiftOn =>
    rw [classes?, compound_eq_some_iff (fun _ _ => shift?_eq_some_iff)
      (fun p => (unbroken_shift p).colon_not_mem) fun p => ofSize_iff reads_number? fun s n =>
        "col-" ++ s.text ++ "-" ++ p.text ++ "-" ++ toString n]
    constructor
    · rintro ⟨p, list, parts, rfl, hlist, hwords⟩
      exact .shiftOn p hlist hwords
    · intro h
      cases h with
      | shiftOn p hlist hwords => exact ⟨p, _, _, rfl, hlist, hwords⟩

/-! ## One rule for each name -/

/-- The only rule that a name can belong to, by its first character and its colon. -/
def ofName (name : String) : Rule :=
  let compound := name.toList.contains ':'
  match name.toList.head? with
  | some 'v' => if compound then .visibleOn else .visible
  | some 'h' => if compound then .hiddenOn else .hidden
  | some 'o' | some 'p' => if compound then .shiftOn else .shift
  | _ => if compound then .sizeOn else .size

theorem Means.ofName {rule : Rule} {name : String} {words : List String}
    (h : rule.Means name words) : ofName name = rule := by
  cases h with
  | visible d => cases d <;> decide
  | visibleOn d => cases d <;> simp [Rule.ofName]
  | hidden => decide
  | hiddenOn => simp [Rule.ofName]
  | @size s n hn =>
    have hcolon : ':' ∉ Nat.toDigits 10 n := by simpa using (unbroken_toString n).colon_not_mem
    cases s <;> simp [Rule.ofName, Screen.text, hcolon]
  | sizeOn => simp [Rule.ofName]
  | @shift p n hn =>
    have hcolon : ':' ∉ Nat.toDigits 10 n := by simpa using (unbroken_toString n).colon_not_mem
    cases p <;> simp [Rule.ofName, Shift.text, hcolon]
  | shiftOn p => cases p <;> simp [Rule.ofName, Shift.text]

theorem means_of_classes? {rule : Rule} {name : String} {classes : List ClassName}
    (h : rule.classes? name.toList = some classes) : rule.Means name (classes.map text) :=
  (rule.words_eq_some_iff name _).1 (congrArg (Option.map (·.map text)) h)

/-- No name belongs to two rules. -/
theorem eq_of_classes? {rule rule' : Rule} {name : String}
    (h : (rule.classes? name.toList).isSome) (h' : (rule'.classes? name.toList).isSome) :
    rule = rule' := by
  obtain ⟨classes, hclasses⟩ := Option.isSome_iff_exists.1 h
  obtain ⟨classes', hclasses'⟩ := Option.isSome_iff_exists.1 h'
  rw [← (means_of_classes? hclasses).ofName, (means_of_classes? hclasses').ofName]

/-! ## Classes as words -/

theorem Means.isWord {rule : Rule} {name word : String} {words : List String}
    (h : rule.Means name words) (hword : word ∈ words) : IsWord word := by
  cases h with
  | visible d =>
    rw [List.mem_singleton.1 hword]
    cases d <;> exact .visible .md _
  | visibleOn d _ hwords =>
    obtain ⟨_, s, -, rfl⟩ := hwords.exists_of_mem hword
    exact .visible s d
  | hidden =>
    rw [List.mem_singleton.1 hword]
    exact .hidden .md
  | hiddenOn _ hwords =>
    obtain ⟨_, s, -, rfl⟩ := hwords.exists_of_mem hword
    exact .hidden s
  | size s hn =>
    rw [List.mem_singleton.1 hword]
    exact .column s hn
  | sizeOn _ hwords =>
    obtain ⟨_, s, n, hn, -, rfl⟩ := hwords.exists_of_mem hword
    exact .column s hn
  | shift p hn =>
    rw [List.mem_singleton.1 hword]
    exact .shift .md p hn
  | shiftOn p _ hwords =>
    obtain ⟨_, s, n, hn, -, rfl⟩ := hwords.exists_of_mem hword
    exact .shift s p hn.2

end Rule

theorem IsWord.unbroken {word : String} (h : IsWord word) : word ≠ "" ∧ Unbroken word := by
  cases h with
  | visible s d => exact unbroken_text (.visible s d)
  | hidden s => exact unbroken_text (.hidden s)
  | @column s n => exact unbroken_text (.column s n)
  | @shift s p n => exact unbroken_text (.shift s p n)

/-! ## Sets of rules -/

theorem classesOf?_eq_some_iff {rules : List Rule} {name : String} {classes : List ClassName} :
    classesOf? rules name = some classes ↔
      ∃ rule ∈ rules, rule.classes? name.toList = some classes := by
  have hfound {classes : List ClassName} (h : classesOf? rules name = some classes) :
      ∃ rule ∈ rules, rule.classes? name.toList = some classes :=
    List.exists_of_findSome?_eq_some h
  refine ⟨hfound, fun ⟨rule, hrule, hclasses⟩ => ?_⟩
  have hsome : (classesOf? rules name).isSome := by
    rw [classesOf?, List.findSome?_isSome_iff]
    exact ⟨rule, hrule, by rw [hclasses]; rfl⟩
  obtain ⟨classes', h⟩ := Option.isSome_iff_exists.1 hsome
  obtain ⟨rule', -, hclasses'⟩ := hfound h
  obtain rfl : rule = rule' := Rule.eq_of_classes? (by rw [hclasses]; rfl) (by rw [hclasses']; rfl)
  rw [h, ← hclasses', hclasses]

end GridMarkup.ClassName
