import GridMarkup.ClassName
import GridMarkup.Text.Search
import GridMarkup.Token

/-!
# From attributes to class names

A rule turns the name of an attribute into class names. A simple name such as `md8` stands for one
class. A compound name such as `size:xs12-md8` lists parts behind a colon and stands for one class
for each part that the rule knows; the other parts are dropped.
-/

namespace GridMarkup.ClassName

open Text

/-! ## Words and numbers -/

def word? {α : Type} (text : α → String) (all : List α) (s : List Char) : Option α :=
  all.find? fun x => (text x).toList == s

/-- A word that the text starts with, and what follows it. -/
def leadingWord? {α : Type} (text : α → String) (all : List α) (s : List Char) :
    Option (α × List Char) :=
  all.findSome? fun x => (strip? (text x).toList s).map (x, ·)

/-- A number up to twelve, written without leading zeros. -/
def number? (s : List Char) : Option Nat := (List.range 13).find? (Nat.toDigits 10 · == s)

/-- The width of a column: one to twelve. -/
def width? (s : List Char) : Option Nat := (number? s).filter (0 < ·)

def sized? (size? : List Char → Option Nat) (s : List Char) : Option (Screen × Nat) :=
  match leadingWord? Screen.text Screen.all s with
  | none => none
  | some (screen, rest) => (size? rest).map (screen, ·)

def head (name : List Char) : List Char := name.takeWhile (· != ':')

/-- The parts behind the first colon, if there is a list without blanks. -/
def parts? (name : List Char) : Option (List (List Char)) :=
  match strip? [':'] (name.dropWhile (· != ':')) with
  | none => none
  | some list =>
    if list.isEmpty || list.any isBlank then none else some (splitWhere (· == '-') list)

def display? (s : List Char) : Option Display :=
  (strip? "visible-".toList s).bind (word? Display.text Display.all)

/-! ## Rules -/

inductive Rule where
  | visible
  | visibleOn
  | hidden
  | hiddenOn
  | size
  | sizeOn
  | shift
  | shiftOn
  deriving DecidableEq, Repr

namespace Rule

def label : Rule → String
  | .visible => "visible (visible-block, visible-inline, visible-inline-block)"
  | .visibleOn => "compound visible (visible-*:)"
  | .hidden => "hidden"
  | .hiddenOn => "compound hidden (hidden:)"
  | .size => "size (xsN, smN, mdN, lgN)"
  | .sizeOn => "compound size (size:)"
  | .shift => "property (offsetN, pushN, pullN)"
  | .shiftOn => "compound property (offset:, push:, pull:)"

def isCompound : Rule → Bool
  | .visibleOn | .hiddenOn | .sizeOn | .shiftOn => true
  | _ => false

/-- The classes that an attribute of this name stands for; none if the rule is not about it. -/
def classes? : Rule → List Char → Option (List ClassName)
  | .visible, name => (display? name).map fun display => [.visible .md display]
  | .visibleOn, name =>
    (display? (head name)).bind fun display =>
      (parts? name).map fun parts =>
        (parts.filterMap (word? Screen.text Screen.all)).map (.visible · display)
  | .hidden, name => if name = "hidden".toList then some [.hidden .md] else none
  | .hiddenOn, name =>
    if head name = "hidden".toList then
      (parts? name).map fun parts =>
        (parts.filterMap (word? Screen.text Screen.all)).map .hidden
    else none
  | .size, name => (sized? width? name).map fun (screen, n) => [.column screen n]
  | .sizeOn, name =>
    if head name = "size".toList then
      (parts? name).map fun parts =>
        (parts.filterMap (sized? width?)).map fun (screen, n) => .column screen n
    else none
  | .shift, name =>
    (leadingWord? Shift.text Shift.all name).bind fun (way, rest) =>
      (number? rest).map fun n => [.shift .md way n]
  | .shiftOn, name =>
    (word? Shift.text Shift.all (head name)).bind fun way =>
      (parts? name).map fun parts =>
        (parts.filterMap (sized? number?)).map fun (screen, n) => .shift screen way n

def visibility : List Rule := [.visible, .visibleOn, .hidden, .hiddenOn]

def column : List Rule := visibility ++ [.size, .sizeOn, .shift, .shiftOn]

end Rule

/-! ## Converting attributes -/

/-- The first rule that is about the name decides. -/
def classesOf? (rules : List Rule) (name : String) : Option (List ClassName) :=
  rules.findSome? (·.classes? name.toList)

/-- The classes of the attributes that stand for classes, and the other attributes. -/
def convert (rules : List Rule) : List Attribute → List ClassName × List Attribute
  | [] => ([], [])
  | a :: rest =>
    let (classes, kept) := convert rules rest
    match classesOf? rules a.name with
    | some found => (found ++ classes, kept)
    | none => (classes, a :: kept)

end GridMarkup.ClassName
