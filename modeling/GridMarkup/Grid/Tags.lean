import GridMarkup.Token.Classes
import GridMarkup.ClassName.Rule

/-!
# Grid tags

Containers, rows, columns and clearfixes are written as `div` elements with classes. On every tag,
the attributes that show or hide an element become classes too. What a tag becomes depends on
nothing but the tag.
-/

namespace GridMarkup.Grid

open ClassName (Rule)

/-- The element that takes the place of every grid element. -/
def element : String := "div"

def rowName : String := "r"

/-- The width that a column's name gives, `c1` to `c12`. -/
def columnWidth? (name : String) : Option Nat :=
  (Text.strip? ['c'] name.toList).bind ClassName.width?

def isColumn (name : String) : Bool := name == "c" || (columnWidth? name).isSome

def ownClass? (name : String) : Option String :=
  if name = "container" ∨ name = "container-fluid" ∨ name = "clearfix" then some name
  else if name = rowName then some "row"
  else none

def isGrid (name : String) : Bool := isColumn name || (ownClass? name).isSome

/-- The start tag of the column that is put around the content of a row without one. -/
def impliedColumn : Token :=
  .startTag ⟨element, [⟨"class", some (ClassName.column .md 12).text⟩], false⟩

/-! ## Start tags -/

/-- A column without any width is one wide. -/
def columnSize (name : String) (classes : List ClassName) : List ClassName :=
  match columnWidth? name with
  | some width => [.column .md width]
  | none => if classes.any ClassName.isSize then [] else [.column .md 1]

def expandColumn (tag : StartTag) : StartTag :=
  let (classes, kept) := ClassName.convert Rule.column tag.attributes
  StartTag.prependClasses ⟨element, kept, false⟩
    ((columnSize tag.name classes ++ classes).map ClassName.text)

/-- Turns the attributes that show or hide an element into classes. -/
def expandVisibility (tag : StartTag) : StartTag :=
  let (classes, kept) := ClassName.convert Rule.visibility tag.attributes
  StartTag.appendClasses { tag with attributes := kept } (classes.map ClassName.text)

def expandTag (tag : StartTag) : StartTag :=
  if isColumn tag.name then expandColumn tag
  else
    match ownClass? tag.name with
    | none => expandVisibility tag
    | some own => expandVisibility (StartTag.appendClasses ⟨element, tag.attributes, false⟩ [own])

/-- What closes a grid tag that closes itself, since `div` cannot. A row still gets its column. -/
def closing (tag : StartTag) : List Token :=
  if tag.selfClosing ∧ isGrid tag.name then
    if tag.name = rowName then [impliedColumn, .endTag element, .endTag element]
    else [.endTag element]
  else []

def expandStart (tag : StartTag) : List Token := .startTag (expandTag tag) :: closing tag

/-! ## End tags -/

def expandEnd (name : String) : Token := .endTag (if isGrid name then element else name)

def expand : Token → List Token
  | .startTag tag => expandStart tag
  | .endTag name => [expandEnd name]
  | t => [t]

end GridMarkup.Grid
