import GridMarkup.Text.Search
import GridMarkup.Token

/-!
# The class attribute

A tag's classes are the words of its first class attribute. New classes are written into that
attribute, or into a new one behind the others.
-/

namespace GridMarkup.StartTag

def classWords (tag : StartTag) : List String :=
  match tag.attribute? "class" with
  | none => []
  | some a => (Text.words a.text.toList).map String.ofList

/-- Gives the first class attribute a value; without one, adds it at the end. -/
def setClass (value : String) : List Attribute → List Attribute
  | [] => [⟨"class", some value⟩]
  | a :: rest =>
    if a.name = "class" then ⟨"class", some value⟩ :: rest else a :: setClass value rest

def withClasses (tag : StartTag) (classes : List String) : StartTag :=
  { tag with attributes := setClass (" ".intercalate classes) tag.attributes }

/-- Puts classes behind those of the tag. Without any, the attribute keeps its spelling. -/
def appendClasses (tag : StartTag) (classes : List String) : StartTag :=
  if classes.isEmpty then tag else tag.withClasses (tag.classWords ++ classes)

/-- Puts classes in front of those of the tag. -/
def prependClasses (tag : StartTag) (classes : List String) : StartTag :=
  if classes.isEmpty then tag else tag.withClasses (classes ++ tag.classWords)

end GridMarkup.StartTag
